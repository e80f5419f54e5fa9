import Bitdb.Common.Json.TerminationProperties
import Mathlib.Data.Nat.Digits.Lemmas

/-! Which objects the parser reads back from what `ToString` prints. -/

set_option autoImplicit false

namespace Bitdb.Json

open Base (Approximates thrown_ne_unfinished)
open List

section Digits

theorem isDigit_ofNat {digit : Nat} (below : digit < 10) :
    isDigit (UInt8.ofNat (48 + digit)) = true := by
  have all : ∀ digit < 10, isDigit (UInt8.ofNat (48 + digit)) = true := by decide
  exact all digit below

theorem toNat_digit {digit : Nat} (below : digit < 10) :
    (UInt8.ofNat (48 + digit)).toNat - 48 = digit := by
  have all : ∀ digit < 10, (UInt8.ofNat (48 + digit)).toNat - 48 = digit := by decide
  exact all digit below

theorem decimal_ne_nil (value : Nat) : decimal value ≠ [] := by
  rw [decimal]
  split
  · exact cons_ne_nil _ _
  next positive =>
    simpa using Nat.digits_ne_nil_iff_ne_zero.mpr positive

theorem isDigit_of_mem_decimal {value : Nat} {ch : Byte} (member : ch ∈ decimal value) :
    isDigit ch = true := by
  rw [decimal] at member
  split at member
  · rw [mem_singleton.mp member]
    decide
  · obtain ⟨digit, digitMember, rfl⟩ := mem_map.mp member
    exact isDigit_ofNat (Nat.digits_lt_base (by decide) (mem_reverse.mp digitMember))

theorem foldl_digits (digits : List Nat) (below : ∀ digit ∈ digits, digit < 10) :
    (digits.reverse.map fun digit => UInt8.ofNat (48 + digit)).foldl
      (fun value ch => value * 10 + (ch.toNat - 48)) 0 = Nat.ofDigits 10 digits := by
  induction digits with
  | nil => rfl
  | cons digit digits ih =>
    have others := ih fun other member => below other (mem_cons_of_mem _ member)
    rw [reverse_cons, map_append, foldl_append, others, Nat.ofDigits_cons]
    simp only [map_cons, map_nil, foldl_cons, foldl_nil, toNat_digit (below digit mem_cons_self)]
    omega

theorem foldl_decimal (value : Nat) :
    (decimal value).foldl (fun value ch => value * 10 + (ch.toNat - 48)) 0 = value := by
  rw [decimal]
  split
  next zero => rw [zero]; rfl
  next =>
    rw [foldl_digits _ fun _ member => Nat.digits_lt_base (by decide) member]
    exact Nat.ofDigits_digits 10 value

end Digits

namespace Parser

variable {Double : Type} {parser : Parser Double} {rest : List Byte} {idx : Nat}

def Delimited (rest : List Byte) : Prop := isDigit (rest.headD 0) = false ∧ rest.headD 0 ≠ dot

theorem digits_of_drop {digits : List Byte} (some : digits ≠ [])
    (all : ∀ ch ∈ digits, isDigit ch = true) (ahead : parser.str.drop idx = digits ++ rest)
    (stops : isDigit (rest.headD 0) = false) :
    isDigit (charAt parser.str idx) = true ∧ (parser.str.drop idx).takeWhile isDigit = digits ∧
      skipWhile parser.str isDigit idx = idx + digits.length := by
  have taken : (parser.str.drop idx).takeWhile isDigit = digits := by
    rw [ahead]
    exact takeWhile_append_stop all stops
  refine ⟨?_, taken, by rw [skipWhile, taken]⟩
  obtain ⟨ch, text, rfl⟩ := exists_cons_of_ne_nil some
  rw [charAt_of_drop ahead]
  exact all ch mem_cons_self

theorem parseNumber_decimal {value : Int32} (natural : 0 ≤ value.toInt)
    (ahead : parser.str.drop idx = decimal value.toInt.natAbs ++ rest)
    (delimited : Delimited rest) :
    parser.parseNumber idx = .ok (.int value, idx + (decimal value.toInt.natAbs).length) := by
  obtain ⟨first, digits, skipped⟩ := digits_of_drop (decimal_ne_nil _)
    (fun _ => isDigit_of_mem_decimal) ahead delimited.1
  have last : charAt parser.str (idx + (decimal value.toInt.natAbs).length) ≠ dot := by
    rw [charAt_eq_headD, drop_add_of_drop ahead]
    exact delimited.2
  have small : value.toInt.natAbs ≤ 2 ^ 63 - 1 := by
    have := value.toInt_lt
    omega
  have number : Int32.ofNat (strtol (parser.str.drop idx)) = value := by
    rw [strtol, digits, foldl_decimal, Nat.min_eq_left small, ← Int32.ofInt_eq_ofNat,
      Int.natAbs_of_nonneg natural, Int32.ofInt_toInt]
  rw [parseNumber, skipped, if_pos first, if_pos last, number]

theorem insertEntry_append {α : Type} {key : List Byte} (value : α)
    {entries : List (List Byte × α)} (last : ∀ entry ∈ entries, entry.1 < key) :
    insertEntry key value entries = entries ++ [(key, value)] := by
  induction entries with
  | nil => rfl
  | cons entry entries ih =>
    have before := last entry mem_cons_self
    have others := ih fun other member => last other (mem_cons_of_mem _ member)
    have different : key ≠ entry.1 := by
      rintro rfl
      exact List.lt_irrefl _ before
    rw [insertEntry, if_neg (List.lt_asymm before), if_neg different, others]
    rfl

def Token (ch : Byte) : Prop := ch ≠ 0 ∧ isSpace ch = false ∧ ch ≠ 47

instance (ch : Byte) : Decidable (Token ch) := inferInstanceAs (Decidable (_ ∧ _))

theorem getNextToken_ahead {ch : Byte} (token : Token ch) (ahead : parser.str.drop idx = ch :: rest)
    (place : Place) : parser.getNextToken place idx = .ok idx := by
  have same := charAt_of_drop ahead
  exact getNextToken_of_charAt (same ▸ token.1) (same ▸ token.2.1) (same ▸ token.2.2)

theorem token_of_isDigit {ch : Byte} (digit : isDigit ch = true) : Token ch := by
  have bounds := of_decide_eq_true digit
  have least : 48 ≤ ch.toNat := UInt8.le_iff_toNat_le.mp bounds.1
  refine ⟨?_, decide_eq_false ?_, ?_⟩
  · rintro rfl
    exact absurd least (by decide)
  · rintro (rfl | ⟨-, most⟩)
    · exact absurd least (by decide)
    · have : ch.toNat ≤ 13 := UInt8.le_iff_toNat_le.mp most
      omega
  · rintro rfl
    exact absurd least (by decide)

theorem parseToken_of_isDigit {parse : Nat → Parsed (JObject Double × Nat)}
    (digit : isDigit (charAt parser.str idx) = true) :
    parser.parseToken parse idx = parser.parseNumber idx := by
  have bounds := of_decide_eq_true digit
  have most : (charAt parser.str idx).toNat ≤ 57 := UInt8.le_iff_toNat_le.mp bounds.2
  have other {letter : Byte} (larger : 57 < letter.toNat) : charAt parser.str idx ≠ letter := by
    rintro same
    rw [same] at most
    omega
  rw [parseToken, if_neg (other (by decide)),
    if_neg (not_or.mpr ⟨other (by decide), other (by decide)⟩), if_pos (.inr digit)]

theorem parse_ahead {ch : Byte} (token : Token ch) (ahead : parser.str.drop idx = ch :: rest)
    (depth : Nat) : parser.parse (depth + 1) idx = parser.parseToken (parser.parse depth) idx := by
  rw [parse, getNextToken_ahead token ahead]
  rfl

theorem parse_string {text : List Byte} (enough : parser.str.length < parser.turns)
    (raw : RawText text) (ahead : parser.str.drop idx = quote :: (text ++ quote :: rest))
    (depth : Nat) : parser.parse (depth + 1) idx = .ok (.str text, idx + 1 + text.length + 1) := by
  rw [parse_ahead (by decide) ahead, parseToken, charAt_of_drop ahead]
  exact parseString_raw enough raw ahead

theorem parse_int (value : Int32) (ahead : parser.str.drop idx = printInt value ++ rest)
    (delimited : Delimited rest) (depth : Nat) :
    parser.parse (depth + 1) idx =
      if 0 ≤ value.toInt then .ok (.int value, idx + (printInt value).length)
      else .error (.thrown .number) := by
  by_cases natural : 0 ≤ value.toInt
  · rw [printInt, if_neg (Int.not_lt.mpr natural)] at ahead ⊢
    obtain ⟨ch, text, split⟩ := exists_cons_of_ne_nil (decimal_ne_nil value.toInt.natAbs)
    have digit : isDigit ch = true := isDigit_of_mem_decimal (split ▸ mem_cons_self)
    have front : parser.str.drop idx = ch :: (text ++ rest) := by
      rw [ahead, split]
      rfl
    rw [if_pos natural, parse_ahead (token_of_isDigit digit) front, parseToken_of_isDigit,
      parseNumber_decimal natural ahead delimited]
    rw [charAt_of_drop front]
    exact digit
  · rw [printInt, if_pos (Int.not_le.mp natural)] at ahead
    have front : parser.str.drop idx = minus :: (decimal value.toInt.natAbs ++ rest) := ahead
    rw [if_neg natural, parse_ahead (by decide) front, parseToken, charAt_of_drop front]
    show parser.parseNumber idx = _
    rw [parseNumber, charAt_of_drop front]
    rfl

theorem parse_null (ahead : parser.str.drop idx = nullText ++ rest) (depth : Nat) :
    parser.parse (depth + 1) idx = .ok (.null, idx + 4) := by
  rw [parse_ahead (by decide) ahead, parseToken, charAt_of_drop ahead]
  show parser.parseNull idx = _
  rw [parseNull, if_pos (compare_of_drop ahead)]

theorem parse_true (ahead : parser.str.drop idx = trueText ++ rest) (depth : Nat) :
    parser.parse (depth + 1) idx = .ok (.bool true, idx + 4) := by
  rw [parse_ahead (by decide) ahead, parseToken, charAt_of_drop ahead]
  show parser.parseBool idx = _
  rw [parseBool, if_pos (compare_of_drop ahead)]

theorem parse_false (ahead : parser.str.drop idx = falseText ++ rest) (depth : Nat) :
    parser.parse (depth + 1) idx = .ok (.bool false, idx + 5) := by
  have first : charAt parser.str idx = 102 := charAt_of_drop ahead
  have inside : idx < parser.str.length := lt_length_of_charAt (by rw [first]; decide)
  have other : charAt parser.str idx ≠ 116 := by rw [first]; decide
  rw [parse_ahead (by decide) ahead, parseToken, first]
  show parser.parseBool idx = _
  rw [parseBool, not_compare_of_charAt other inside, if_neg Bool.false_ne_true,
    if_pos (compare_of_drop ahead)]

theorem drop_succ_of_drop {str : List Byte} {ch : Byte} (ahead : str.drop idx = ch :: rest) :
    str.drop (idx + 1) = rest := by
  rw [← drop_drop, ahead]
  rfl

section Brackets

variable {close ch : Byte} {object : JObject Double} {next : Nat}
  {loop : Nat → Parsed (JObject Double × Nat)}

theorem opened_empty (token : parser.getNextToken .value (idx + 1) = .ok next)
    (ahead : parser.str.drop next = close :: rest) :
    parser.opened close object loop idx = .ok (object, next + 1) := by
  rw [opened, token]
  simp only [bind, Except.bind, charAt_of_drop ahead, if_true]

theorem opened_loop (token : parser.getNextToken .value (idx + 1) = .ok next)
    (ahead : parser.str.drop next = ch :: rest) (other : ch ≠ close) :
    parser.opened close object loop idx = loop next := by
  rw [opened, token]
  simp only [bind, Except.bind, charAt_of_drop ahead, if_neg other]

theorem separated_close {error : ParseError} (token : parser.getNextToken .separator idx = .ok next)
    (ahead : parser.str.drop next = close :: rest) :
    parser.separated close error object loop idx = .ok (object, next + 1) := by
  rw [separated, token]
  simp only [bind, Except.bind, charAt_of_drop ahead, if_true]

theorem separated_comma {error : ParseError} (token : parser.getNextToken .separator idx = .ok next)
    (ahead : parser.str.drop next = comma :: rest) (other : comma ≠ close) :
    parser.separated close error object loop idx = loop (next + 1) := by
  rw [separated, token]
  simp only [bind, Except.bind, charAt_of_drop ahead, if_neg other, ne_eq, not_true_eq_false,
    if_false]

theorem parse_list (ahead : parser.str.drop idx = leftBracket :: rest) (depth : Nat) :
    parser.parse (depth + 1) idx = parser.opened rightBracket (.list [])
      (parser.listLoop (parser.parse depth) parser.turns []) idx := by
  rw [parse_ahead (by decide) ahead, parseToken, charAt_of_drop ahead]
  rfl

theorem parse_dict (ahead : parser.str.drop idx = leftBrace :: rest) (depth : Nat) :
    parser.parse (depth + 1) idx = parser.opened rightBrace (.dict [])
      (parser.dictLoop (parser.parse depth) parser.turns []) idx := by
  rw [parse_ahead (by decide) ahead, parseToken, charAt_of_drop ahead]
  rfl

theorem dictLoop_entry {parse : Nat → Parsed (JObject Double × Nat)} {turns last : Nat}
    {key : List Byte} {entries : List (List Byte × JObject Double)}
    (name : parse idx = .ok (.str key, next))
    (token : parser.getNextToken .separator next = .ok last)
    (ahead : parser.str.drop last = colon :: rest) :
    parser.dictLoop parse (turns + 1) entries idx = (do
      let value ← parse (last + 1)
      parser.separated rightBrace .dictSeparator (.dict (insertEntry key value.1 entries))
        (parser.dictLoop parse turns (insertEntry key value.1 entries)) value.2) := by
  rw [dictLoop_succ, name]
  simp only [bind, Except.bind, keyOf, token, charAt_of_drop ahead]
  rfl

end Brackets

section Printed

open JObject (itemsToString entriesToString ItemsRaw EntriesRaw ItemsWellFormed EntriesWellFormed
  itemsNonNegative entriesNonNegative)

variable (printDouble : Double → List Byte)

variable {object : JObject Double}

theorem toString_starts (raw : object.Raw) :
    ∃ ch text, object.toString printDouble = ch :: text ∧ Token ch ∧ ch ≠ rightBracket := by
  cases object with
  | null => exact ⟨_, _, rfl, by decide, by decide⟩
  | bool value =>
    cases value with
    | true | false => exact ⟨_, _, rfl, by decide, by decide⟩
  | int value =>
    obtain ⟨ch, text, split⟩ := exists_cons_of_ne_nil (decimal_ne_nil value.toInt.natAbs)
    have digit : isDigit ch = true := isDigit_of_mem_decimal (split ▸ mem_cons_self)
    rw [JObject.toString, printInt]
    split
    · exact ⟨_, _, rfl, by decide, by decide⟩
    · refine ⟨ch, text, split, token_of_isDigit digit, ?_⟩
      rintro rfl
      cases digit
  | double value => exact raw.elim
  | str | list | dict => exact ⟨_, _, rfl, by decide, by decide⟩

theorem length_items_le {items : List (JObject Double)} (raw : ItemsRaw items) :
    items.length ≤ (itemsToString printDouble items).length := by
  induction items with
  | nil => exact Nat.zero_le _
  | cons item items ih =>
    obtain ⟨ch, text, starts, -⟩ := toString_starts printDouble raw.1
    have fewer := ih raw.2
    rw [itemsToString, starts]
    simp only [length_append, length_cons]
    omega

theorem length_entries_le (first : Bool) (entries : List (List Byte × JObject Double)) :
    entries.length ≤ (entriesToString printDouble first entries).length := by
  induction entries generalizing first with
  | nil => exact Nat.zero_le _
  | cons entry entries ih =>
    have fewer := ih false
    rw [entriesToString]
    simp only [length_append, length_cons]
    omega

theorem entriesToString_false (entries : List (List Byte × JObject Double)) :
    entriesToString printDouble false entries =
      (if entries.isEmpty then [] else [comma]) ++ entriesToString printDouble true entries := by
  cases entries with
  | nil | cons => rfl

variable {printDouble}

theorem delimited_separator {α : Type} (later : List α) (text : List Byte) {close : Byte}
    (other : isDigit close = false ∧ close ≠ dot) (printed : later = [] → text = []) :
    Delimited ((if later.isEmpty then [] else [comma]) ++ text ++ close :: rest) := by
  cases later with
  | nil =>
    rw [printed rfl]
    exact other
  | cons => exact ⟨rfl, (by decide : comma ≠ dot)⟩

mutual

theorem parse_toString (object : JObject Double) (raw : object.Raw) (wellFormed : object.WellFormed)
    (enough : parser.str.length < parser.turns) {depth idx : Nat} {rest : List Byte}
    (deep : (object.toString printDouble).length < depth) (delimited : Delimited rest)
    (ahead : parser.str.drop idx = object.toString printDouble ++ rest) :
    parser.parse depth idx =
      if object.nonNegative then .ok (object, idx + (object.toString printDouble).length)
      else .error (.thrown .number) := by
  obtain ⟨level, rfl⟩ : ∃ level, depth = level + 1 := ⟨depth - 1, by omega⟩
  cases object with
  | null => exact parse_null ahead level
  | bool value =>
    cases value with
    | true => exact parse_true ahead level
    | false => exact parse_false ahead level
  | int value =>
    rw [parse_int value ahead delimited level]
    simp only [JObject.nonNegative, decide_eq_true_eq]
    rfl
  | double value => exact raw.elim
  | str text =>
    have quoted : parser.str.drop idx = quote :: (text ++ quote :: rest) := by
      rw [ahead, JObject.toString]
      simp only [cons_append, append_assoc, nil_append]
    rw [parse_string enough raw quoted, JObject.toString]
    simp only [JObject.nonNegative, length_append, length_cons, length_nil, if_true]
    rw [show idx + (text.length + 1 + (0 + 1)) = idx + 1 + text.length + 1 by omega]
  | list items =>
    simp only [JObject.toString, cons_append, append_assoc, nil_append] at ahead
    rw [JObject.toString, length_append, length_cons, length_singleton] at deep ⊢
    have inner := drop_succ_of_drop ahead
    rw [JObject.nonNegative, ← Nat.add_assoc, ← Nat.add_assoc, Nat.add_right_comm idx]
    rw [parse_list ahead]
    cases items with
    | nil => exact opened_empty (getNextToken_ahead (by decide) inner .value) inner
    | cons item items =>
      obtain ⟨ch, text, starts, token, other⟩ := toString_starts printDouble raw.1
      have itemsDeep : (itemsToString printDouble (item :: items)).length < level := by omega
      have fewer := length_items_le printDouble raw
      have covered := length_of_drop inner
      have front : parser.str.drop (idx + 1) = ch :: (text ++
          (if items.isEmpty then [] else [comma]) ++ itemsToString printDouble items ++
          rightBracket :: rest) := by
        rw [inner, itemsToString, starts]
        rfl
      rw [opened_loop (getNextToken_ahead token front .value) front other,
        listLoop_toString (item :: items) (cons_ne_nil _ _) raw wellFormed enough itemsDeep
        (by omega) inner]
      rfl
  | dict entries =>
    simp only [JObject.toString, cons_append, append_assoc, nil_append] at ahead
    rw [JObject.toString, length_append, length_cons, length_singleton] at deep ⊢
    have inner := drop_succ_of_drop ahead
    rw [JObject.nonNegative, ← Nat.add_assoc, ← Nat.add_assoc, Nat.add_right_comm idx]
    rw [parse_dict ahead]
    cases entries with
    | nil => exact opened_empty (getNextToken_ahead (by decide) inner .value) inner
    | cons entry entries =>
      have entriesDeep :
          (entriesToString printDouble true (entry :: entries)).length < level := by omega
      have fewer := length_entries_le printDouble true (entry :: entries)
      have covered := length_of_drop inner
      rw [opened_loop (getNextToken_ahead (by decide) inner .value) inner (by decide),
        dictLoop_toString (entry :: entries)
        (cons_ne_nil _ _) raw wellFormed.2 enough wellFormed.1 entriesDeep (by omega) inner]
      rfl

theorem listLoop_toString (items : List (JObject Double)) (some : items ≠ []) (raw : ItemsRaw items)
    (wellFormed : ItemsWellFormed items) (enough : parser.str.length < parser.turns)
    {depth turns idx : Nat} {before : List (JObject Double)} {rest : List Byte}
    (deep : (itemsToString printDouble items).length < depth) (left : items.length ≤ turns)
    (ahead : parser.str.drop idx = itemsToString printDouble items ++ rightBracket :: rest) :
    parser.listLoop (parser.parse depth) turns before idx =
      if itemsNonNegative items then
        .ok (.list (before ++ items), idx + (itemsToString printDouble items).length + 1)
      else .error (.thrown .number) := by
  cases items with
  | nil => exact absurd rfl some
  | cons item items =>
    obtain ⟨less, rfl⟩ : ∃ less, turns = less + 1 := ⟨turns - 1, by rw [length_cons] at left; omega⟩
    rw [itemsToString] at ahead deep ⊢
    simp only [length_append] at deep
    have front : parser.str.drop idx = item.toString printDouble ++
        ((if items.isEmpty then [] else [comma]) ++ itemsToString printDouble items ++
          rightBracket :: rest) := by
      rw [ahead]
      simp only [append_assoc]
    have itemDeep : (item.toString printDouble).length < depth := by omega
    have read := parse_toString item raw.1 wellFormed.1 enough itemDeep
      (delimited_separator items _ (by decide) (by rintro rfl; rfl)) front
    have behind := drop_add_of_drop front
    rw [itemsNonNegative]
    by_cases natural : item.nonNegative = true
    · rw [if_pos natural] at read
      rw [natural, Bool.true_and, listLoop_succ, read]
      simp only [bind, Except.bind]
      cases items with
      | nil =>
        rw [separated_close (getNextToken_ahead (by decide) behind .separator) behind]
        simp [itemsNonNegative, itemsToString]
      | cons next items =>
        have later : parser.str.drop (idx + (item.toString printDouble).length + 1) =
            itemsToString printDouble (next :: items) ++ rightBracket :: rest := by
          rw [← drop_drop, behind]
          rfl
        have laterDeep : (itemsToString printDouble (next :: items)).length < depth := by
          omega
        rw [separated_comma (getNextToken_ahead (by decide) behind .separator) behind (by decide),
          listLoop_toString (next :: items)
          (cons_ne_nil _ _) raw.2 wellFormed.2 enough laterDeep (by simpa using left) later]
        have total : idx + (item.toString printDouble).length + 1 +
            (itemsToString printDouble (next :: items)).length = idx +
            (item.toString printDouble ++ (if (next :: items).isEmpty then [] else [comma]) ++
              itemsToString printDouble (next :: items)).length := by
          simp only [length_append, isEmpty_cons, Bool.false_eq_true, if_false,
            length_cons, length_nil]
          omega
        rw [total, append_assoc, singleton_append]
    · rw [if_neg natural] at read
      rw [listLoop, read, eq_false_of_ne_true natural]
      rfl

theorem dictLoop_toString (entries : List (List Byte × JObject Double)) (some : entries ≠ [])
    (raw : EntriesRaw entries) (wellFormed : EntriesWellFormed entries)
    (enough : parser.str.length < parser.turns) {depth turns idx : Nat}
    {before : List (List Byte × JObject Double)} {rest : List Byte}
    (sorted : ((before ++ entries).map Prod.fst).Pairwise (· < ·))
    (deep : (entriesToString printDouble true entries).length < depth)
    (left : entries.length ≤ turns)
    (ahead : parser.str.drop idx = entriesToString printDouble true entries ++ rightBrace :: rest) :
    parser.dictLoop (parser.parse depth) turns before idx =
      if entriesNonNegative entries then
        .ok (.dict (before ++ entries), idx + (entriesToString printDouble true entries).length + 1)
      else .error (.thrown .number) := by
  cases entries with
  | nil => exact absurd rfl some
  | cons entry entries =>
    obtain ⟨key, value⟩ := entry
    obtain ⟨less, rfl⟩ : ∃ less, turns = less + 1 := ⟨turns - 1, by rw [length_cons] at left; omega⟩
    obtain ⟨level, rfl⟩ : ∃ level, depth = level + 1 := ⟨depth - 1, by omega⟩
    have printed : entriesToString printDouble true ((key, value) :: entries) =
        quote :: (key ++ quote :: colon :: (value.toString printDouble ++
          ((if entries.isEmpty then [] else [comma]) ++
            entriesToString printDouble true entries))) := by
      rw [entriesToString, entriesToString_false]
      simp only [if_true, nil_append, cons_append, append_assoc]
    have last : ∀ entry ∈ before, entry.1 < key := by
      intro entry member
      rw [map_append, pairwise_append] at sorted
      exact sorted.2.2 _ (mem_map_of_mem member) _ mem_cons_self
    rw [printed] at ahead deep ⊢
    simp only [cons_append, append_assoc] at ahead
    simp only [length_append, length_cons] at deep
    have name := parse_string enough raw.1 ahead level
    have colonAhead := drop_succ_of_drop (drop_add_of_drop (drop_succ_of_drop ahead))
    have token := getNextToken_ahead (by decide) colonAhead .separator
    have front := drop_succ_of_drop colonAhead
    rw [← append_assoc (if entries.isEmpty then [] else [comma])] at front
    have valueDeep : (value.toString printDouble).length < level + 1 := by omega
    have read := parse_toString value raw.2.1 wellFormed.1 enough valueDeep
      (delimited_separator entries _ (by decide) (by rintro rfl; rfl)) front
    have behind := drop_add_of_drop front
    have total : idx + 1 + key.length + 1 + 1 + (value.toString printDouble).length +
        ((if entries.isEmpty then [] else [comma]) ++
          entriesToString printDouble true entries).length = idx +
        (quote :: (key ++ quote :: colon :: (value.toString printDouble ++
          ((if entries.isEmpty then [] else [comma]) ++
            entriesToString printDouble true entries)))).length := by
      simp only [length_append, length_cons]
      omega
    rw [entriesNonNegative, ← total]
    by_cases natural : value.nonNegative = true
    · rw [if_pos natural] at read
      rw [natural, Bool.true_and, dictLoop_entry name token colonAhead, read]
      simp only [bind, Except.bind, insertEntry_append value last]
      cases entries with
      | nil => exact separated_close (getNextToken_ahead (by decide) behind .separator) behind
      | cons next entries =>
        have later := drop_succ_of_drop behind
        have laterDeep : (entriesToString printDouble true (next :: entries)).length <
            level + 1 := by omega
        rw [separated_comma (getNextToken_ahead (by decide) behind .separator) behind (by decide),
          dictLoop_toString (next :: entries)
          (cons_ne_nil _ _) raw.2.2 wellFormed.2 enough (by simpa using sorted) laterDeep
          (by simpa using left) later]
        simp only [append_assoc, singleton_append, isEmpty_cons,
          Bool.false_eq_true, if_false, length_cons]
        rw [Nat.add_assoc _ 1 (entriesToString printDouble true (next :: entries)).length,
          Nat.add_comm 1]
    · rw [if_neg natural] at read
      rw [dictLoop_entry name token colonAhead, read, eq_false_of_ne_true natural]
      rfl

end

theorem isSpace_of_isDigit {ch : Byte} (digit : isDigit ch = true) : isSpace ch = false :=
  (token_of_isDigit digit).2.1

theorem printInt_ends (value : Int32) :
    ∃ text ch, printInt value = text ++ [ch] ∧ isSpace ch = false := by
  have some := decimal_ne_nil value.toInt.natAbs
  have digit := isDigit_of_mem_decimal (getLast_mem some)
  have split := dropLast_append_getLast some
  rw [printInt]
  split
  · exact ⟨minus :: _, _, congrArg (minus :: ·) split.symm, isSpace_of_isDigit digit⟩
  · exact ⟨_, _, split.symm, isSpace_of_isDigit digit⟩

theorem toString_ends (raw : object.Raw) :
    ∃ text ch, object.toString printDouble = text ++ [ch] ∧ isSpace ch = false := by
  cases object with
  | null => exact ⟨[110, 117, 108], 108, rfl, rfl⟩
  | bool value =>
    cases value with
    | true => exact ⟨[116, 114, 117], 101, rfl, rfl⟩
    | false => exact ⟨[102, 97, 108, 115], 101, rfl, rfl⟩
  | int value => exact printInt_ends value
  | double value => exact raw.elim
  | str text => exact ⟨_, quote, rfl, rfl⟩
  | list items => exact ⟨_, rightBracket, rfl, rfl⟩
  | dict entries => exact ⟨_, rightBrace, rfl, rfl⟩

theorem trimRight_toString (raw : object.Raw) :
    trimRight (object.toString printDouble) = object.toString printDouble := by
  obtain ⟨text, ch, split, other⟩ := @toString_ends Double printDouble object raw
  rw [split, trimRight, rdropWhile_concat_neg _ _ _ (by rw [other]; exact Bool.false_ne_true)]

theorem fromString_toString (strtof64 : List Byte → Double) (missing : Place → Parsed Nat)
    (raw : object.Raw) (wellFormed : object.WellFormed) :
    fromString strtof64 missing ((object.toString printDouble).length + 1)
        (object.toString printDouble) =
      if object.nonNegative then .ok object else .error (.thrown .number) := by
  have read := @parse_toString Double
    ⟨object.toString printDouble, strtof64, missing, (object.toString printDouble).length + 1⟩
    printDouble object raw wellFormed (Nat.lt_succ_self _)
    ((object.toString printDouble).length + 1) 0 [] (Nat.lt_succ_self _) ⟨rfl, by decide⟩
    (append_nil _).symm
  rw [fromString, trimRight_toString raw, read]
  split
  · rfl
  · rfl

theorem fromString_approximates (strtof64 : List Byte → Double) (missing : Place → Parsed Nat)
    {fuel more : Nat} (fewer : fuel ≤ more) (content : List Byte) :
    Approximates (fromString strtof64 missing fuel content)
      (fromString strtof64 missing more content) :=
  (parse_approximates fewer fewer 0).map Prod.fst

/-- Without negative integers, and only without them, the parser gives a printed object back. -/
theorem fromString_toString_iff (printDouble : Double → List Byte)
    (strtof64 : List Byte → Double) {object : JObject Double} (raw : object.Raw)
    (wellFormed : object.WellFormed) :
    (∃ fuel, fromString strtof64 rewind fuel (object.toString printDouble) = .ok object) ↔
      object.nonNegative = true := by
  have printed := @fromString_toString Double printDouble object strtof64 rewind raw wellFormed
  constructor
  · rintro ⟨fuel, returned⟩
    by_contra negative
    rw [if_neg negative] at printed
    have ended := Approximates.eq_of_ended
      (fromString_approximates strtof64 rewind (Nat.le_max_left fuel _)
        (object.toString printDouble))
      (fromString_approximates strtof64 rewind (Nat.le_max_right fuel _)
        (object.toString printDouble))
      (by rw [printed]; exact thrown_ne_unfinished _)
    rw [returned, printed] at ended
    rcases ended with same | same
    · cases same
    · cases same
  · intro natural
    rw [if_pos natural] at printed
    exact ⟨_, printed⟩

theorem fromString_toString_nested :
    let object : JObject Unit :=
      .dict [([97], .list [.int 7, .null]), ([98], .str [backslash, quote])]
    object.Raw ∧ object.WellFormed ∧
      ∃ fuel, fromString (fun _ => ()) rewind fuel (object.toString fun _ => []) = .ok object := by
  intro object
  have raw : object.Raw := by
    simp only [object, JObject.Raw, EntriesRaw, ItemsRaw, and_true]
    decide
  have wellFormed : object.WellFormed := by
    simp only [object, JObject.WellFormed, EntriesWellFormed, ItemsWellFormed, and_true]
    decide
  exact ⟨raw, wellFormed, (fromString_toString_iff _ _ raw wellFormed).mpr rfl⟩

/-- A negative integer is printed with a sign that the parser does not read. -/
theorem fromString_toString_negative :
    fromString (fun _ => ()) rewind 3 ((JObject.int (-1) : JObject Unit).toString fun _ => []) =
      .error (.thrown .number) := rfl

end Printed

end Parser

end Bitdb.Json
