import Bitdb.Common.Json.RoundTripProperties

/-! Which texts the parser accepts. It reads a value of the grammar, and does not look at what
follows. -/

set_option autoImplicit false

namespace Bitdb.Json

open Base (Follows Approximates ok_ne_error thrown_ne_unfinished)
open List

section Scanning

variable {str text rest : List Byte} {idx : Nat}

theorem find_of_drop {ch : Byte} (free : ch ∉ text) (ahead : str.drop idx = text ++ ch :: rest) :
    find str ch idx = some (idx + text.length) := by
  have none : text.findIdx? (· == ch) = none := by
    rw [List.findIdx?_eq_none_iff]
    intro other member
    rw [beq_eq_false_iff_ne]
    rintro rfl
    exact free member
  rw [find, ahead, List.findIdx?_append, none, List.findIdx?_cons]
  simp

theorem skipSpaces_of_drop (all : ∀ ch ∈ text, isSpace ch = true)
    (ahead : str.drop idx = text ++ rest) (stops : isSpace (rest.headD 0) = false) :
    str.drop (skipSpaces str idx) = rest := by
  rw [skipSpaces, skipWhile, ahead, takeWhile_append_stop all stops]
  exact drop_add_of_drop ahead

end Scanning

namespace Parser

variable {Double : Type} {parser : Parser Double} {idx : Nat} {place : Place}
variable {parse : Nat → Parsed (JObject Double × Nat)}

section Complete

variable {str rest : List Byte} {ch : Byte}

variable {text digits : List Byte}

theorem nextLine_of_drop (oneLine : newline ∉ text)
    (ahead : str.drop idx = commentText ++ (text ++ newline :: rest))
    (missing : Place → Parsed Nat) :
    ∃ next, nextLine str missing place idx = .ok next ∧ str.drop next = rest := by
  rw [← append_assoc] at ahead
  have free : newline ∉ commentText ++ text := by
    rw [mem_append, not_or]
    exact ⟨by decide, oneLine⟩
  have found := find_of_drop free ahead
  refine ⟨idx + (commentText ++ text).length + 1, ?_, drop_succ_of_drop (drop_add_of_drop ahead)⟩
  rw [nextLine, found]
  exact if_neg (Nat.ne_of_lt (find_some found).2)

theorem compare_comment_of_token (token : Token ch) (ahead : str.drop idx = ch :: rest) :
    compare str idx commentText = false := by
  have same := charAt_of_drop ahead
  exact not_compare_of_charAt (same ▸ token.2.2) (lt_length_of_charAt (same ▸ token.1))

theorem skipLines_skips {more : List Byte} (layout : Layout more) (token : Token ch)
    (oneLine : newline ∉ text) {turns : Nat} (enough : (str.drop idx).length ≤ turns)
    (ahead : str.drop idx = commentText ++ (text ++ newline :: (more ++ ch :: rest)))
    (missing : Place → Parsed Nat) :
    ∃ next, skipLines str missing place turns idx = .ok next ∧ str.drop next = ch :: rest := by
  induction layout generalizing idx text turns with
  | spaces all =>
    obtain ⟨less, rfl⟩ : ∃ less, turns = less + 1 :=
      ⟨turns - 1, by rw [ahead] at enough; simp at enough; omega⟩
    obtain ⟨next, line, behind⟩ := @nextLine_of_drop idx place str _ text oneLine ahead missing
    have onward := skipSpaces_of_drop all behind token.2.1
    refine ⟨skipSpaces str next, ?_, onward⟩
    rw [skipLines, line]
    simp [bind, Except.bind, compare_comment_of_token token onward]
  | comment all oneLine' later ih =>
    obtain ⟨less, rfl⟩ : ∃ less, turns = less + 1 :=
      ⟨turns - 1, by rw [ahead] at enough; simp at enough; omega⟩
    obtain ⟨next, line, behind⟩ := @nextLine_of_drop idx place str _ text oneLine ahead missing
    rw [append_assoc] at behind
    have onward := skipSpaces_of_drop all behind rfl
    simp only [append_assoc, cons_append] at onward
    have shorter : (str.drop (skipSpaces str next)).length ≤ less := by
      rw [ahead] at enough
      rw [onward]
      simp only [length_append, length_cons] at enough ⊢
      omega
    obtain ⟨last, skipped, reached⟩ := ih oneLine' shorter onward
    refine ⟨last, ?_, reached⟩
    rw [skipLines, line]
    have again : compare str (skipSpaces str next) commentText = true := compare_of_drop onward
    simp only [bind, Except.bind, again, if_true]
    exact skipped

theorem getNextToken_skips {lead : List Byte} (layout : Layout lead) (token : Token ch)
    (enough : parser.str.length < parser.turns)
    (ahead : parser.str.drop idx = lead ++ ch :: rest) (place : Place) :
    ∃ next, parser.getNextToken place idx = .ok next ∧ parser.str.drop next = ch :: rest := by
  have inside {start : Nat} {tail : List Byte} {first : Byte}
      (there : parser.str.drop start = first :: tail) : ¬ parser.str.length ≤ start := by
    intro outside
    rw [drop_eq_nil_of_le outside] at there
    cases there
  cases layout with
  | spaces all =>
    have onward := skipSpaces_of_drop all ahead token.2.1
    refine ⟨skipSpaces parser.str idx, ?_, onward⟩
    rw [getNextToken, if_neg (inside onward), skipComment, compare_comment_of_token token onward]
    rfl
  | comment all oneLine later =>
    rw [append_assoc] at ahead
    have onward := skipSpaces_of_drop all ahead rfl
    simp only [append_assoc, cons_append] at onward
    have short : (parser.str.drop (skipSpaces parser.str idx)).length ≤ parser.turns := by
      rw [length_drop]
      omega
    obtain ⟨next, skipped, reached⟩ :=
      skipLines_skips later token oneLine short onward parser.missing
    have comment : compare parser.str (skipSpaces parser.str idx) commentText = true :=
      compare_of_drop onward
    refine ⟨next, ?_, reached⟩
    rw [getNextToken, if_neg (inside onward), skipComment, if_pos comment, skipped]

theorem parse_skips {lead : List Byte} (layout : Layout lead) (token : Token ch)
    (enough : parser.str.length < parser.turns) (ahead : parser.str.drop idx = lead ++ ch :: rest) :
    ∃ start, parser.str.drop start = ch :: rest ∧ parser.getNextToken .value idx = .ok start ∧
      ∀ depth, parser.parse depth idx = parser.parse depth start := by
  obtain ⟨start, skipped, reached⟩ := getNextToken_skips layout token enough ahead .value
  refine ⟨start, reached, skipped, fun depth => ?_⟩
  cases depth with
  | zero => rfl
  | succ depth =>
    rw [parse_ahead token reached, parse, skipped]
    rfl

theorem derives_starts {part : Part} (derives : Derives part text) :
    ∃ lead ch tail, text = lead ++ ch :: tail ∧ Layout lead ∧ Token ch ∧ ch ≠ rightBracket ∧
      ch ≠ rightBrace ∧ (part = .value → lead = []) := by
  have empty : Layout [] := .spaces (by simp)
  have number {digits behind : List Byte} (some : digits ≠ [])
      (all : ∀ ch ∈ digits, isDigit ch = true) : ∃ lead ch tail,
        digits ++ behind = lead ++ ch :: tail ∧ Layout lead ∧ Token ch ∧ ch ≠ rightBracket ∧
          ch ≠ rightBrace ∧ (Part.value = .value → lead = []) := by
    obtain ⟨ch, tail, rfl⟩ := exists_cons_of_ne_nil some
    have digit := all ch mem_cons_self
    refine ⟨[], ch, tail ++ behind, rfl, empty, token_of_isDigit digit, ?_, ?_, fun _ => rfl⟩
    · rintro rfl
      cases digit
    · rintro rfl
      cases digit
  induction derives with
  | int some all => simpa using @number _ [] some all
  | double some all _ _ => exact number some all
  | item layout _ _ ih =>
    obtain ⟨lead, ch, tail, rfl, -, token, bracket, brace, none⟩ := ih
    obtain rfl := none rfl
    exact ⟨_, ch, _, rfl, layout, token, bracket, brace, by rintro ⟨⟩⟩
  | lastItem _ ih | lastEntry _ ih =>
    obtain ⟨lead, ch, tail, rfl, layout, token, bracket, brace, -⟩ := ih
    exact ⟨lead, ch, tail, rfl, layout, token, bracket, brace, by rintro ⟨⟩⟩
  | moreItems _ _ ih | moreEntries _ _ ih =>
    obtain ⟨lead, ch, tail, rfl, layout, token, bracket, brace, -⟩ := ih
    exact ⟨lead, ch, _, append_assoc _ _ _, layout, token, bracket, brace, by rintro ⟨⟩⟩
  | entry layout _ _ _ =>
    exact ⟨_, quote, _, rfl, layout, by decide, by decide, by decide, by rintro ⟨⟩⟩
  | _ => exact ⟨[], _, _, rfl, empty, by decide, by decide, by decide, fun _ => rfl⟩

theorem delimited_layout {layout : List Byte} (skipped : Layout layout)
    (delimited : Delimited rest) : Delimited (layout ++ rest) := by
  have spaces {text behind : List Byte} (all : ∀ ch ∈ text, isSpace ch = true)
      (later : Delimited behind) : Delimited (text ++ behind) := by
    cases text with
    | nil => exact later
    | cons ch text =>
      have space := all ch mem_cons_self
      constructor
      · change isDigit ch = false
        by_contra digit
        rw [isSpace_of_isDigit (Bool.eq_true_of_not_eq_false digit)] at space
        cases space
      · change ch ≠ dot
        rintro rfl
        cases space
  cases skipped with
  | spaces all => exact spaces all delimited
  | comment all _ _ =>
    rw [append_assoc]
    exact spaces all ⟨rfl, (by decide : (47 : Byte) ≠ dot)⟩

theorem ended_of_delimited (delimited : Delimited rest) : Ended text rest :=
  fun _ => ⟨delimited.1, .inr delimited.2⟩

def Separator (ch : Byte) : Prop := Token ch ∧ isDigit ch = false ∧ ch ≠ dot

instance (ch : Byte) : Decidable (Separator ch) := inferInstanceAs (Decidable (_ ∧ _))

/-- The parser gets behind this part of the grammar wherever it stands. -/
def Passes (parser : Parser Double) : Part → List Byte → Prop
  | .value, text => ∀ depth idx rest, text.length < depth →
      parser.str.drop idx = text ++ rest → Ended text rest →
      ∃ object next, parser.parse depth idx = .ok (object, next) ∧ parser.str.drop next = rest
  | .item, text => ∀ depth idx ch rest, text.length < depth → Separator ch →
      parser.str.drop idx = text ++ ch :: rest →
      ∃ object next last, parser.parse depth idx = .ok (object, next) ∧
        parser.getNextToken .separator next = .ok last ∧ parser.str.drop last = ch :: rest
  | .items, text => ∀ depth turns items idx rest, text.length < depth → text.length < turns →
      parser.str.drop idx = text ++ rightBracket :: rest →
      ∃ object next, parser.listLoop (parser.parse depth) turns items idx = .ok (object, next) ∧
        parser.str.drop next = rest
  | .entry, text => ∀ depth idx ch rest, text.length < depth → Separator ch →
      parser.str.drop idx = text ++ ch :: rest →
      ∃ key object next last, (∀ turns entries,
        parser.dictLoop (parser.parse depth) (turns + 1) entries idx =
          parser.separated rightBrace .dictSeparator (.dict (insertEntry key object entries))
            (parser.dictLoop (parser.parse depth) turns (insertEntry key object entries)) next) ∧
        parser.getNextToken .separator next = .ok last ∧ parser.str.drop last = ch :: rest
  | .entries, text => ∀ depth turns entries idx rest, text.length < depth → text.length < turns →
      parser.str.drop idx = text ++ rightBrace :: rest →
      ∃ object next, parser.dictLoop (parser.parse depth) turns entries idx = .ok (object, next) ∧
        parser.str.drop next = rest

theorem isDigit_getLastD (front : List Byte) (some : digits ≠ [])
    (all : ∀ ch ∈ digits, isDigit ch = true) : isDigit ((front ++ digits).getLastD 0) = true := by
  rw [← dropLast_append_getLast some, ← append_assoc, getLastD_concat]
  exact all _ (getLast_mem some)

theorem parse_digits (some : digits ≠ []) (all : ∀ ch ∈ digits, isDigit ch = true)
    (ahead : parser.str.drop idx = digits ++ rest) (depth : Nat) :
    parser.parse (depth + 1) idx = parser.parseNumber idx := by
  obtain ⟨ch, tail, rfl⟩ := exists_cons_of_ne_nil some
  have digit := all ch mem_cons_self
  rw [parse_ahead (token_of_isDigit digit) ahead, parseToken_of_isDigit]
  rwa [charAt_of_drop ahead]

theorem passes_int (some : digits ≠ []) (all : ∀ ch ∈ digits, isDigit ch = true) :
    parser.Passes .value digits := by
  intro depth idx rest deep ahead ended
  obtain ⟨level, rfl⟩ : ∃ level, depth = level + 1 := ⟨depth - 1, by omega⟩
  obtain ⟨stops, point⟩ := ended (isDigit_getLastD [] some all)
  obtain ⟨first, -, skipped⟩ := digits_of_drop some all ahead stops
  have behind := drop_add_of_drop ahead
  have noDot : dot ∉ digits := fun member => absurd (all dot member) (by decide)
  have other : charAt parser.str (idx + digits.length) ≠ dot := by
    rw [charAt_eq_headD, behind]
    exact point.resolve_left noDot
  rw [parse_digits some all ahead, parseNumber, skipped, if_pos first, if_pos other]
  exact ⟨_, _, rfl, behind⟩

theorem passes_double {fraction : List Byte} (some : digits ≠ [])
    (all : ∀ ch ∈ digits, isDigit ch = true) (someFraction : fraction ≠ [])
    (allFraction : ∀ ch ∈ fraction, isDigit ch = true) :
    parser.Passes .value (digits ++ dot :: fraction) := by
  intro depth idx rest deep ahead ended
  obtain ⟨level, rfl⟩ : ∃ level, depth = level + 1 := ⟨depth - 1, by omega⟩
  have last : isDigit ((digits ++ dot :: fraction).getLastD 0) = true := by
    rw [append_cons]
    exact isDigit_getLastD _ someFraction allFraction
  rw [append_assoc, cons_append] at ahead
  have behind := drop_add_of_drop ahead
  obtain ⟨first, -, skipped⟩ := digits_of_drop some all ahead rfl
  have fractionAhead := drop_succ_of_drop behind
  obtain ⟨second, -, skippedOn⟩ :=
    digits_of_drop someFraction allFraction fractionAhead (ended last).1
  have point : ¬ charAt parser.str (idx + digits.length) ≠ dot :=
    not_not.mpr (charAt_of_drop behind)
  rw [parse_digits some all ahead, parseNumber, skipped, if_pos first, if_neg point,
    if_pos second, skippedOn]
  exact ⟨_, _, rfl, drop_add_of_drop fractionAhead⟩

theorem passes_string (enough : parser.str.length < parser.turns) (raw : RawText text) :
    parser.Passes .value (quote :: (text ++ [quote])) := by
  intro depth idx rest deep ahead _
  obtain ⟨level, rfl⟩ : ∃ level, depth = level + 1 := ⟨depth - 1, by omega⟩
  have quoted : parser.str.drop idx = quote :: (text ++ quote :: rest) := by
    rw [ahead]
    simp
  rw [parse_string enough raw quoted]
  exact ⟨_, _, rfl, drop_succ_of_drop (drop_add_of_drop (drop_succ_of_drop quoted))⟩

theorem passes_lastItem {item : List Byte} (passes : parser.Passes .item item) :
    parser.Passes .items item := by
  intro depth turns items idx rest deep left ahead
  obtain ⟨less, rfl⟩ : ∃ less, turns = less + 1 := ⟨turns - 1, by omega⟩
  obtain ⟨object, next, last, read, token, there⟩ :=
    passes depth idx rightBracket rest deep (by decide) ahead
  have closed : parser.separated rightBracket .listSeparator (.list (items ++ [object]))
      (parser.listLoop (parser.parse depth) less (items ++ [object])) next =
        .ok (.list (items ++ [object]), last + 1) := separated_close token there
  rw [listLoop_succ, read]
  exact ⟨_, _, closed, drop_succ_of_drop there⟩

theorem passes_moreItems {item members : List Byte} (passes : parser.Passes .item item)
    (others : parser.Passes .items members) : parser.Passes .items (item ++ comma :: members) := by
  intro depth turns items idx rest deep left ahead
  obtain ⟨less, rfl⟩ : ∃ less, turns = less + 1 := ⟨turns - 1, by omega⟩
  simp only [append_assoc, cons_append] at ahead
  simp only [length_append, length_cons] at deep left
  obtain ⟨object, next, last, read, token, there⟩ :=
    passes depth idx comma _ (by omega) (by decide) ahead
  obtain ⟨result, reached, ran, behind⟩ := others depth less (items ++ [object]) (last + 1) rest
    (by omega) (by omega) (drop_succ_of_drop there)
  have onward : parser.separated rightBracket .listSeparator (.list (items ++ [object]))
      (parser.listLoop (parser.parse depth) less (items ++ [object])) next =
        .ok (result, reached) := (separated_comma token there (by decide)).trans ran
  rw [listLoop_succ, read]
  exact ⟨_, _, onward, behind⟩

theorem passes_lastEntry {entry : List Byte} (passes : parser.Passes .entry entry) :
    parser.Passes .entries entry := by
  intro depth turns entries idx rest deep left ahead
  obtain ⟨less, rfl⟩ : ∃ less, turns = less + 1 := ⟨turns - 1, by omega⟩
  obtain ⟨key, object, next, last, read, token, there⟩ :=
    passes depth idx rightBrace rest deep (by decide) ahead
  rw [read, separated_close token there]
  exact ⟨_, _, rfl, drop_succ_of_drop there⟩

theorem passes_moreEntries {entry members : List Byte} (passes : parser.Passes .entry entry)
    (others : parser.Passes .entries members) :
    parser.Passes .entries (entry ++ comma :: members) := by
  intro depth turns entries idx rest deep left ahead
  obtain ⟨less, rfl⟩ : ∃ less, turns = less + 1 := ⟨turns - 1, by omega⟩
  simp only [append_assoc, cons_append] at ahead
  simp only [length_append, length_cons] at deep left
  obtain ⟨key, object, next, last, read, token, there⟩ :=
    passes depth idx comma _ (by omega) (by decide) ahead
  rw [read, separated_comma token there (by decide)]
  exact others depth less _ (last + 1) rest (by omega) (by omega) (drop_succ_of_drop there)

section Brackets

variable {close : Byte} {object : JObject Double} {members : List Byte}
  {loop : Nat → Parsed (JObject Double × Nat)}

variable (enough : parser.str.length < parser.turns)

include enough

theorem opened_space {space : List Byte} (layout : Layout space) (token : Token close)
    (ahead : parser.str.drop (idx + 1) = space ++ close :: rest) :
    ∃ object' next, parser.opened close object loop idx = .ok (object', next) ∧
      parser.str.drop next = rest := by
  obtain ⟨next, skipped, reached⟩ := getNextToken_skips layout token enough ahead .value
  exact ⟨object, next + 1, opened_empty skipped reached, drop_succ_of_drop reached⟩

theorem opened_members {part : Part} (derives : Derives part members)
    (other : close = rightBracket ∨ close = rightBrace)
    (ahead : parser.str.drop (idx + 1) = members ++ rest)
    (starts : ∀ start, (∀ depth, parser.parse depth (idx + 1) = parser.parse depth start) →
      loop start = loop (idx + 1)) : parser.opened close object loop idx = loop (idx + 1) := by
  obtain ⟨lead, ch, tail, rfl, layout, token, bracket, brace, -⟩ := derives_starts derives
  rw [append_assoc, cons_append] at ahead
  obtain ⟨start, reached, skipped, same⟩ := parse_skips layout token enough ahead
  have notClosed : ch ≠ close := by
    rcases other with rfl | rfl
    · exact bracket
    · exact brace
  rw [opened_loop skipped reached notClosed, starts start same]

theorem passes_list (derives : Derives .items members) (passes : parser.Passes .items members) :
    parser.Passes .value (leftBracket :: (members ++ [rightBracket])) := by
  intro depth idx rest deep ahead _
  obtain ⟨level, rfl⟩ : ∃ level, depth = level + 1 := ⟨depth - 1, by omega⟩
  simp only [length_append, length_cons] at deep
  simp only [cons_append, append_assoc, nil_append] at ahead
  have inner := drop_succ_of_drop ahead
  have covered := length_of_drop inner
  rw [parse_list ahead, opened_members enough derives (.inl rfl) inner]
  · exact passes level parser.turns [] (idx + 1) rest (by omega) (by omega) inner
  · intro start same
    cases parser.turns with
    | zero => rfl
    | succ turns => rw [listLoop_succ, listLoop_succ, same]

theorem passes_dict (derives : Derives .entries members) (passes : parser.Passes .entries members) :
    parser.Passes .value (leftBrace :: (members ++ [rightBrace])) := by
  intro depth idx rest deep ahead _
  obtain ⟨level, rfl⟩ : ∃ level, depth = level + 1 := ⟨depth - 1, by omega⟩
  simp only [length_append, length_cons] at deep
  simp only [cons_append, append_assoc, nil_append] at ahead
  have inner := drop_succ_of_drop ahead
  have covered := length_of_drop inner
  rw [parse_dict ahead, opened_members enough derives (.inr rfl) inner]
  · exact passes level parser.turns [] (idx + 1) rest (by omega) (by omega) inner
  · intro start same
    cases parser.turns with
    | zero => rfl
    | succ turns => rw [dictLoop_succ, dictLoop_succ, same]

theorem passes_item {before value after : List Byte} (layout : Layout before)
    (derives : Derives .value value) (layoutAfter : Layout after)
    (passes : parser.Passes .value value) : parser.Passes .item (before ++ (value ++ after)) := by
  intro depth idx ch rest deep separator ahead
  obtain ⟨lead, first, tail, starts, -, firstToken, -, -, none⟩ := derives_starts derives
  rw [none rfl, nil_append] at starts
  simp only [append_assoc] at ahead
  simp only [length_append] at deep
  have front : parser.str.drop idx = before ++ first :: (tail ++ (after ++ ch :: rest)) := by
    rw [ahead, starts]
    rfl
  obtain ⟨start, reached, -, same⟩ := parse_skips layout firstToken enough front
  have valueAhead : parser.str.drop start = value ++ (after ++ ch :: rest) := by
    rw [reached, starts]
    rfl
  obtain ⟨object, next, read, behind⟩ := passes depth start _ (by omega) valueAhead
    (ended_of_delimited (delimited_layout layoutAfter separator.2))
  obtain ⟨last, skipped, onward⟩ :=
    getNextToken_skips layoutAfter separator.1 enough behind .separator
  exact ⟨object, next, last, (same depth).trans read, skipped, onward⟩

theorem passes_entry {before key middle item : List Byte} (layout : Layout before)
    (raw : RawText key) (layoutKey : Layout middle) (passes : parser.Passes .item item) :
    parser.Passes .entry (before ++ quote :: (key ++ quote :: (middle ++ colon :: item))) := by
  intro depth idx ch rest deep separator ahead
  simp only [append_assoc, cons_append] at ahead
  simp only [length_append, length_cons] at deep
  obtain ⟨level, rfl⟩ : ∃ level, depth = level + 1 := ⟨depth - 1, by omega⟩
  obtain ⟨start, reached, -, same⟩ := parse_skips layout (by decide) enough ahead
  have name := (same (level + 1)).trans (parse_string enough raw reached level)
  have behind := drop_succ_of_drop (drop_add_of_drop (drop_succ_of_drop reached))
  obtain ⟨next, skipped, onward⟩ :=
    getNextToken_skips layoutKey (by decide) enough behind .separator
  obtain ⟨object, valueEnd, last, read, token, there⟩ :=
    passes (level + 1) (next + 1) ch rest (by omega) separator (drop_succ_of_drop onward)
  refine ⟨key, object, valueEnd, last, fun turns entries => ?_, token, there⟩
  rw [dictLoop_entry name skipped onward, read]
  rfl

theorem passes_of_derives {part : Part} (derives : Derives part text) :
    parser.Passes part text := by
  have keyword {word : List Byte} {object : JObject Double}
      (read : ∀ depth idx rest, parser.str.drop idx = word ++ rest →
        parser.parse (depth + 1) idx = .ok (object, idx + word.length)) :
      parser.Passes .value word := by
    intro depth idx rest deep ahead _
    obtain ⟨level, rfl⟩ : ∃ level, depth = level + 1 := ⟨depth - 1, by omega⟩
    exact ⟨object, _, read level idx rest ahead, drop_add_of_drop ahead⟩
  have space {bracket close : Byte} {object : JObject Double} {inner : List Byte}
      {loop : Nat → Nat → Parsed (JObject Double × Nat)} (token : Token close)
      (layout : Layout inner) (read : ∀ depth idx rest, parser.str.drop idx = bracket :: rest →
        parser.parse (depth + 1) idx = parser.opened close object (loop depth) idx) :
      parser.Passes .value (bracket :: (inner ++ [close])) := by
    intro depth idx rest deep ahead _
    obtain ⟨level, rfl⟩ : ∃ level, depth = level + 1 := ⟨depth - 1, by omega⟩
    simp only [cons_append, append_assoc, nil_append] at ahead
    rw [read level idx _ ahead]
    exact opened_space enough layout token (drop_succ_of_drop ahead)
  induction derives with
  | null => exact keyword fun depth _ _ ahead => parse_null ahead depth
  | true => exact keyword fun depth _ _ ahead => parse_true ahead depth
  | false => exact keyword fun depth _ _ ahead => parse_false ahead depth
  | int some all => exact passes_int some all
  | double some all someFraction allFraction =>
    exact passes_double some all someFraction allFraction
  | string raw => exact passes_string enough raw
  | emptyList layout => exact space (by decide) layout fun depth _ _ ahead => parse_list ahead depth
  | list derives ih => exact passes_list enough derives ih
  | emptyDict layout => exact space (by decide) layout fun depth _ _ ahead => parse_dict ahead depth
  | dict derives ih => exact passes_dict enough derives ih
  | item layout derives layoutAfter ih => exact passes_item enough layout derives layoutAfter ih
  | lastItem _ ih => exact passes_lastItem ih
  | moreItems _ _ ih others => exact passes_moreItems ih others
  | entry layout raw layoutKey _ ih => exact passes_entry enough layout raw layoutKey ih
  | lastEntry _ ih => exact passes_lastEntry ih
  | moreEntries _ _ ih others => exact passes_moreEntries ih others

end Brackets

end Complete

section FromString

variable {content text rest : List Byte}

theorem derives_ends (derives : Derives .value text) :
    ∃ front ch, text = front ++ [ch] ∧ isSpace ch = false := by
  have number (front : List Byte) {digits : List Byte} (some : digits ≠ [])
      (all : ∀ ch ∈ digits, isDigit ch = true) :
      ∃ init ch, front ++ digits = init ++ [ch] ∧ isSpace ch = false := by
    refine ⟨front ++ digits.dropLast, digits.getLast some, ?_, ?_⟩
    · rw [append_assoc, dropLast_append_getLast]
    · exact isSpace_of_isDigit (all _ (getLast_mem some))
  cases derives with
  | null => exact ⟨[110, 117, 108], 108, rfl, rfl⟩
  | true => exact ⟨[116, 114, 117], 101, rfl, rfl⟩
  | false => exact ⟨[102, 97, 108, 115], 101, rfl, rfl⟩
  | int some all => exact number [] some all
  | double _ _ someFraction allFraction =>
    rw [append_cons]
    exact number _ someFraction allFraction
  | string => exact ⟨quote :: _, quote, rfl, rfl⟩
  | emptyList | list => exact ⟨leftBracket :: _, rightBracket, rfl, rfl⟩
  | emptyDict | dict => exact ⟨leftBrace :: _, rightBrace, rfl, rfl⟩

theorem trimRight_append {front : List Byte} {ch : Byte} (other : isSpace ch = false)
    (rest : List Byte) : trimRight (front ++ [ch] ++ rest) = front ++ [ch] ++ trimRight rest := by
  induction rest using List.reverseRecOn with
  | nil => simp [trimRight, other]
  | append_singleton rest last ih =>
    rw [← append_assoc, trimRight, trimRight]
    by_cases space : isSpace last = true
    · rw [rdropWhile_concat_pos _ _ _ space, rdropWhile_concat_pos _ _ _ space]
      exact ih
    · rw [rdropWhile_concat_neg _ _ _ space, rdropWhile_concat_neg _ _ _ space, append_assoc]

theorem delimited_nil : Delimited [] := ⟨rfl, (by decide : (0 : Byte) ≠ dot)⟩

theorem ended_trimRight (ended : Ended text rest) : Ended text (trimRight rest) := by
  obtain ⟨spaces, split⟩ : trimRight rest <+: rest := rdropWhile_prefix isSpace rest
  cases trimmed : trimRight rest with
  | nil => exact ended_of_delimited delimited_nil
  | cons ch behind =>
    rw [trimmed] at split
    rw [← split] at ended
    exact ended

theorem ended_append_spaces {spaces : List Byte} (all : ∀ ch ∈ spaces, isSpace ch = true)
    (ended : Ended text rest) : Ended text (rest ++ spaces) := by
  cases rest with
  | nil =>
    have delimited := delimited_layout (.spaces all) delimited_nil
    rw [append_nil] at delimited
    exact ended_of_delimited delimited
  | cons ch behind => exact ended

theorem delimited_trailing (trailing : Trailing rest) : Delimited rest := by
  cases trailing with
  | layout layout =>
    rw [← append_nil rest]
    exact delimited_layout layout delimited_nil
  | comment layout _ => exact delimited_layout layout ⟨rfl, (by decide : (47 : Byte) ≠ dot)⟩

theorem trimRight_derives (derives : Derives .value text) (lead rest : List Byte) :
    trimRight (lead ++ (text ++ rest)) = lead ++ (text ++ trimRight rest) := by
  obtain ⟨front, last, rfl, other⟩ := derives_ends derives
  simpa using @trimRight_append (lead ++ front) last other rest

theorem parse_of_begins (begins : Begins content rest) (strtof64 : List Byte → Double)
    (missing : Place → Parsed Nat) {fuel : Nat} (enough : (trimRight content).length < fuel) :
    ∃ object next,
      (Parser.mk (trimRight content) strtof64 missing fuel).parse fuel 0 = .ok (object, next) ∧
        (trimRight content).drop next = trimRight rest := by
  obtain ⟨lead, text, rfl, layout, derives, ended⟩ := begins
  obtain ⟨_, ch, tail, starts, -, token, -, -, none⟩ := derives_starts derives
  rw [none rfl, nil_append] at starts
  rw [trimRight_derives derives] at enough ⊢
  obtain ⟨start, reached, -, same⟩ := @parse_skips Double
    ⟨lead ++ (text ++ trimRight rest), strtof64, missing, fuel⟩ 0 (tail ++ trimRight rest) ch lead
    layout token enough (by rw [starts]; rfl)
  have short : text.length < fuel := by
    simp only [length_append] at enough
    omega
  rw [same]
  exact passes_of_derives enough derives fuel start _ short (by rw [reached, starts]; rfl)
    (ended_trimRight ended)

theorem begins_unique {other : List Byte} (begins : Begins content rest)
    (begun : Begins content other) : rest = other := by
  obtain ⟨object, next, read, behind⟩ := parse_of_begins begins (fun _ => ()) reject
    (Nat.lt_succ_self _)
  obtain ⟨_, _, readOther, behindOther⟩ := parse_of_begins begun (fun _ => ()) reject
    (Nat.lt_succ_self _)
  rw [read] at readOther
  cases readOther
  obtain ⟨lead, text, rfl, -, derives, -⟩ := begins
  obtain ⟨leadOther, textOther, same, -, derivesOther, -⟩ := begun
  have trimmed := congrArg trimRight same
  rw [trimRight_derives derives, trimRight_derives derivesOther, behind.symm.trans behindOther,
    ← append_assoc, ← append_assoc] at trimmed
  have front : lead ++ text = leadOther ++ textOther := append_cancel_right trimmed
  rw [← append_assoc, ← append_assoc, front] at same
  exact append_cancel_left same

section

variable {fuel : Nat} {object : JObject Double} {strtof64 : List Byte → Double}
  (returned : fromString strtof64 rewind fuel content = .ok object)

include returned

theorem reads_of_fromString :
    ∃ turns next, (checked (trimRight content) strtof64 turns).ReadsValue 0 (object, next) := by
  have accepted : fromString strtof64 reject ((trimRight content).length + 1) content ≠
      .error (.thrown (.invalidComment .value)) := by
    intro rejected
    rw [fromString_unfinished strtof64 rejected] at returned
    cases returned
  obtain ⟨more, settled⟩ := settled_of_accepted strtof64 accepted
  have same := Approximates.eq_of_ended
    (parse_approximates (Nat.le_max_left fuel more) (Nat.le_max_left fuel _) 0)
    (parse_approximates (Nat.le_max_right fuel more) (Nat.le_max_right fuel _) 0)
    settled.ne_unfinished
  rw [fromString] at returned
  rcases same with unfinished | same
  · rw [unfinished] at returned
    cases returned
  · cases rewound : (rewinding (trimRight content) strtof64 more).parse
        ((trimRight content).length + 1) 0 with
    | ok result =>
      rw [same, rewound] at returned
      cases returned
      exact ⟨_, _, (checked_ends strtof64 content).of_ok (settled.of_ok rewound)⟩
    | error stop =>
      rw [same, rewound] at returned
      cases returned

theorem fromString_wellFormed : object.WellFormed := by
  obtain ⟨_, _, _, -, _, reads⟩ := reads_of_fromString returned
  exact reads.wellFormed

theorem begins_of_fromString : ∃ rest, Begins content rest := by
  obtain ⟨turns, next, start, ⟨lead, layout, skipped⟩, text, reads⟩ := reads_of_fromString returned
  have split : trimRight content ++ content.rtakeWhile isSpace = content :=
    rdropWhile_append_rtakeWhile
  have spaces : ∀ ch ∈ content.rtakeWhile isSpace, isSpace ch = true :=
    fun ch member => mem_rtakeWhile_imp member
  refine ⟨_, lead, text, ?_, layout, reads.derives, ended_append_spaces spaces reads.ended⟩
  have whole : trimRight content = lead ++ (text ++ (trimRight content).drop next) :=
    (skipped.trans reads.spans).ahead.trans (append_assoc _ _ _)
  nth_rewrite 1 [← split, whole]
  simp only [append_assoc]

end

/-- The parser accepts the texts that begin with a value. That nothing but layout follows it is what
it takes for them to be documents. -/
theorem acceptance_iff (strtof64 : List Byte → Double) (content : List Byte) :
    ((∃ fuel object, fromString strtof64 rewind fuel content = .ok object) ↔
      ∃ rest, Begins content rest) ∧
    (((∃ fuel object, fromString strtof64 rewind fuel content = .ok object) → Document content) ↔
      ∀ rest, Begins content rest → Trailing rest) := by
  have accepts (rest : List Byte) (begins : Begins content rest) :
      ∃ fuel object, fromString strtof64 rewind fuel content = .ok object := by
    obtain ⟨object, next, read, -⟩ := parse_of_begins begins strtof64 rewind (Nat.lt_succ_self _)
    refine ⟨(trimRight content).length + 1, object, ?_⟩
    rw [fromString, read]
    rfl
  refine ⟨⟨?_, ?_⟩, ?_, ?_⟩
  · rintro ⟨fuel, object, returned⟩
    exact begins_of_fromString returned
  · rintro ⟨rest, begins⟩
    exact accepts rest begins
  · intro claim rest begins
    obtain ⟨lead, text, behind, split, layout, derives, trailing⟩ := claim (accepts rest begins)
    have other : Begins content behind :=
      ⟨lead, text, split, layout, derives, ended_of_delimited (delimited_trailing trailing)⟩
    rwa [begins_unique begins other]
  · rintro only ⟨fuel, object, returned⟩
    obtain ⟨rest, begins⟩ := begins_of_fromString returned
    obtain ⟨lead, text, split, layout, derives, -⟩ := id begins
    exact ⟨lead, text, rest, split, layout, derives, only rest begins⟩

theorem trailing_cases (trailing : Trailing rest) :
    (∀ ch ∈ rest, isSpace ch = true) ∨ (47 : Byte) ∈ rest := by
  cases trailing with
  | layout layout =>
    cases layout with
    | spaces all => exact .inl all
    | comment => exact .inr (by simp)
  | comment => exact .inr (by simp)

/-- Behind `null` stands another word. -/
theorem null_with_rest_accepted :
    fromString (fun _ => ()) rewind 7 (nullText ++ [32, 120]) = .ok .null ∧
      ¬ Document (nullText ++ [32, 120]) := by
  refine ⟨rfl, ?_⟩
  intro ⟨lead, text, behind, split, layout, derives, trailing⟩
  have begins : Begins (nullText ++ [32, 120]) [32, 120] :=
    ⟨[], nullText, rfl, .spaces (by simp), .null, ended_of_last rfl⟩
  have other : Begins (nullText ++ [32, 120]) behind :=
    ⟨lead, text, split, layout, derives, ended_of_delimited (delimited_trailing trailing)⟩
  rw [← begins_unique begins other] at trailing
  rcases trailing_cases trailing with spaces | slash
  · exact absurd (spaces 120 (by simp)) (by decide)
  · exact absurd slash (by decide)

end FromString

end Parser

end Bitdb.Json
