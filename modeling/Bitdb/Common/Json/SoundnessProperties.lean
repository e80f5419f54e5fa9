import Bitdb.Common.Json.ParserProperties

/-! What the parser reads: a value of the grammar with layout in front. -/

set_option autoImplicit false

namespace Bitdb.Json

open Base (Ends)
open List

inductive Layout : List Byte → Prop where
  | spaces {text : List Byte} (all : ∀ ch ∈ text, isSpace ch = true) : Layout text
  | comment {spaces text more : List Byte} (all : ∀ ch ∈ spaces, isSpace ch = true)
      (oneLine : newline ∉ text) (later : Layout more) :
      Layout (spaces ++ (commentText ++ (text ++ newline :: more)))

/-- What may stand behind a value. The last comment needs no end of its line. -/
inductive Trailing : List Byte → Prop where
  | layout {text : List Byte} (layout : Layout text) : Trailing text
  | comment {text more : List Byte} (layout : Layout text) (oneLine : newline ∉ more) :
      Trailing (text ++ (commentText ++ more))

inductive Part where
  | value
  | item
  | items
  | entry
  | entries
  deriving DecidableEq, Repr

inductive Derives : Part → List Byte → Prop where
  | null : Derives .value nullText
  | true : Derives .value trueText
  | false : Derives .value falseText
  | int {digits : List Byte} (some : digits ≠ []) (all : ∀ ch ∈ digits, isDigit ch = true) :
      Derives .value digits
  | double {digits fraction : List Byte} (some : digits ≠ [])
      (all : ∀ ch ∈ digits, isDigit ch = true) (someFraction : fraction ≠ [])
      (allFraction : ∀ ch ∈ fraction, isDigit ch = true) :
      Derives .value (digits ++ dot :: fraction)
  | string {text : List Byte} (raw : RawText text) : Derives .value (quote :: (text ++ [quote]))
  | emptyList {space : List Byte} (layout : Layout space) :
      Derives .value (leftBracket :: (space ++ [rightBracket]))
  | list {items : List Byte} (derives : Derives .items items) :
      Derives .value (leftBracket :: (items ++ [rightBracket]))
  | emptyDict {space : List Byte} (layout : Layout space) :
      Derives .value (leftBrace :: (space ++ [rightBrace]))
  | dict {entries : List Byte} (derives : Derives .entries entries) :
      Derives .value (leftBrace :: (entries ++ [rightBrace]))
  | item {before value after : List Byte} (layout : Layout before) (derives : Derives .value value)
      (layoutAfter : Layout after) : Derives .item (before ++ (value ++ after))
  | lastItem {item : List Byte} (derives : Derives .item item) : Derives .items item
  | moreItems {item items : List Byte} (derives : Derives .item item)
      (others : Derives .items items) : Derives .items (item ++ comma :: items)
  | entry {before key middle item : List Byte} (layout : Layout before) (raw : RawText key)
      (layoutKey : Layout middle) (derives : Derives .item item) :
      Derives .entry (before ++ quote :: (key ++ quote :: (middle ++ colon :: item)))
  | lastEntry {entry : List Byte} (derives : Derives .entry entry) : Derives .entries entry
  | moreEntries {entry entries : List Byte} (derives : Derives .entry entry)
      (others : Derives .entries entries) : Derives .entries (entry ++ comma :: entries)

/-- A number does not go on behind its end. -/
def Ended (text rest : List Byte) : Prop :=
  isDigit (text.getLastD 0) = true →
    isDigit (rest.headD 0) = false ∧ (dot ∈ text ∨ rest.headD 0 ≠ dot)

/-- The content begins with a value, and this is left behind it. -/
def Begins (content rest : List Byte) : Prop :=
  ∃ lead text, content = lead ++ (text ++ rest) ∧ Layout lead ∧ Derives .value text ∧
    Ended text rest

def Document (content : List Byte) : Prop :=
  ∃ lead text rest, content = lead ++ (text ++ rest) ∧ Layout lead ∧ Derives .value text ∧
    Trailing rest

section Entries

variable {α : Type} {key : List Byte} {value : α} {entries : List (List Byte × α)}

theorem mem_keys_insertEntry {other : List Byte}
    (member : other ∈ (insertEntry key value entries).map Prod.fst) :
    other = key ∨ other ∈ entries.map Prod.fst := by
  induction entries with
  | nil => exact .inl (mem_singleton.mp member)
  | cons entry entries ih =>
    rw [insertEntry] at member
    split at member
    · exact mem_cons.mp member
    · split at member
      · exact (mem_cons.mp member).imp_right (mem_cons_of_mem _)
      · rcases mem_cons.mp member with rfl | later
        · exact .inr mem_cons_self
        · exact (ih later).imp_right (mem_cons_of_mem _)

theorem pairwise_insertEntry (sorted : (entries.map Prod.fst).Pairwise (· < ·)) :
    ((insertEntry key value entries).map Prod.fst).Pairwise (· < ·) := by
  induction entries with
  | nil => exact pairwise_singleton _ _
  | cons entry entries ih =>
    obtain ⟨least, later⟩ := pairwise_cons.mp sorted
    rw [insertEntry]
    split
    next before =>
      refine pairwise_cons.mpr ⟨fun other member => ?_, sorted⟩
      rcases mem_cons.mp member with rfl | behind
      · exact before
      · exact List.lt_trans before (least other behind)
    next notBefore =>
      split
      next same => exact pairwise_cons.mpr ⟨same ▸ least, later⟩
      next different =>
        have after : entry.1 < key := by
          rcases Std.lt_trichotomy key entry.1 with before | same | after
          · exact absurd before notBefore
          · exact absurd same different
          · exact after
        refine pairwise_cons.mpr ⟨fun other member => ?_, ih later⟩
        rcases mem_keys_insertEntry member with rfl | behind
        · exact after
        · exact least other behind

end Entries

namespace JObject

variable {Double : Type}

theorem ItemsWellFormed.concat {items : List (JObject Double)} {item : JObject Double}
    (itemsWellFormed : ItemsWellFormed items) (wellFormed : item.WellFormed) :
    ItemsWellFormed (items ++ [item]) := by
  induction items with
  | nil => exact ⟨wellFormed, trivial⟩
  | cons first items ih => exact ⟨itemsWellFormed.1, ih itemsWellFormed.2⟩

theorem EntriesWellFormed.insertEntry {entries : List (List Byte × JObject Double)}
    {value : JObject Double} (entriesWellFormed : EntriesWellFormed entries)
    (wellFormed : value.WellFormed) (key : List Byte) :
    EntriesWellFormed (insertEntry key value entries) := by
  induction entries with
  | nil => exact ⟨wellFormed, trivial⟩
  | cons entry entries ih =>
    rw [Json.insertEntry]
    split
    · exact ⟨wellFormed, entriesWellFormed⟩
    · split
      · exact ⟨wellFormed, entriesWellFormed.2⟩
      · exact ⟨entriesWellFormed.1, ih entriesWellFormed.2⟩

end JObject

section Scanning

variable {str text more : List Byte} {idx middle next : Nat}

structure Spans (str : List Byte) (idx next : Nat) (text : List Byte) : Prop where
  ahead : str.drop idx = text ++ str.drop next
  within : next ≤ str.length

theorem Spans.next_eq (spans : Spans str idx next text) (inside : idx ≤ str.length) :
    next = idx + text.length := by
  have lengths := congrArg List.length spans.ahead
  have within := spans.within
  rw [length_append, length_drop, length_drop] at lengths
  omega

theorem Spans.trans (spans : Spans str idx middle text) (later : Spans str middle next more) :
    Spans str idx next (text ++ more) := by
  refine ⟨?_, later.within⟩
  rw [spans.ahead, later.ahead, append_assoc]

theorem spans_self (inside : idx ≤ str.length) : Spans str idx idx [] := ⟨rfl, inside⟩

theorem spans_skipWhile (test : Byte → Bool) (inside : idx ≤ str.length) :
    Spans str idx (skipWhile str test idx) ((str.drop idx).takeWhile test) := by
  refine ⟨?_, skipWhile_le test inside⟩
  have left : ((str.drop idx).takeWhile test ++ (str.drop idx).dropWhile test).drop
      ((str.drop idx).takeWhile test).length = (str.drop idx).dropWhile test := drop_left
  rw [takeWhile_append_dropWhile, drop_drop] at left
  rw [skipWhile, left, takeWhile_append_dropWhile]

theorem spans_compare (same : compare str idx text = true) (some : text ≠ []) :
    Spans str idx (idx + text.length) text := by
  refine ⟨?_, compare_le same some⟩
  have taken : (str.drop idx).take text.length = text := of_decide_eq_true same
  rw [← drop_drop]
  nth_rewrite 1 [← take_append_drop text.length (str.drop idx)]
  rw [taken]

theorem spans_charAt {ch : Byte} (same : charAt str idx = ch) (some : ch ≠ 0) :
    Spans str idx (idx + 1) [ch] := by
  have inside : idx < str.length := lt_length_of_charAt (same ▸ some)
  refine ⟨?_, inside⟩
  rw [drop_eq_getElem_cons inside, ← same, charAt, getD_eq_getElem _ _ inside]
  rfl

theorem spans_find {ch : Byte} {pos : Nat} (found : find str ch idx = some pos) :
    ∃ text, ch ∉ text ∧ Spans str idx (pos + 1) (text ++ [ch]) := by
  obtain ⟨reaches, there, between⟩ := of_find found
  obtain ⟨inside, same⟩ := List.getElem?_eq_some_iff.mp there
  refine ⟨(str.drop idx).take (pos - idx), ?_, ?_, inside⟩
  · intro member
    obtain ⟨offset, held⟩ := mem_iff_getElem?.mp member
    have before : offset < pos - idx := by
      have := (List.getElem?_eq_some_iff.mp held).1
      rw [length_take] at this
      omega
    rw [List.getElem?_take_of_lt before, List.getElem?_drop] at held
    exact between (idx + offset) (Nat.le_add_right _ _) (by omega) held
  · have onward : (str.drop idx).drop (pos - idx) = [ch] ++ str.drop (pos + 1) := by
      rw [drop_drop, Nat.add_sub_cancel' reaches, drop_eq_getElem_cons inside, same]
      rfl
    rw [append_assoc, ← onward, take_append_drop]

end Scanning

section Layouts

variable {str text : List Byte} {idx : Nat} {place : Place}

theorem Layout.spaces_append {spaces more : List Byte} (all : ∀ ch ∈ spaces, isSpace ch = true)
    (layout : Layout more) : Layout (spaces ++ more) := by
  cases layout with
  | spaces others =>
    refine .spaces fun ch member => ?_
    exact (mem_append.mp member).elim (all ch) (others ch)
  | comment others oneLine later =>
    rw [← append_assoc]
    refine .comment (fun ch member => ?_) oneLine later
    exact (mem_append.mp member).elim (all ch) (others ch)

theorem Layout.append {first second : List Byte} (layout : Layout first)
    (later : Layout second) : Layout (first ++ second) := by
  induction layout with
  | spaces all => exact later.spaces_append all
  | comment all oneLine _ ih =>
    simp only [append_assoc, cons_append]
    exact .comment all oneLine ih

theorem nextLine_ends (comment : compare str idx commentText = true) :
    Ends (fun next => ∃ text, newline ∉ text ∧
      Spans str idx next (commentText ++ (text ++ [newline]))) (nextLine str reject place idx) := by
  have begins := (spans_compare comment (by simp)).ahead
  rw [nextLine]
  split
  next pos found =>
    rw [if_neg (Nat.ne_of_lt (find_some found).2)]
    obtain ⟨text, free, spans⟩ := spans_find found
    have split := begins.symm.trans spans.ahead
    -- The text up to the newline begins with the two slashes.
    match text, free, spans, split with
    | [], _, _, split => exact absurd (List.cons.inj split).1 (by decide)
    | [_], _, _, split => exact absurd (List.cons.inj (List.cons.inj split).2).1 (by decide)
    | _ :: _ :: text, free, spans, split =>
      obtain ⟨rfl, behind⟩ := List.cons.inj split
      obtain ⟨rfl, -⟩ := List.cons.inj behind
      refine ⟨text, fun member => free ?_, spans⟩
      exact mem_cons_of_mem _ (mem_cons_of_mem _ member)
  next => trivial

def Skips (str : List Byte) (idx next : Nat) : Prop := ∃ lead, Layout lead ∧ Spans str idx next lead

theorem skips_skipSpaces {next : Nat} (inside : idx ≤ str.length)
    (skips : Skips str (skipSpaces str idx) next) : Skips str idx next := by
  obtain ⟨lead, layout, spans⟩ := skips
  exact ⟨_, layout.spaces_append fun ch member => mem_takeWhile_imp member,
    (spans_skipWhile isSpace inside).trans spans⟩

theorem skips_spaces (inside : idx ≤ str.length) : Skips str idx (skipSpaces str idx) :=
  skips_skipSpaces inside ⟨[], .spaces (by simp), spans_self (skipWhile_le isSpace inside)⟩

theorem skipLines_ends {turns : Nat} (comment : compare str idx commentText = true)
    (inside : idx ≤ str.length) (enough : str.length < idx + turns) :
    Ends (Skips str idx) (skipLines str reject place turns idx) := by
  induction turns generalizing idx with
  | zero => exact absurd enough (Nat.not_lt_of_le inside)
  | succ turns ih =>
    rw [skipLines]
    refine (nextLine_ends comment).bind fun next line => ?_
    obtain ⟨text, oneLine, spans⟩ := line
    have onward := spans.next_eq inside
    have within : skipSpaces str next ≤ str.length := skipWhile_le isSpace spans.within
    have after : next ≤ skipSpaces str next := Nat.le_add_right _ _
    have whole {last : Nat} (later : Skips str next last) : Skips str idx last := by
      obtain ⟨more, layout, behind⟩ := later
      refine ⟨_, @Layout.comment [] text more (by simp) oneLine layout, ?_⟩
      simpa using spans.trans behind
    split
    next again =>
      simp only [length_append, length_cons] at onward
      exact (ih again within (by omega)).mono fun last skips =>
        whole (skips_skipSpaces spans.within skips)
    next => exact whole (skips_spaces spans.within)

theorem Derives.prepend {part : Part} {space : List Byte} (layout : Layout space)
    (derives : Derives part text) (inner : part ≠ .value) : Derives part (space ++ text) := by
  induction derives with
  | item before derives after =>
    rw [← append_assoc]
    exact .item (layout.append before) derives after
  | lastItem _ ih => exact .lastItem (ih (by decide))
  | moreItems _ others ih =>
    rw [← append_assoc]
    exact .moreItems (ih (by decide)) others
  | entry before raw key derives =>
    rw [← append_assoc]
    exact .entry (layout.append before) raw key derives
  | lastEntry _ ih => exact .lastEntry (ih (by decide))
  | moreEntries _ others ih =>
    rw [← append_assoc]
    exact .moreEntries (ih (by decide)) others
  | _ => exact absurd rfl inner

theorem Derives.length_pos (derives : Derives .value text) : 0 < text.length := by
  cases derives with
  | int some => exact length_pos_iff.mpr some
  | double some =>
    rw [length_append]
    exact Nat.add_pos_left (length_pos_iff.mpr some) _
  | _ => exact Nat.succ_pos _

end Layouts

namespace Parser

open JObject (ItemsWellFormed EntriesWellFormed)

variable {Double : Type} {parser : Parser Double} {idx : Nat} {place : Place}

/-- A value of the grammar was read, and a string only as one. -/
structure Reads (parser : Parser Double) (idx : Nat) (result : JObject Double × Nat)
    (text : List Byte) : Prop where
  derives : Derives .value text
  spans : Spans parser.str idx result.2 text
  ended : Ended text (parser.str.drop result.2)
  string : ∀ key, result.1 = .str key → ∃ raw, RawText raw ∧ text = quote :: (raw ++ [quote])
  wellFormed : result.1.WellFormed

def ReadsToken (parser : Parser Double) (idx : Nat) (result : JObject Double × Nat) : Prop :=
  ∃ text, parser.Reads idx result text

def ReadsValue (parser : Parser Double) (idx : Nat) (result : JObject Double × Nat) : Prop :=
  ∃ start, Skips parser.str idx start ∧ parser.ReadsToken start result

/-- The members of a list or a dict were read, and the bracket behind them. -/
structure ReadsMembers (parser : Parser Double) (part : Part) (close : Byte) (idx : Nat)
    (result : JObject Double × Nat) : Prop where
  other : ∀ key, result.1 ≠ .str key
  wellFormed : result.1.WellFormed
  derives : ∃ text, Derives part text ∧ Spans parser.str idx result.2 (text ++ [close])

theorem ReadsValue.bounds {result : JObject Double × Nat} (reads : parser.ReadsValue idx result)
    (inside : idx ≤ parser.str.length) : idx < result.2 ∧ result.2 ≤ parser.str.length := by
  obtain ⟨start, ⟨lead, -, skipped⟩, text, read⟩ := reads
  have onward := skipped.next_eq inside
  have behind := read.spans.next_eq skipped.within
  have some := read.derives.length_pos
  exact ⟨by omega, read.spans.within⟩

theorem ended_of_last {text rest : List Byte} (other : isDigit (text.getLastD 0) = false) :
    Ended text rest := by
  intro digit
  rw [other] at digit
  cases digit

theorem ended_of_closing {text rest : List Byte} {first last : Byte}
    (other : isDigit last = false) : Ended (first :: (text ++ [last])) rest := by
  apply ended_of_last
  rw [← cons_append, getLastD_concat]
  exact other

theorem parseNull_ends : Ends (parser.ReadsToken idx) (parser.parseNull idx) := by
  rw [parseNull]
  split
  next same =>
    exact ⟨nullText, .null, spans_compare same (by simp), ended_of_last rfl, by rintro _ ⟨⟩, trivial⟩
  next => trivial

theorem parseBool_ends : Ends (parser.ReadsToken idx) (parser.parseBool idx) := by
  rw [parseBool]
  split
  next same =>
    exact ⟨trueText, .true, spans_compare same (by simp), ended_of_last rfl, by rintro _ ⟨⟩, trivial⟩
  next =>
    split
    next same =>
      exact ⟨falseText, .false, spans_compare same (by simp), ended_of_last rfl, by rintro _ ⟨⟩,
        trivial⟩
    next => trivial

theorem digits_ahead {begin : Nat} (digit : isDigit (charAt parser.str begin) = true) :
    ∃ digits, digits ≠ [] ∧ (∀ ch ∈ digits, isDigit ch = true) ∧
      Spans parser.str begin (skipWhile parser.str isDigit begin) digits ∧
      isDigit ((parser.str.drop (skipWhile parser.str isDigit begin)).headD 0) = false := by
  have inside : begin ≤ parser.str.length := (lt_length_of_digit digit).le
  have spans := spans_skipWhile isDigit inside
  refine ⟨_, ?_, fun ch member => mem_takeWhile_imp member, spans, ?_⟩
  · intro empty
    have onward := skipDigits_lt digit
    rw [skipWhile, empty] at onward
    exact Nat.lt_irrefl _ onward
  · have left : parser.str.drop (skipWhile parser.str isDigit begin) =
        (parser.str.drop begin).dropWhile isDigit := by
      have split := spans.ahead
      nth_rewrite 1 [← @takeWhile_append_dropWhile _ isDigit (parser.str.drop begin)] at split
      exact (append_cancel_left split).symm
    rw [left]
    cases rest : (parser.str.drop begin).dropWhile isDigit with
    | nil => rfl
    | cons ch tail =>
      have stops := @head_dropWhile_not _ isDigit (parser.str.drop begin) (by rw [rest]; simp)
      simpa [rest] using stops

theorem parseNumber_ends : Ends (parser.ReadsToken idx) (parser.parseNumber idx) := by
  rw [parseNumber]
  split
  next digit =>
    obtain ⟨digits, some, all, spans, stops⟩ := digits_ahead digit
    split
    next other =>
      refine ⟨digits, .int some all, spans, fun _ => ⟨stops, .inr ?_⟩, by rintro _ ⟨⟩, trivial⟩
      rwa [charAt_eq_headD] at other
    next point =>
      split
      next fraction =>
        obtain ⟨part, someFraction, allFraction, behind, stopsBehind⟩ := digits_ahead fraction
        refine ⟨_, .double some all someFraction allFraction, ?_,
          fun _ => ⟨stopsBehind, .inl (by simp)⟩, by rintro _ ⟨⟩, trivial⟩
        exact spans.trans ((spans_charAt (not_not.mp point) (by decide)).trans behind)
      next => trivial
  next => trivial

variable {parse : Nat → Parsed (JObject Double × Nat)} (enough : parser.str.length < parser.turns)

include enough

theorem parseString_ends (opening : charAt parser.str idx = quote) :
    Ends (parser.ReadsToken idx) (parser.parseString idx) := by
  have inside : idx < parser.str.length := lt_length_of_charAt (by rw [opening]; decide)
  have there : parser.str[idx]? = some quote := by
    rw [List.getElem?_eq_getElem inside, ← opening, charAt, getD_eq_getElem _ _ inside]
  rcases @parseString_spec Double parser idx enough with
    ⟨pos, closes, read⟩ | ⟨-, error, thrown⟩
  · obtain ⟨raw, rawText, ahead, -⟩ := raw_of_closesFirst there closes
    have within := (List.getElem?_eq_some_iff.mp closes.1.there).1
    rw [read]
    refine ⟨_, .string rawText, ⟨?_, within⟩, ended_of_closing rfl,
      fun _ _ => ⟨raw, rawText, rfl⟩, trivial⟩
    rw [ahead]
    simp
  · rw [thrown]
    trivial

variable (rejects : parser.missing = reject)

include rejects

theorem getNextToken_ends (inside : idx ≤ parser.str.length) :
    Ends (Skips parser.str idx) (parser.getNextToken place idx) := by
  have within : skipSpaces parser.str idx ≤ parser.str.length := skipWhile_le isSpace inside
  rw [getNextToken, skipComment, rejects]
  split
  · trivial
  · split
    next comment =>
      exact (skipLines_ends comment within (by omega)).mono fun next =>
        skips_skipSpaces inside
    next => exact skips_spaces inside

section Brackets

variable {Good : JObject Double × Nat → Prop} {close : Byte} {object : JObject Double}

theorem opened_ends (some : close ≠ 0) (inside : idx < parser.str.length)
    (empty : ∀ space next, Layout space → Spans parser.str (idx + 1) next (space ++ [close]) →
      Good (object, next))
    (loops : ∀ space next, Layout space → Spans parser.str (idx + 1) next space →
      Ends Good (parse next)) : Ends Good (parser.opened close object parse idx) := by
  rw [opened]
  refine (getNextToken_ends enough rejects inside).bind fun next token => ?_
  obtain ⟨space, layout, spans⟩ := token
  split
  next closed => exact empty space (next + 1) layout (spans.trans (spans_charAt closed some))
  next => exact loops space next layout spans

theorem separated_ends (some : close ≠ 0) {error : ParseError} (inside : idx ≤ parser.str.length)
    (last : ∀ space next, Layout space → Spans parser.str idx next (space ++ [close]) →
      Good (object, next))
    (loops : ∀ space next, Layout space → Spans parser.str idx next (space ++ [comma]) →
      Ends Good (parse next)) : Ends Good (parser.separated close error object parse idx) := by
  rw [separated]
  refine (getNextToken_ends enough rejects inside).bind fun next token => ?_
  obtain ⟨space, layout, spans⟩ := token
  split
  next closed => exact last space (next + 1) layout (spans.trans (spans_charAt closed some))
  next =>
    split
    · trivial
    next separator =>
      exact loops space (next + 1) layout
        (spans.trans (spans_charAt (not_not.mp separator) (by decide)))

end Brackets

section

variable (values : ∀ later, idx ≤ later → later ≤ parser.str.length →
  Ends (parser.ReadsValue later) (parse later))

include values

theorem listLoop_ends {turns : Nat} {items : List (JObject Double)}
    (inside : idx ≤ parser.str.length) (left : parser.str.length < idx + turns)
    (wellFormed : ItemsWellFormed items) :
    Ends (parser.ReadsMembers .items rightBracket idx)
      (parser.listLoop parse turns items idx) := by
  induction turns generalizing idx items with
  | zero => omega
  | succ turns ih =>
    rw [listLoop_succ]
    refine (values idx (Nat.le_refl idx) inside).bind fun item reads => ?_
    obtain ⟨after, within⟩ := reads.bounds inside
    obtain ⟨start, ⟨lead, layout, skipped⟩, text, read⟩ := reads
    have kept := wellFormed.concat read.wellFormed
    have front {space : List Byte} (layoutAfter : Layout space) :
        Derives .item (lead ++ (text ++ space)) := .item layout read.derives layoutAfter
    refine separated_ends enough rejects (by decide) within ?_ ?_
    · intro space next layoutAfter spans
      refine ⟨by rintro _ ⟨⟩, kept, _, .lastItem (front layoutAfter), ?_⟩
      simpa using skipped.trans (read.spans.trans spans)
    · intro space next layoutAfter spans
      have onward := spans.next_eq within
      refine (ih (fun later beyond => values later (by omega)) spans.within (by omega) kept).mono
        fun result members => ?_
      obtain ⟨others, derives, behind⟩ := members.derives
      refine ⟨members.other, members.wellFormed, _, .moreItems (front layoutAfter) derives, ?_⟩
      simpa using skipped.trans (read.spans.trans (spans.trans behind))

theorem dictLoop_ends {turns : Nat} {entries : List (List Byte × JObject Double)}
    (inside : idx ≤ parser.str.length) (left : parser.str.length < idx + turns)
    (sorted : (entries.map Prod.fst).Pairwise (· < ·)) (wellFormed : EntriesWellFormed entries) :
    Ends (parser.ReadsMembers .entries rightBrace idx)
      (parser.dictLoop parse turns entries idx) := by
  induction turns generalizing idx entries with
  | zero => omega
  | succ turns ih =>
    rw [dictLoop_succ]
    refine (values idx (Nat.le_refl idx) inside).bind fun name nameReads => ?_
    obtain ⟨nameAfter, nameWithin⟩ := nameReads.bounds inside
    obtain ⟨start, ⟨lead, layout, skipped⟩, nameText, nameRead⟩ := nameReads
    cases named : name.1 with
    | str key =>
      obtain ⟨raw, rawText, rfl⟩ := nameRead.string key named
      refine (getNextToken_ends enough rejects nameWithin).bind fun next token => ?_
      obtain ⟨middle, layoutKey, keySpans⟩ := token
      split
      · trivial
      next separator =>
        have colonSpans := keySpans.trans (spans_charAt (not_not.mp separator) (by decide))
        have onward := colonSpans.next_eq nameWithin
        refine (values (next + 1) (by omega) colonSpans.within).bind fun value reads => ?_
        obtain ⟨after, within⟩ := reads.bounds colonSpans.within
        obtain ⟨valueStart, ⟨before, layoutValue, valueSkipped⟩, text, read⟩ := reads
        have ascending := @pairwise_insertEntry _ key value.1 _ sorted
        have kept := wellFormed.insertEntry read.wellFormed key
        have front {space : List Byte} (layoutAfter : Layout space) : Derives .entry _ :=
          .entry layout rawText layoutKey (.item layoutValue read.derives layoutAfter)
        have valueSpans := colonSpans.trans (valueSkipped.trans read.spans)
        refine separated_ends enough rejects (by decide) within ?_ ?_
        · intro space last layoutAfter spans
          refine ⟨by rintro _ ⟨⟩, ⟨ascending, kept⟩, _, .lastEntry (front layoutAfter), ?_⟩
          simpa using skipped.trans (nameRead.spans.trans (valueSpans.trans spans))
        · intro space last layoutAfter spans
          have further := spans.next_eq within
          refine (ih (fun later beyond => values later (by omega)) spans.within (by omega) ascending
            kept).mono fun result members => ?_
          obtain ⟨others, derives, behind⟩ := members.derives
          refine ⟨members.other, members.wellFormed, _, .moreEntries (front layoutAfter) derives, ?_⟩
          simpa using
            skipped.trans (nameRead.spans.trans (valueSpans.trans (spans.trans behind)))
    | _ => trivial

end

theorem parseToken_ends
    (values : ∀ later, idx < later → later ≤ parser.str.length →
      Ends (parser.ReadsValue later) (parse later)) :
    Ends (parser.ReadsToken idx) (parser.parseToken parse idx) := by
  rw [parseToken]
  split
  · exact parseNull_ends
  split
  · exact parseBool_ends
  split
  · exact parseNumber_ends
  split
  next opening => exact parseString_ends enough opening
  split
  next bracket =>
    have begins := spans_charAt bracket (by decide)
    refine opened_ends enough rejects (by decide) begins.within ?_ ?_
    · intro space next layout spans
      exact ⟨_, .emptyList layout, begins.trans spans, ended_of_closing rfl, by rintro _ ⟨⟩, trivial⟩
    · intro space next layout spans
      have onward := spans.next_eq begins.within
      refine (listLoop_ends enough rejects (fun later after => values later (by omega)) spans.within
        (by omega) (by trivial)).mono fun result members => ?_
      obtain ⟨text, derives, behind⟩ := members.derives
      refine ⟨_, .list (derives.prepend layout (by decide)), ?_, ended_of_closing rfl,
        fun key same => absurd same (members.other key), members.wellFormed⟩
      simpa using begins.trans (spans.trans behind)
  split
  next brace =>
    have begins := spans_charAt brace (by decide)
    refine opened_ends enough rejects (by decide) begins.within ?_ ?_
    · intro space next layout spans
      exact ⟨_, .emptyDict layout, begins.trans spans, ended_of_closing rfl, by rintro _ ⟨⟩,
        .nil, trivial⟩
    · intro space next layout spans
      have onward := spans.next_eq begins.within
      refine (dictLoop_ends enough rejects (fun later after => values later (by omega)) spans.within
        (by omega) .nil (by trivial)).mono fun result members => ?_
      obtain ⟨text, derives, behind⟩ := members.derives
      refine ⟨_, .dict (derives.prepend layout (by decide)), ?_, ended_of_closing rfl,
        fun key same => absurd same (members.other key), members.wellFormed⟩
      simpa using begins.trans (spans.trans behind)
  · trivial

/-- With the error for a comment without a newline the parser ends, and has read a value if it
returns. -/
theorem parse_ends {depth : Nat} (inside : idx ≤ parser.str.length)
    (deep : parser.str.length < idx + depth) :
    Ends (parser.ReadsValue idx) (parser.parse depth idx) := by
  induction depth generalizing idx with
  | zero => omega
  | succ depth ih =>
    rw [parse]
    refine (getNextToken_ends enough rejects inside).bind fun start skips => ?_
    obtain ⟨lead, layout, skipped⟩ := skips
    have onward := skipped.next_eq inside
    exact (parseToken_ends enough rejects fun later after within =>
      ih within (by omega)).mono fun result read => ⟨start, ⟨lead, layout, skipped⟩, read⟩

end Parser

end Bitdb.Json
