import Bitdb.Common.Json.Parser
import Mathlib.Data.List.GetD
import Mathlib.Data.List.TakeWhile

/-! When the parser comes to an end. Where a string ends: at the first quote before which an even
number of backslashes stands. -/

set_option autoImplicit false

namespace Bitdb.Json

open Base (Halt Ends Follows Approximates Suffices ok_ne_error thrown_ne_unfinished)
open List

section Characters

variable {str : List Byte} {idx : Nat}

theorem find_some {ch : Byte} {pos : Nat} (found : find str ch idx = some pos) :
    idx ≤ pos ∧ pos < str.length := by
  obtain ⟨offset, place, rfl⟩ := Option.map_eq_some_iff.mp found
  obtain ⟨inside, -⟩ := List.findIdx?_eq_some_iff_getElem.mp place
  rw [length_drop] at inside
  omega

theorem skipWhile_le (test : Byte → Bool) (inside : idx ≤ str.length) :
    skipWhile str test idx ≤ str.length := by
  have fewer : ((str.drop idx).takeWhile test).length ≤ (str.drop idx).length :=
    ( takeWhile_prefix test).length_le
  rw [length_drop] at fewer
  rw [skipWhile]
  omega

theorem lt_length_of_charAt (some : charAt str idx ≠ 0) : idx < str.length := by
  by_contra outside
  exact some (getD_eq_default _ _ (Nat.le_of_not_lt outside))

theorem lt_length_of_digit (digit : isDigit (charAt str idx) = true) : idx < str.length := by
  refine lt_length_of_charAt fun zero => ?_
  rw [zero] at digit
  cases digit

theorem compare_le {text : List Byte} (same : compare str idx text = true) (some : text ≠ []) :
    idx + text.length ≤ str.length := by
  have lengths := congrArg List.length (of_decide_eq_true same)
  have positive := length_pos_iff.mpr some
  rw [length_take, length_drop] at lengths
  omega

theorem skipDigits_lt {begin : Nat} (digit : isDigit (charAt str begin) = true) :
    begin < skipWhile str isDigit begin := by
  have inside := lt_length_of_digit digit
  rw [charAt, getD_eq_getElem _ _ inside] at digit
  rw [skipWhile, drop_eq_getElem_cons inside, takeWhile_cons, if_pos digit, length_cons]
  omega

theorem skipWhile_eq_self {test : Byte → Bool} (inside : idx < str.length)
    (stops : test (charAt str idx) = false) : skipWhile str test idx = idx := by
  rw [charAt, getD_eq_getElem _ _ inside] at stops
  rw [skipWhile, drop_eq_getElem_cons inside, takeWhile_cons, if_neg (by simp [stops])]
  rfl

theorem not_compare_of_charAt {ch : Byte} {text : List Byte} (other : charAt str idx ≠ ch)
    (inside : idx < str.length) : compare str idx (ch :: text) = false := by
  refine decide_eq_false fun same => other ?_
  rw [drop_eq_getElem_cons inside, length_cons, take_succ_cons] at same
  rw [charAt, getD_eq_getElem _ _ inside]
  exact (List.cons.inj same).1

end Characters

section Loops

variable {str : List Byte}
variable {free : Halt ParseError → Prop} {allowed : Halt ParseError → Halt ParseError → Prop}

def ParseError.isComment : ParseError → Bool
  | .invalidComment _ => true
  | _ => false

def Quiet {α : Type} (run : Parsed α) : Prop :=
  ∀ place, run ≠ .error (.thrown (.invalidComment place))

theorem quiet_ok {α : Type} (value : α) : Quiet (.ok value) := fun _ => ok_ne_error _ _

theorem quiet_unfinished {α : Type} : Quiet (.error .unfinished : Parsed α) :=
  fun _ => (thrown_ne_unfinished _).symm

theorem quiet_thrown {α : Type} {error : ParseError} (other : error.isComment = false) :
    Quiet (.error (.thrown error) : Parsed α) := by
  rintro place ⟨⟩
  cases other

/-- Every stop but such a complaint goes together with itself. -/
def KeepsQuiet (allowed : Halt ParseError → Halt ParseError → Prop) : Prop :=
  ∀ stop, (∀ place, stop ≠ .thrown (.invalidComment place)) → allowed stop stop

theorem KeepsQuiet.refl {α : Type} (keeps : KeepsQuiet allowed) {run : Parsed α}
    (quiet : Quiet run) : Follows free allowed run run :=
  .refl fun stop stopped => keeps stop fun place same => quiet place (same ▸ stopped)

theorem KeepsQuiet.unfinished (keeps : KeepsQuiet allowed) : allowed .unfinished .unfinished :=
  keeps _ (by rintro _ ⟨⟩)

theorem closingQuote_follows (keeps : KeepsQuiet allowed) {turns more pos : Nat}
    (enough : Suffices free turns more) :
    Follows free allowed (closingQuote str turns pos) (closingQuote str more pos) := by
  induction turns generalizing more pos with
  | zero => exact enough.zero keeps.unfinished (fun more => closingQuote str more pos) rfl
  | succ turns ih =>
    obtain ⟨less, rfl, left⟩ := enough.succ
    rw [closingQuote, closingQuote]
    split
    · exact .returns _
    · split
      · exact .returns _
      · split
        · exact ih left
        · exact keeps.refl (quiet_thrown rfl)

theorem closingQuote_quiet (turns pos : Nat) : Quiet (closingQuote str turns pos) := by
  induction turns generalizing pos with
  | zero => exact quiet_unfinished
  | succ turns ih =>
    rw [closingQuote]
    split
    · exact quiet_ok _
    · split
      · exact quiet_ok _
      · split
        · exact ih _
        · exact quiet_thrown rfl

end Loops

namespace Parser

variable {Double : Type} {parser : Parser Double}

section Brackets

variable {parse : Nat → Parsed (JObject Double × Nat)} {turns idx : Nat}

def opened (parser : Parser Double) (close : Byte) (empty : JObject Double)
    (loop : Nat → Parsed (JObject Double × Nat)) (idx : Nat) : Parsed (JObject Double × Nat) := do
  let idx ← parser.getNextToken .value (idx + 1)
  if charAt parser.str idx = close then .ok (empty, idx + 1) else loop idx

def separated (parser : Parser Double) (close : Byte) (error : ParseError)
    (closed : JObject Double) (loop : Nat → Parsed (JObject Double × Nat)) (idx : Nat) :
    Parsed (JObject Double × Nat) := do
  let idx ← parser.getNextToken .separator idx
  if charAt parser.str idx = close then .ok (closed, idx + 1)
  else if charAt parser.str idx ≠ comma then .error (.thrown error)
  else loop (idx + 1)

theorem listLoop_succ {items : List (JObject Double)} :
    parser.listLoop parse (turns + 1) items idx = (do
      let item ← parse idx
      parser.separated rightBracket .listSeparator (.list (items ++ [item.1]))
        (parser.listLoop parse turns (items ++ [item.1])) item.2) := rfl

theorem dictLoop_succ {entries : List (List Byte × JObject Double)} :
    parser.dictLoop parse (turns + 1) entries idx = (do
      let name ← parse idx
      let key ← keyOf name.1
      let idx ← parser.getNextToken .separator name.2
      if charAt parser.str idx ≠ colon then .error (.thrown .dictColon)
      else do
        let value ← parse (idx + 1)
        parser.separated rightBrace .dictSeparator (.dict (insertEntry key value.1 entries))
          (parser.dictLoop parse turns (insertEntry key value.1 entries)) value.2) := rfl

end Brackets

theorem getNextToken_of_charAt {idx : Nat} {place : Place} (some : charAt parser.str idx ≠ 0)
    (token : isSpace (charAt parser.str idx) = false) (other : charAt parser.str idx ≠ 47) :
    parser.getNextToken place idx = .ok idx := by
  have inside := lt_length_of_charAt some
  have stays : skipSpaces parser.str idx = idx := skipWhile_eq_self inside token
  rw [getNextToken, stays, if_neg (Nat.not_le_of_lt inside), skipComment,
    not_compare_of_charAt other inside]
  rfl

section Comparison

variable {free : Halt ParseError → Prop} {allowed : Halt ParseError → Halt ParseError → Prop}
  {first second : Parser Double} {rewinds : Prop} {start : Nat}
  {firstParse secondParse : Nat → Parsed (JObject Double × Nat)}

/-- A second parser does what the first does, but where a comment has no newline it may go back
to the first token of the text, which opens a list or a dict. -/
structure Tracks (free : Halt ParseError → Prop)
    (allowed : Halt ParseError → Halt ParseError → Prop) (first second : Parser Double)
    (rewinds : Prop) (start : Nat) : Prop where
  str : second.str = first.str
  strtof64 : second.strtof64 = first.strtof64
  turns : Suffices free first.turns second.turns
  keeps : KeepsQuiet allowed
  tokens : ∀ place idx,
    Follows free allowed (first.getNextToken place idx) (second.getNextToken place idx) ∨
      rewinds ∧ first.getNextToken place idx = .error (.thrown (.invalidComment place)) ∧
        second.getNextToken place idx = .ok start
  opens : rewinds → charAt first.str start = leftBracket ∨ charAt first.str start = leftBrace
  separator : rewinds → ∀ error, free (.thrown (.invalidComment .separator)) ∨
    allowed (.thrown (.invalidComment .separator)) (.thrown error)

/-- Where it goes back for a value, the second parser is free, or it does not end. -/
def Again (free : Halt ParseError → Prop) (allowed : Halt ParseError → Halt ParseError → Prop)
    (run : Parsed (JObject Double × Nat)) : Prop :=
  free (.thrown (.invalidComment .value)) ∨
    allowed (.thrown (.invalidComment .value)) .unfinished ∧ run = .error .unfinished

theorem Again.follows {run : Parsed (JObject Double × Nat)} (again : Again free allowed run) :
    Follows free allowed (.error (.thrown (.invalidComment .value))) run := by
  rcases again with stopped | ⟨pair, rfl⟩
  · exact .free _ stopped
  · exact .stops pair

theorem Tracks.throws (tracks : Tracks free allowed first second rewinds start)
    (back : rewinds) (error : ParseError) :
    Follows free allowed (.error (.thrown (.invalidComment .separator)))
      (.error (.thrown error) : Parsed (JObject Double × Nat)) := by
  rcases tracks.separator back error with stopped | pair
  · exact .free _ stopped
  · exact .stops pair

theorem Tracks.start_ne (tracks : Tracks free allowed first second rewinds start) (back : rewinds)
    {ch : Byte} (other : ch ≠ leftBracket ∧ ch ≠ leftBrace) : charAt second.str start ≠ ch := by
  rw [tracks.str]
  rcases tracks.opens back with opens | opens
  · rw [opens]
    exact other.1.symm
  · rw [opens]
    exact other.2.symm

theorem parseNull_quiet (parser : Parser Double) (idx : Nat) : Quiet (parser.parseNull idx) := by
  rw [parseNull]
  split
  · exact quiet_ok _
  · exact quiet_thrown rfl

theorem parseBool_quiet (parser : Parser Double) (idx : Nat) : Quiet (parser.parseBool idx) := by
  rw [parseBool]
  split
  · exact quiet_ok _
  · split
    · exact quiet_ok _
    · exact quiet_thrown rfl

theorem parseNumber_quiet (parser : Parser Double) (idx : Nat) :
    Quiet (parser.parseNumber idx) := by
  rw [parseNumber]
  split
  · split
    · exact quiet_ok _
    · split
      · exact quiet_ok _
      · exact quiet_thrown rfl
  · exact quiet_thrown rfl

theorem parseString_quiet (parser : Parser Double) (idx : Nat) :
    Quiet (parser.parseString idx) := by
  rw [parseString]
  split
  next pos found =>
    intro place complains
    cases closed : closingQuote parser.str parser.turns pos with
    | ok last =>
      rw [closed] at complains
      cases complains
    | error stop =>
      rw [closed] at complains
      cases complains
      exact closingQuote_quiet _ _ place closed
  next => exact quiet_thrown rfl

theorem keyOf_quiet (object : JObject Double) : Quiet (keyOf object) := by
  cases object with
  | str key => exact quiet_ok _
  | _ => exact quiet_thrown rfl

section

variable (tracks : Tracks free allowed first second rewinds start)

include tracks

theorem parseString_follows (idx : Nat) :
    Follows free allowed (first.parseString idx) (second.parseString idx) := by
  rw [parseString, parseString, tracks.str]
  split
  · exact (closingQuote_follows tracks.keeps tracks.turns).bind fun _ => .returns _
  · exact tracks.keeps.refl (quiet_thrown rfl)

theorem opened_follows {close : Byte} (other : close ≠ leftBracket ∧ close ≠ leftBrace)
    {empty : JObject Double}
    (loops : ∀ idx, Follows free allowed (firstParse idx) (secondParse idx))
    (again : rewinds → Again free allowed (secondParse start)) (idx : Nat) :
    Follows free allowed (first.opened close empty firstParse idx)
      (second.opened close empty secondParse idx) := by
  rw [opened, opened]
  rcases tracks.tokens .value (idx + 1) with follows | ⟨back, rejected, rewound⟩
  · refine follows.bind fun next => ?_
    rw [tracks.str]
    split
    · exact .returns _
    · exact loops next
  · rw [rejected, rewound]
    show Follows free allowed (.error _) (ite _ _ _)
    rw [if_neg (tracks.start_ne back other)]
    exact (again back).follows

theorem separated_follows {close : Byte} (other : close ≠ leftBracket ∧ close ≠ leftBrace)
    {error : ParseError} (quiet : error.isComment = false) {closed : JObject Double}
    (loops : ∀ idx, Follows free allowed (firstParse idx) (secondParse idx)) (idx : Nat) :
    Follows free allowed (first.separated close error closed firstParse idx)
      (second.separated close error closed secondParse idx) := by
  rw [separated, separated]
  rcases tracks.tokens .separator idx with follows | ⟨back, rejected, rewound⟩
  · refine follows.bind fun next => ?_
    rw [tracks.str]
    split
    · exact .returns _
    · split
      · exact tracks.keeps.refl (quiet_thrown quiet)
      · exact loops _
  · rw [rejected, rewound]
    show Follows free allowed (.error _) (ite _ _ _)
    rw [if_neg (tracks.start_ne back other), if_pos (tracks.start_ne back (by decide))]
    exact tracks.throws back _

theorem listLoop_follows (values : ∀ idx, Follows free allowed (firstParse idx) (secondParse idx))
    {turns more : Nat} (enough : Suffices free turns more) (items : List (JObject Double))
    (idx : Nat) :
    Follows free allowed (first.listLoop firstParse turns items idx)
      (second.listLoop secondParse more items idx) := by
  induction turns generalizing more items idx with
  | zero =>
    exact enough.zero tracks.keeps.unfinished
      (fun more => second.listLoop secondParse more items idx) rfl
  | succ turns ih =>
    obtain ⟨less, rfl, left⟩ := enough.succ
    rw [listLoop_succ, listLoop_succ]
    exact (values idx).bind fun item => separated_follows tracks (by decide) rfl (ih left _) _

theorem dictLoop_follows (values : ∀ idx, Follows free allowed (firstParse idx) (secondParse idx))
    {turns more : Nat} (enough : Suffices free turns more)
    (entries : List (List Byte × JObject Double)) (idx : Nat) :
    Follows free allowed (first.dictLoop firstParse turns entries idx)
      (second.dictLoop secondParse more entries idx) := by
  induction turns generalizing more entries idx with
  | zero =>
    exact enough.zero tracks.keeps.unfinished
      (fun more => second.dictLoop secondParse more entries idx) rfl
  | succ turns ih =>
    obtain ⟨less, rfl, left⟩ := enough.succ
    rw [dictLoop_succ, dictLoop_succ]
    refine (values idx).bind fun name => ?_
    refine (tracks.keeps.refl (keyOf_quiet name.1)).bind fun key => ?_
    rcases tracks.tokens .separator name.2 with follows | ⟨back, rejected, rewound⟩
    · refine follows.bind fun next => ?_
      rw [tracks.str]
      split
      · exact tracks.keeps.refl (quiet_thrown rfl)
      · exact (values (next + 1)).bind fun value =>
          separated_follows tracks (by decide) rfl (ih left _) _
    · rw [rejected, rewound]
      show Follows free allowed (.error _) (ite _ _ _)
      rw [if_pos (tracks.start_ne back (by decide))]
      exact tracks.throws back _

end

theorem Again.listLoop (again : Again free allowed (secondParse start)) (turns : Nat)
    (items : List (JObject Double)) :
    Again free allowed (second.listLoop secondParse turns items start) := by
  refine again.imp_right fun ⟨pair, unfinished⟩ => ⟨pair, ?_⟩
  cases turns with
  | zero => rfl
  | succ turns =>
    rw [Parser.listLoop, unfinished]
    rfl

theorem Again.dictLoop (again : Again free allowed (secondParse start)) (turns : Nat)
    (entries : List (List Byte × JObject Double)) :
    Again free allowed (second.dictLoop secondParse turns entries start) := by
  refine again.imp_right fun ⟨pair, unfinished⟩ => ⟨pair, ?_⟩
  cases turns with
  | zero => rfl
  | succ turns =>
    rw [Parser.dictLoop, unfinished]
    rfl

theorem parseToken_follows (tracks : Tracks free allowed first second rewinds start)
    (values : ∀ idx, Follows free allowed (firstParse idx) (secondParse idx))
    (again : rewinds → Again free allowed (secondParse start)) (idx : Nat) :
    Follows free allowed (first.parseToken firstParse idx) (second.parseToken secondParse idx) := by
  have null : second.parseNull idx = first.parseNull idx := by
    rw [parseNull, parseNull, tracks.str]
  have bool : second.parseBool idx = first.parseBool idx := by
    rw [parseBool, parseBool, tracks.str]
  have number : second.parseNumber idx = first.parseNumber idx := by
    rw [parseNumber, parseNumber, tracks.str, tracks.strtof64]
  rw [parseToken, parseToken, tracks.str, null, bool, number]
  split
  · exact tracks.keeps.refl (parseNull_quiet _ _)
  split
  · exact tracks.keeps.refl (parseBool_quiet _ _)
  split
  · exact tracks.keeps.refl (parseNumber_quiet _ _)
  split
  · exact parseString_follows tracks idx
  split
  · exact opened_follows tracks (by decide) (listLoop_follows tracks values tracks.turns _)
      (fun back => (again back).listLoop _ _) idx
  split
  · exact opened_follows tracks (by decide) (dictLoop_follows tracks values tracks.turns _)
      (fun back => (again back).dictLoop _ _) idx
  · exact tracks.keeps.refl (quiet_thrown rfl)

theorem parse_follows (tracks : Tracks free allowed first second rewinds start) {depth deeper : Nat}
    (values : ∀ idx, Follows free allowed (first.parse depth idx) (second.parse deeper idx))
    (again : rewinds → Again free allowed (second.parse deeper start))
    (back : rewinds → Again free allowed (second.parseToken (second.parse deeper) start))
    (idx : Nat) :
    Follows free allowed (first.parse (depth + 1) idx) (second.parse (deeper + 1) idx) := by
  rw [parse, parse]
  rcases tracks.tokens .value idx with follows | ⟨rewinds, rejected, rewound⟩
  · exact follows.bind fun next => parseToken_follows tracks values again next
  · rw [rejected, rewound]
    exact (back rewinds).follows

end Comparison

end Parser

section Quotes

variable {str text rest : List Byte} {idx : Nat}

theorem charAt_eq_headD (str : List Byte) (idx : Nat) :
    charAt str idx = (str.drop idx).headD 0 := by
  rw [charAt, getD_eq_getElem?_getD, headD_eq_head?_getD, List.head?_drop]

theorem charAt_of_drop {ch : Byte} (ahead : str.drop idx = ch :: rest) : charAt str idx = ch := by
  rw [charAt_eq_headD, ahead]
  rfl

section

variable (ahead : str.drop idx = text ++ rest)

include ahead

theorem drop_add_of_drop : str.drop (idx + text.length) = rest := by
  rw [← drop_drop, ahead, drop_left]

theorem length_of_drop : text.length ≤ str.length := by
  have lengths := congrArg List.length ahead
  rw [length_drop, length_append] at lengths
  omega

theorem compare_of_drop : compare str idx text = true := by
  rw [compare, ahead, take_left]
  exact decide_eq_true rfl

end

theorem takeWhile_append_stop {test : Byte → Bool} (all : ∀ ch ∈ text, test ch = true)
    (stops : test (rest.headD 0) = false) : (text ++ rest).takeWhile test = text := by
  rw [takeWhile_append_of_pos all]
  cases rest with
  | nil => exact append_nil text
  | cons ch rest =>
    have stopped : ¬ test ch = true := by
      rw [show test ch = false from stops]
      exact Bool.false_ne_true
    rw [takeWhile_cons_of_neg stopped, append_nil]

theorem find_eq_none_iff {ch : Byte} {begin : Nat} :
    find str ch begin = none ↔ ∀ pos, begin ≤ pos → str[pos]? ≠ some ch := by
  rw [find, Option.map_eq_none_iff, List.findIdx?_eq_none_iff]
  constructor
  · intro absent pos reaches there
    have ahead : (str.drop begin)[pos - begin]? = some ch := by
      rw [List.getElem?_drop, Nat.add_sub_cancel' reaches, there]
    simpa using absent ch (mem_of_getElem? ahead)
  · intro absent other member
    obtain ⟨offset, there⟩ := mem_iff_getElem?.mp member
    rw [List.getElem?_drop] at there
    rw [beq_eq_false_iff_ne]
    rintro rfl
    exact absent (begin + offset) (Nat.le_add_right _ _) there

variable {pos : Nat}

theorem of_find {ch : Byte} {begin : Nat} (found : find str ch begin = some pos) :
    begin ≤ pos ∧ str[pos]? = some ch ∧
      ∀ other, begin ≤ other → other < pos → str[other]? ≠ some ch := by
  obtain ⟨offset, search, rfl⟩ := Option.map_eq_some_iff.mp found
  obtain ⟨within, matched, first⟩ := List.findIdx?_eq_some_iff_getElem.mp search
  refine ⟨Nat.le_add_right _ _, ?_, ?_⟩
  · rw [← List.getElem?_drop, List.getElem?_eq_getElem within]
    exact congrArg some (by simpa using matched)
  · intro other reaches before there
    have ahead : (str.drop begin)[other - begin]? = some ch := by
      rw [List.getElem?_drop, Nat.add_sub_cancel' reaches, there]
    obtain ⟨inside, same⟩ := List.getElem?_eq_some_iff.mp ahead
    exact first (other - begin) (by omega) (by simp [same])

theorem takeWhile_append_cons_of_neg {test : Byte → Bool} {ch : Byte} (stops : test ch = false)
    (text rest : List Byte) : (text ++ ch :: rest).takeWhile test = text.takeWhile test := by
  induction text with
  | nil => simp [stops]
  | cons other text ih => simp only [cons_append, takeWhile_cons, ih]

theorem escapes_of_drop (ahead : str.drop idx = quote :: (text ++ rest))
    (inside : pos ≤ text.length) : escapes str (idx + 1 + pos) = escapes text pos := by
  have taken : str.take (idx + 1 + pos) = str.take idx ++ quote :: text.take pos := by
    rw [Nat.add_assoc, take_add, ahead, Nat.add_comm 1 pos, take_succ_cons,
      take_append_of_le_length inside]
  rw [escapes, taken, reverse_append, reverse_cons, append_assoc,
    singleton_append, takeWhile_append_cons_of_neg (by decide)]
  rfl

theorem escapes_succ (inside : pos < str.length) :
    escapes str (pos + 1) = if charAt str pos = backslash then escapes str pos + 1 else 0 := by
  rw [charAt, getD_eq_getElem _ _ inside, escapes,
    take_succ_eq_append_getElem inside, reverse_append]
  by_cases escaped : str[pos] = backslash
  · simp [escaped, escapes]
  · simp [escaped]

/-- The string that opens at an index may close at a quote. -/
structure Closes (str : List Byte) (idx pos : Nat) : Prop where
  behind : idx < pos
  there : str[pos]? = some quote
  even : escapes str pos % 2 = 0

def ClosesFirst (str : List Byte) (idx pos : Nat) : Prop :=
  Closes str idx pos ∧ ∀ other < pos, ¬ Closes str idx other

theorem closingQuote_succ (inside : pos < str.length) (turns : Nat) :
    closingQuote str (turns + 1) (pos + 1) = if escapes str (pos + 1) % 2 = 0 then .ok (pos + 1)
      else (find str quote (pos + 1 + 1)).elim (.error (.thrown .unclosedString))
        (closingQuote str turns) := by
  rw [closingQuote, Nat.add_sub_cancel, isEscConsume]
  by_cases escaped : charAt str pos = backslash
  · cases find str quote (pos + 1 + 1) with
    | none | some => simp [escaped]
  · simp [escaped, escapes_succ inside]

theorem closingQuote_spec {turns : Nat} (behind : idx < pos) (there : str[pos]? = some quote)
    (earlier : ∀ other < pos, ¬ Closes str idx other) (enough : str.length < pos + turns) :
    (∃ last, ClosesFirst str idx last ∧ closingQuote str turns pos = .ok last) ∨
      (∀ last, ¬ Closes str idx last) ∧
        closingQuote str turns pos = .error (.thrown .unclosedString) := by
  have inside := (List.getElem?_eq_some_iff.mp there).1
  induction turns generalizing pos with
  | zero => omega
  | succ turns ih =>
    obtain ⟨before, rfl⟩ : ∃ before, pos = before + 1 := ⟨pos - 1, by omega⟩
    rw [closingQuote_succ (by omega)]
    by_cases even : escapes str (before + 1) % 2 = 0
    · rw [if_pos even]
      exact .inl ⟨before + 1, ⟨⟨behind, there, even⟩, earlier⟩, rfl⟩
    · have notHere : ¬ Closes str idx (before + 1) := fun closes => even closes.even
      rw [if_neg even]
      cases found : find str quote (before + 1 + 1) with
      | none =>
        refine .inr ⟨fun last closes => ?_, rfl⟩
        rcases Nat.lt_trichotomy last (before + 1) with less | rfl | more
        · exact earlier last less closes
        · exact notHere closes
        · exact find_eq_none_iff.mp found last more closes.there
      | some next =>
        obtain ⟨reaches, nextThere, between⟩ := of_find found
        refine ih (by omega) nextThere (fun other less closes => ?_) (by omega)
          (List.getElem?_eq_some_iff.mp nextThere).1
        rcases Nat.lt_trichotomy other (before + 1) with before | rfl | more
        · exact earlier other before closes
        · exact notHere closes
        · exact between other more less closes.there

theorem closesFirst_of_raw (raw : RawText text)
    (ahead : str.drop idx = quote :: (text ++ quote :: rest)) :
    ClosesFirst str idx (idx + 1 + text.length) := by
  have behind (offset : Nat) : str[idx + 1 + offset]? = (text ++ quote :: rest)[offset]? := by
    rw [Nat.add_assoc, ← List.getElem?_drop, ahead, Nat.add_comm 1 offset, List.getElem?_cons_succ]
  refine ⟨⟨by omega, ?_, ?_⟩, ?_⟩
  · rw [behind, List.getElem?_append_right (Nat.le_refl _), Nat.sub_self]
    rfl
  · rw [escapes_of_drop ahead (Nat.le_refl _)]
    exact raw.ending
  · intro other before closes
    obtain ⟨offset, rfl⟩ : ∃ offset, other = idx + 1 + offset :=
      ⟨other - (idx + 1), by have := closes.behind; omega⟩
    have quoted := closes.there
    have even := closes.even
    rw [behind, List.getElem?_append_left (by omega)] at quoted
    rw [escapes_of_drop ahead (by omega), raw.quotes offset quoted] at even
    cases even

theorem raw_of_closesFirst (opening : str[idx]? = some quote) (closes : ClosesFirst str idx pos) :
    ∃ text, RawText text ∧ str.drop idx = quote :: (text ++ quote :: str.drop (pos + 1)) ∧
      (str.drop (idx + 1)).take (pos - (idx + 1)) = text := by
  obtain ⟨⟨behind, there, even⟩, first⟩ := closes
  obtain ⟨within, same⟩ := List.getElem?_eq_some_iff.mp there
  obtain ⟨openingWithin, openingSame⟩ := List.getElem?_eq_some_iff.mp opening
  obtain ⟨offset, rfl⟩ : ∃ offset, pos = idx + 1 + offset := ⟨pos - (idx + 1), by omega⟩
  have size : ((str.drop (idx + 1)).take offset).length = offset := by
    rw [length_take, length_drop]
    omega
  have closed : (str.drop (idx + 1)).drop offset = quote :: str.drop (idx + 1 + offset + 1) := by
    rw [drop_drop, drop_eq_getElem_cons within, same]
  have ahead : str.drop idx = quote :: ((str.drop (idx + 1)).take offset ++
      quote :: str.drop (idx + 1 + offset + 1)) := by
    rw [drop_eq_getElem_cons openingWithin, openingSame, ← closed, take_append_drop]
  rw [Nat.add_sub_cancel_left]
  refine ⟨_, ⟨?_, ?_⟩, ahead, rfl⟩
  · intro place quoted
    have before : place < offset := size ▸ (List.getElem?_eq_some_iff.mp quoted).1
    rw [List.getElem?_take_of_lt before, List.getElem?_drop] at quoted
    rw [← escapes_of_drop ahead (by omega)]
    have notClosed := first (idx + 1 + place) (by omega)
    have odd : escapes str (idx + 1 + place) % 2 ≠ 0 := fun even =>
      notClosed ⟨by omega, quoted, even⟩
    omega
  · rw [← escapes_of_drop ahead (Nat.le_refl _), size]
    exact even

/-- The indices at which the loop of `IsEscConsume` looks. -/
def escReads (str : List Byte) : Nat → List Int
  | 0 => if charAt str 0 = backslash then [0, -1] else [0]
  | pos + 1 => if charAt str (pos + 1) = backslash then (pos + 1) :: escReads str pos else [pos + 1]

theorem le_of_mem_escReads (opening : charAt str idx = quote) (behind : idx ≤ pos) {read : Int}
    (member : read ∈ escReads str pos) : (idx : Int) ≤ read := by
  induction pos with
  | zero =>
    obtain rfl := Nat.le_zero.mp behind
    rw [escReads, opening, if_neg (by decide), mem_singleton] at member
    rw [member]
    exact Int.le_refl _
  | succ pos ih =>
    rw [escReads] at member
    by_cases escaped : charAt str (pos + 1) = backslash
    · rw [if_pos escaped, mem_cons] at member
      have apart : idx ≠ pos + 1 := by
        rintro rfl
        rw [opening] at escaped
        cases escaped
      rcases member with rfl | later
      · omega
      · exact ih (by omega) later
    · rw [if_neg escaped, mem_singleton] at member
      omega

end Quotes

namespace Parser

variable {Double : Type} {parser : Parser Double} {idx : Nat}

theorem ClosesFirst.unique {str : List Byte} {pos other : Nat} (closes : ClosesFirst str idx pos)
    (closesOther : ClosesFirst str idx other) : pos = other := by
  rcases Nat.lt_trichotomy pos other with less | same | more
  · exact absurd closes.1 (closesOther.2 pos less)
  · exact same
  · exact absurd closesOther.1 (closes.2 other more)

section

variable (enough : parser.str.length < parser.turns)

include enough

theorem parseString_spec :
    (∃ pos, ClosesFirst parser.str idx pos ∧ parser.parseString idx =
        .ok (.str ((parser.str.drop (idx + 1)).take (pos - (idx + 1))), pos + 1)) ∨
      (∀ pos, ¬ Closes parser.str idx pos) ∧
        ∃ error, parser.parseString idx = .error (.thrown error) := by
  rw [parseString]
  cases found : find parser.str quote (idx + 1) with
  | none =>
    refine .inr ⟨fun pos closes => ?_, .string, rfl⟩
    exact find_eq_none_iff.mp found pos closes.behind closes.there
  | some pos =>
    obtain ⟨reaches, there, between⟩ := of_find found
    have earlier : ∀ other < pos, ¬ Closes parser.str idx other := fun other before closes =>
      between other closes.behind before closes.there
    have covered : parser.str.length < pos + parser.turns := by omega
    rcases closingQuote_spec reaches there earlier covered with
      ⟨last, closes, closed⟩ | ⟨never, thrown⟩
    · refine .inl ⟨last, closes, ?_⟩
      simp only [closed]
      rfl
    · refine .inr ⟨never, .unclosedString, ?_⟩
      simp only [thrown]
      rfl

theorem parseString_of_closesFirst {pos : Nat} (closes : ClosesFirst parser.str idx pos) :
    parser.parseString idx =
      .ok (.str ((parser.str.drop (idx + 1)).take (pos - (idx + 1))), pos + 1) := by
  rcases @parseString_spec Double parser idx enough with ⟨other, closesOther, read⟩ | ⟨never, -⟩
  · rw [ClosesFirst.unique closes closesOther, read]
  · exact absurd closes.1 (never pos)

theorem parseString_raw {text rest : List Byte} (raw : RawText text)
    (ahead : parser.str.drop idx = quote :: (text ++ quote :: rest)) :
    parser.parseString idx = .ok (.str text, idx + 1 + text.length + 1) := by
  have behind : parser.str.drop (idx + 1) = text ++ quote :: rest := by
    rw [← drop_drop, ahead]
    rfl
  rw [parseString_of_closesFirst enough (closesFirst_of_raw raw ahead), behind,
    Nat.add_sub_cancel_left, take_left]

end

/-- A string is the text up to the first quote that closes it, and an error is thrown exactly if
there is none. The backslashes are not counted beyond the opening quote. -/
theorem parseString_scans (opening : charAt parser.str idx = quote)
    (enough : parser.str.length < parser.turns) :
    (∀ pos, ClosesFirst parser.str idx pos → parser.parseString idx =
      .ok (.str ((parser.str.drop (idx + 1)).take (pos - (idx + 1))), pos + 1)) ∧
    ((∃ error, parser.parseString idx = .error (.thrown error)) ↔
      ∀ pos, ¬ Closes parser.str idx pos) ∧
    (∀ pos, idx < pos → ∀ read ∈ escReads parser.str (pos - 1), (idx : Int) ≤ read) := by
  refine ⟨fun pos => parseString_of_closesFirst enough, ⟨?_, ?_⟩, ?_⟩
  · rintro ⟨error, thrown⟩
    rcases @parseString_spec Double parser idx enough with ⟨pos, -, read⟩ | ⟨never, -⟩
    · rw [read] at thrown
      cases thrown
    · exact never
  · intro never
    rcases @parseString_spec Double parser idx enough with ⟨pos, closes, -⟩ | ⟨-, thrown⟩
    · exact absurd closes.1 (never pos)
    · exact thrown
  · intro pos behind read member
    exact le_of_mem_escReads opening (by omega) member

theorem parseString_scans_escapes :
    let parser : Parser Unit :=
      ⟨[quote, backslash, quote, backslash, backslash, quote], fun _ => (), reject, 7⟩
    parser.parseString 0 = .ok (.str [backslash, quote, backslash, backslash], 6) := by
  intro parser
  have raw : RawText [backslash, quote, backslash, backslash] := by decide
  exact (@parseString_scans Unit parser 0 rfl (by decide)).1 5 (closesFirst_of_raw raw rfl)

end Parser

end Bitdb.Json
