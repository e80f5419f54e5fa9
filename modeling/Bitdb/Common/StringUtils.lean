import Bitdb.Base.Split
import Bitdb.Utils.Bytes
import Mathlib.Algebra.GroupWithZero.Nat

/-! String helpers (`bitdb/common/string_utils.cpp`). A `std::string_view` is the list of its bytes,
`find` is `Base.occurrence`, and sizes do not overflow. -/

set_option autoImplicit false

namespace Bitdb.StringUtils

open Base List

/-- `JoinImpl`. The size is computed for `reserve`, and a size of zero ends it early. -/
def join (parts : List (List Byte)) (delim : List Byte) : List Byte :=
  let size := (parts.map fun item => item.length + delim.length).sum
  if size = 0 then []
  else
    match parts with
    | [] => []
    | first :: rest => rest.foldl (fun result item => result ++ delim ++ item) first

/-- `substr(0, pos)`, where `none` is `npos`. -/
def substrTo (str : List Byte) (pos : Option Nat) : List Byte :=
  pos.elim str str.take

/-- The loop of `Split`; `none` if it has not ended after `turns` turns. -/
def splitLoop (delim : List Byte) (keepEmpty : Bool) :
    Nat → List Byte → List (List Byte) → Option (List (List Byte))
  | 0, _, _ => none
  | turns + 1, current, result =>
    let pos := occurrence delim current
    let result :=
      if pos ≠ some 0 ∨ keepEmpty then result ++ [substrTo current pos] else result
    match pos with
    | none => some result
    | some pos =>
      let current := current.drop (pos + delim.length)
      if current.isEmpty then
        if keepEmpty then some (result ++ [[]]) else some result
      else splitLoop delim keepEmpty turns current result

def splitWithin (turns : Nat) (str delim : List Byte) (keepEmpty : Bool) :
    Option (List (List Byte)) :=
  if str.isEmpty then some [] else splitLoop delim keepEmpty turns str []

/-- `Split`. With a non-empty delimiter every turn shortens the text, so that one turn more than it
has bytes is enough; the callers' delimiters are all fixed and non-empty. -/
def split (str delim : List Byte) (keepEmpty : Bool) : List (List Byte) :=
  (splitWithin (str.length + 1) str delim keepEmpty).getD []

def contains (str target : List Byte) : Bool :=
  if str = target then true
  else if str.isEmpty then false
  else if target.isEmpty then true
  else occurrence target str ≠ none

def endsWith (str suffix : List Byte) : Bool :=
  suffix.length ≤ str.length ∧ str.drop (str.length - suffix.length) = suffix

theorem foldl_join (delim : List Byte) (rest : List (List Byte)) (first : List Byte) :
    rest.foldl (fun result item => result ++ delim ++ item) first =
      delim.intercalate (first :: rest) := by
  induction rest generalizing first with
  | nil => simp [List.intercalate]
  | cons next rest ih =>
    rw [foldl_cons, ih]
    cases rest <;> simp [List.intercalate]

theorem length_foldl_join (delim : List Byte) (rest : List (List Byte)) (first : List Byte) :
    (rest.foldl (fun result item => result ++ delim ++ item) first).length =
      first.length + (rest.map fun item => item.length + delim.length).sum := by
  induction rest generalizing first with
  | nil => simp
  | cons next rest ih =>
    simp only [foldl_cons, ih, length_append, map_cons, sum_cons]
    omega

/-- The early end for a size of zero makes no difference: nothing would have been appended. -/
theorem join_eq_intercalate (parts : List (List Byte)) (delim : List Byte) :
    join parts delim = delim.intercalate parts := by
  cases parts with
  | nil => simp [join, List.intercalate]
  | cons first rest =>
    rw [← foldl_join]
    simp only [join, map_cons, sum_cons]
    split
    case isTrue zero =>
      apply Eq.symm
      apply eq_nil_of_length_eq_zero
      rw [length_foldl_join]
      omega
    case isFalse => rfl

def kept (keepEmpty : Bool) (parts : List (List Byte)) : List (List Byte) :=
  parts.filter fun part => keepEmpty || !part.isEmpty

@[simp] theorem kept_true (parts : List (List Byte)) : kept true parts = parts := by
  simp [kept]

theorem kept_false (parts : List (List Byte)) :
    kept false parts = parts.filter fun part => !part.isEmpty := by
  simp [kept]

theorem kept_cons (keepEmpty : Bool) (part : List Byte) (parts : List (List Byte)) :
    kept keepEmpty (part :: parts) =
      (if part ≠ [] ∨ keepEmpty then [part] else []) ++ kept keepEmpty parts := by
  cases part <;> cases keepEmpty <;> simp [kept]

variable {parts : List (List Byte)}

variable {delim str : List Byte}

section

variable (nonempty : delim ≠ [])

include nonempty

theorem splitLoop_of_splits (keepEmpty : Bool) {current : List Byte}
    (splits : Splits delim current parts) (some_left : current ≠ []) {turns : Nat}
    (enough : current.length < turns) (result : List (List Byte)) :
    splitLoop delim keepEmpty turns current result = some (result ++ kept keepEmpty parts) := by
  induction splits generalizing turns result with
  | @last text absent =>
    obtain ⟨turns, rfl⟩ := Nat.exists_eq_succ_of_ne_zero (Nat.ne_of_gt (Nat.zero_lt_of_lt enough))
    simp [splitLoop, occurrence_eq_none_iff.mpr absent, substrTo, kept, some_left]
  | @part before after parts leads later ih =>
    obtain ⟨turns, rfl⟩ := Nat.exists_eq_succ_of_ne_zero (Nat.ne_of_gt (Nat.zero_lt_of_lt enough))
    have positive := length_pos_iff.mpr nonempty
    have first : substrTo (before ++ delim ++ after) (some before.length) = before := by
      simp [substrTo, append_assoc]
    have rest : (before ++ delim ++ after).drop (before.length + delim.length) = after := by
      rw [← length_append, drop_left]
    have begins : some before.length ≠ some 0 ↔ before ≠ [] := by simp
    simp only [splitLoop, occurrence_append leads, first, rest, begins]
    by_cases ended : after = []
    · subst ended
      obtain rfl := later.of_nil nonempty
      rw [kept_cons]
      cases keepEmpty <;> simp [kept]
      split <;> simp
    · have fewer : after.length < turns := by
        simp only [length_append] at enough
        omega
      rw [if_neg (by simpa using ended), ih ended fewer, kept_cons]
      split <;> simp

theorem splitWithin_of_splits (keepEmpty : Bool) (splits : Splits delim str parts)
    (some_left : str ≠ []) {turns : Nat} (enough : str.length < turns) :
    splitWithin turns str delim keepEmpty = some (kept keepEmpty parts) := by
  rw [splitWithin, if_neg (by simpa using some_left)]
  exact splitLoop_of_splits nonempty keepEmpty splits some_left enough []

theorem split_of_splits (keepEmpty : Bool) (splits : Splits delim str parts)
    (some_left : str ≠ []) : split str delim keepEmpty = kept keepEmpty parts := by
  rw [split, splitWithin_of_splits nonempty keepEmpty splits some_left (Nat.lt_succ_self _)]
  rfl

theorem split_false_of_splits (splits : Splits delim str parts) :
    split str delim false = kept false parts := by
  by_cases empty : str = []
  · subst empty
    obtain rfl := splits.of_nil nonempty
    rfl
  · exact split_of_splits nonempty false splits empty

end

@[simp] theorem split_nil (delim : List Byte) (keepEmpty : Bool) : split [] delim keepEmpty = [] :=
  rfl

theorem contains_iff {target : List Byte} : contains str target ↔ target <:+: str := by
  unfold contains
  split
  case isTrue equal => simp [equal]
  case isFalse different =>
    cases str with
    | nil => simp [Ne.symm different]
    | cons first str =>
      cases target with
      | nil => simp
      | cons initial target => simp [occurrence_eq_none_iff]

/-- `Split` ends, and it is undone by `Join`. -/
theorem split_join_inverse (str delim : List Byte) (nonempty : delim ≠ []) (turns : Nat)
    (enough : str.length < turns) :
    ∃ parts, splitWithin turns str delim true = some parts ∧
      splitWithin turns str delim false = some (parts.filter fun part => !part.isEmpty) ∧
      join parts delim = str ∧ ∀ part ∈ parts, ¬ delim <:+: part := by
  cases str with
  | nil => exact ⟨[], rfl, rfl, rfl, by simp⟩
  | cons first rest =>
    obtain ⟨parts, splits⟩ := exists_splits nonempty (first :: rest)
    have some_left : first :: rest ≠ [] := cons_ne_nil _ _
    refine ⟨parts, ?_, ?_, ?_, splits.not_infix nonempty⟩
    · rw [splitWithin_of_splits nonempty true splits some_left enough, kept_true]
    · rw [splitWithin_of_splits nonempty false splits some_left enough, kept_false]
    · rw [join_eq_intercalate, splits.intercalate_eq]

theorem split_join_inverse_overlapping :
    ∃ parts, splitWithin 6 [97, 97, 97, 98, 97] [97, 97] true = some parts ∧
      splitWithin 6 [97, 97, 97, 98, 97] [97, 97] false =
        some (parts.filter fun part => !part.isEmpty) ∧
      join parts [97, 97] = [97, 97, 97, 98, 97] ∧ ∀ part ∈ parts, ¬ [97, 97] <:+: part :=
  split_join_inverse [97, 97, 97, 98, 97] [97, 97] (by decide) 6 (by decide)

end Bitdb.StringUtils
