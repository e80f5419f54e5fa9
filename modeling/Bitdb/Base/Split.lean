import Mathlib.Data.List.Basic
import Mathlib.Data.List.Infix

/-! Cutting a list at every place where a pattern stands, and codes of which no word begins another. -/

set_option autoImplicit false

namespace Bitdb.Base

open List

variable {α : Type}

/-- The first place of `pattern` in a list that goes on with `before ++ pattern` is after
`before`. -/
def Leads (pattern before : List α) : Prop :=
  ∀ place < before.length, ¬ pattern <+: (before ++ pattern).drop place

theorem leads_nil (pattern : List α) : Leads pattern [] := by
  intro place inside
  cases inside

variable {pattern before : List α} {parts : List (List α)}

theorem leads_cons {first : α} :
    Leads pattern (first :: before) ↔
      ¬ pattern <+: first :: (before ++ pattern) ∧ Leads pattern before := by
  constructor
  · intro leads
    refine ⟨leads 0 (Nat.zero_lt_succ _), ?_⟩
    intro place inside
    exact leads (place + 1) (Nat.succ_lt_succ inside)
  · intro ⟨notHere, later⟩ place inside
    cases place with
    | zero => exact notHere
    | succ place => exact later place (Nat.lt_of_succ_lt_succ inside)

theorem leads_singleton {separator : α} : Leads [separator] before ↔ separator ∉ before := by
  induction before with
  | nil => simp [leads_nil]
  | cons first before ih => simp [leads_cons, ih]

theorem Leads.not_infix (leads : Leads pattern before) (nonempty : pattern ≠ []) :
    ¬ pattern <:+: before := by
  intro ⟨left, right, whole⟩
  have inside : left.length < before.length := by
    have positive := length_pos_iff.mpr nonempty
    simp only [← whole, length_append]
    omega
  apply leads left.length inside
  simp only [← whole, append_assoc, drop_left]
  exact prefix_append _ _

theorem Leads.not_isPrefix {first : α} (leads : Leads pattern (first :: before)) (after : List α) :
    ¬ pattern <+: first :: (before ++ pattern ++ after) := by
  intro ahead
  apply (leads_cons.mp leads).1
  apply prefix_of_prefix_length_le ahead
  · exact ⟨after, by simp⟩
  · simp only [length_cons, length_append]
    omega

variable [DecidableEq α]

def occurrence (pattern : List α) : List α → Option Nat
  | [] => if pattern = [] then some 0 else none
  | first :: rest =>
    if pattern.isPrefixOf (first :: rest) then some 0
    else (occurrence pattern rest).map (· + 1)

theorem occurrence_of_prefix {text : List α} (here : pattern <+: text) :
    occurrence pattern text = some 0 := by
  cases text with
  | nil => simp [occurrence, prefix_nil.mp here]
  | cons first rest => simp [occurrence, here]

theorem occurrence_append (leads : Leads pattern before) (after : List α) :
    occurrence pattern (before ++ pattern ++ after) = some before.length := by
  induction before with
  | nil => exact occurrence_of_prefix (prefix_append _ _)
  | cons first before ih =>
    have notAhead := leads.not_isPrefix after
    simp only [cons_append, occurrence, isPrefixOf_iff_prefix, notAhead, if_false,
      ih (leads_cons.mp leads).2, Option.map_some, length_cons]

theorem occurrence_eq_none_iff {text : List α} :
    occurrence pattern text = none ↔ ¬ pattern <:+: text := by
  induction text with
  | nil => simp [occurrence]
  | cons first rest ih =>
    by_cases here : pattern <+: first :: rest
    · simp [occurrence, here, infix_cons_iff]
    · simp [occurrence, here, infix_cons_iff, ih]

theorem of_occurrence {text : List α} {place : Nat} (found : occurrence pattern text = some place) :
    ∃ before after, text = before ++ pattern ++ after ∧ before.length = place ∧
      Leads pattern before := by
  induction text generalizing place with
  | nil =>
    simp only [occurrence] at found
    split at found
    case isTrue empty =>
      refine ⟨[], [], by simp [empty], ?_, leads_nil pattern⟩
      exact Option.some.inj found
    case isFalse => cases found
  | cons first rest ih =>
    simp only [occurrence, isPrefixOf_iff_prefix] at found
    split at found
    case isTrue here =>
      obtain ⟨after, whole⟩ := here
      exact ⟨[], after, whole.symm, Option.some.inj found, leads_nil pattern⟩
    case isFalse notHere =>
      obtain ⟨later, foundLater, rfl⟩ := Option.map_eq_some_iff.mp found
      obtain ⟨before, after, rfl, rfl, leads⟩ := ih foundLater
      refine ⟨first :: before, after, rfl, rfl, leads_cons.mpr ⟨?_, leads⟩⟩
      intro ahead
      exact notHere (ahead.trans ⟨after, by simp⟩)

/-- The parts between the places of `pattern`, taken from the left. -/
inductive Splits (pattern : List α) : List α → List (List α) → Prop where
  | last {text} : ¬ pattern <:+: text → Splits pattern text [text]
  | part {before after parts} : Leads pattern before → Splits pattern after parts →
      Splits pattern (before ++ pattern ++ after) (before :: parts)

omit [DecidableEq α] in
theorem Splits.ne_nil {text : List α} (splits : Splits pattern text parts) : parts ≠ [] := by
  cases splits <;> exact cons_ne_nil _ _

omit [DecidableEq α] in
theorem Splits.intercalate_eq {text : List α} (splits : Splits pattern text parts) :
    pattern.intercalate parts = text := by
  induction splits with
  | last => simp [List.intercalate]
  | @part before after parts _ later ih =>
    cases parts with
    | nil => exact absurd rfl later.ne_nil
    | cons next parts =>
      rw [← ih]
      simp [List.intercalate]

omit [DecidableEq α] in
theorem Splits.not_infix {text : List α} (splits : Splits pattern text parts)
    (nonempty : pattern ≠ []) : ∀ part ∈ parts, ¬ pattern <:+: part := by
  induction splits with
  | last absent => simpa using absent
  | part leads _ ih => exact forall_mem_cons.mpr ⟨leads.not_infix nonempty, ih⟩

omit [DecidableEq α] in
theorem Splits.of_nil (nonempty : pattern ≠ []) (splits : Splits pattern [] parts) :
    parts = [[]] := by
  generalize whole : ([] : List α) = text at splits
  cases splits with
  | last => rw [← whole]
  | part => simp_all

omit [DecidableEq α] in
theorem Splits.first_eq_iff {text first : List α} {others : List (List α)}
    (splits : Splits pattern text (first :: others)) (nonempty : pattern ≠ []) :
    first = text ↔ ¬ pattern <:+: text := by
  cases splits with
  | last absent => simpa using absent
  | part leads later =>
    simp only [append_assoc, self_eq_append_right, append_eq_nil_iff, nonempty,
      false_and, false_iff, not_not]
    exact ⟨first, _, append_assoc _ _ _⟩

theorem Splits.length_singleton {separator : α} {text : List α}
    (splits : Splits [separator] text parts) : parts.length = text.count separator + 1 := by
  induction splits with
  | last absent =>
    rw [count_eq_zero.mpr]
    · rfl
    · intro member
      exact absent ((singleton_infix_iff _ _).mpr member)
  | part leads _ ih =>
    have absent := count_eq_zero.mpr (leads_singleton.mp leads)
    simp only [length_cons, ih, count_append, absent, count_singleton_self]
    omega

theorem exists_splits (nonempty : pattern ≠ []) (text : List α) :
    ∃ parts, Splits pattern text parts := by
  induction measured : text.length using Nat.strong_induction_on generalizing text with
  | _ bound ih =>
    cases found : occurrence pattern text with
    | none => exact ⟨[text], .last (occurrence_eq_none_iff.mp found)⟩
    | some place =>
      obtain ⟨before, after, rfl, -, leads⟩ := of_occurrence found
      have shorter : after.length < bound := by
        have positive := length_pos_iff.mpr nonempty
        simp only [← measured, length_append]
        omega
      obtain ⟨parts, later⟩ := ih after.length shorter after rfl
      exact ⟨before :: parts, .part leads later⟩

variable {α β : Type}

/-- Two texts that begin with words and are the same begin with the same word. -/
def PrefixFree (word : α → List β) (valid : α → Prop) : Prop :=
  ∀ first second behindFirst behindSecond, valid first → valid second →
    word first ++ behindFirst = word second ++ behindSecond →
      first = second ∧ behindFirst = behindSecond

theorem PrefixFree.split {word : α → List β} {valid : α → Prop} (free : PrefixFree word valid)
    (nonempty : ∀ letter, word letter ≠ []) {front whole : List α} {rest : List β}
    (frontValid : ∀ letter ∈ front, valid letter) (wholeValid : ∀ letter ∈ whole, valid letter)
    (same : front.flatMap word ++ rest = whole.flatMap word) :
    ∃ back, whole = front ++ back ∧ rest = back.flatMap word := by
  induction front generalizing whole with
  | nil => exact ⟨whole, rfl, same⟩
  | cons letter front ih =>
    rw [forall_mem_cons] at frontValid
    cases whole with
    | nil =>
      have empty : word letter = [] := by
        rw [flatMap_cons, append_assoc, flatMap_nil] at same
        exact (append_eq_nil_iff.mp same).1
      exact absurd empty (nonempty letter)
    | cons other whole =>
      rw [forall_mem_cons] at wholeValid
      rw [flatMap_cons, flatMap_cons, append_assoc] at same
      obtain ⟨rfl, later⟩ := free _ _ _ _ frontValid.1 wholeValid.1 same
      obtain ⟨back, rfl, tail⟩ := ih frontValid.2 wholeValid.2 later
      exact ⟨back, rfl, tail⟩

end Bitdb.Base
