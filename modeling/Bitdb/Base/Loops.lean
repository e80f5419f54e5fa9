import Mathlib.Data.List.Range
import Mathlib.Logic.Basic

/-! Counting loops: with a body that may fail, and that search for the last index. -/

set_option autoImplicit false

namespace Bitdb.Base

variable {σ : Type}

/-- `for (i = start; i < stop; ++i)`. -/
def forRange (start stop : Nat) (body : σ → Nat → Option σ) (state : σ) : Option σ :=
  (List.range' start (stop - start)).foldlM body state

theorem forRange_of_le {start stop : Nat} (done : stop ≤ start) (body : σ → Nat → Option σ)
    (state : σ) : forRange start stop body state = some state := by
  rw [forRange, Nat.sub_eq_zero_of_le done]
  rfl

theorem forRange_invariant {start stop : Nat} (body : σ → Nat → Option σ) (Inv : Nat → σ → Prop)
    (ordered : start ≤ stop) {first : σ} (begins : Inv start first)
    (turn : ∀ i state, start ≤ i → i < stop → Inv i state →
      ∃ reached, body state i = some reached ∧ Inv (i + 1) reached) :
    ∃ last, forRange start stop body first = some last ∧ Inv stop last := by
  unfold forRange
  obtain ⟨count, rfl⟩ := Nat.exists_eq_add_of_le ordered
  rw [Nat.add_sub_cancel_left]
  clear ordered
  induction count generalizing start first with
  | zero => exact ⟨first, rfl, begins⟩
  | succ count ih =>
    obtain ⟨middle, step, kept⟩ := turn start first (Nat.le_refl _) (by omega) begins
    have rest : start + 1 + count = start + (count + 1) := by omega
    obtain ⟨last, loop, done⟩ := ih kept (by
      intro i state low high holds
      exact turn i state (by omega) (by omega) holds)
    refine ⟨last, ?_, rest ▸ done⟩
    rw [List.range'_succ, List.foldlM_cons, step]
    exact loop

theorem foldl_range'_last {α : Type} (holds : Nat → Prop) [DecidablePred holds] (value : Nat → α)
    (start count : Nat) (initial : α) :
    ((List.range' start count).foldl
          (fun found i => if holds i then value i else found) initial = initial ∧
        ∀ i, start ≤ i → i < start + count → ¬ holds i) ∨
      ∃ i, start ≤ i ∧ i < start + count ∧ holds i ∧
        (List.range' start count).foldl
          (fun found i => if holds i then value i else found) initial = value i ∧
        ∀ j, start ≤ j → j < start + count → holds j → j ≤ i := by
  induction count with
  | zero => exact .inl ⟨rfl, fun i low high => by omega⟩
  | succ count ih =>
    rw [List.range'_1_concat, List.foldl_append, List.foldl_cons, List.foldl_nil]
    by_cases last : holds (start + count)
    · rw [if_pos last]
      exact .inr ⟨start + count, by omega, by omega, last, rfl, fun j _ high _ => by omega⟩
    · rw [if_neg last]
      have earlier {j : Nat} (high : j < start + (count + 1)) (here : holds j) :
          j < start + count := by
        by_contra beyond
        have same : j = start + count := by omega
        exact last (same ▸ here)
      rcases ih with ⟨same, without⟩ | ⟨i, low, high, here, found, greatest⟩
      · exact .inl ⟨same, fun j low high here => without j low (earlier high here) here⟩
      · exact .inr ⟨i, low, by omega, here, found,
          fun j lowJ highJ hereJ => greatest j lowJ (earlier highJ hereJ) hereJ⟩

inductive Halt (ε : Type) where
  | thrown (error : ε)
  | unfinished
  deriving DecidableEq, Repr

variable {ε α β : Type}

theorem ok_ne_error (value : α) (halt : Halt ε) :
    (.ok value : Except (Halt ε) α) ≠ .error halt := by
  rintro ⟨⟩

theorem thrown_ne_unfinished (error : ε) :
    (.error (.thrown error) : Except (Halt ε) α) ≠ .error .unfinished := by
  rintro ⟨⟩

def Ends (Good : α → Prop) : Except (Halt ε) α → Prop
  | .ok value => Good value
  | .error (.thrown _) => True
  | .error .unfinished => False

namespace Ends

variable {Good Wider : α → Prop} {Next : β → Prop} {run : Except (Halt ε) α}

variable (ends : Ends Good run)

include ends

theorem mono (wider : ∀ value, Good value → Wider value) : Ends Wider run := by
  match run with
  | .ok value => exact wider value ends
  | .error (.thrown _) => trivial
  | .error .unfinished => exact ends.elim

theorem bind {next : α → Except (Halt ε) β}
    (onward : ∀ value, Good value → Ends Next (next value)) : Ends Next (run >>= next) := by
  match run with
  | .ok value => exact onward value ends
  | .error (.thrown _) => trivial
  | .error .unfinished => exact ends.elim

theorem ne_unfinished : run ≠ .error .unfinished := by
  rintro rfl
  exact ends

theorem of_ok {value : α} (returned : run = .ok value) : Good value := by
  subst returned
  exact ends

end Ends

/-- The second run returns what the first returns. `allowed` are the stops that go together, and
behind a first stop in `free` the second run may do anything. -/
inductive Follows (free : Halt ε → Prop) (allowed : Halt ε → Halt ε → Prop) :
    Except (Halt ε) α → Except (Halt ε) α → Prop where
  | returns (value : α) : Follows free allowed (.ok value) (.ok value)
  | stops {first second : Halt ε} : allowed first second →
      Follows free allowed (.error first) (.error second)
  | free {stop : Halt ε} (run : Except (Halt ε) α) : free stop →
      Follows free allowed (.error stop) run

namespace Follows

variable {free : Halt ε → Prop} {allowed : Halt ε → Halt ε → Prop}
  {first second : Except (Halt ε) α}

theorem bind {firstNext secondNext : α → Except (Halt ε) β}
    (follows : Follows free allowed first second)
    (onward : ∀ value, Follows free allowed (firstNext value) (secondNext value)) :
    Follows free allowed (first >>= firstNext) (second >>= secondNext) := by
  cases follows with
  | returns value => exact onward value
  | stops pair => exact .stops pair
  | free _ stopped => exact .free _ stopped

theorem map (change : α → β) (follows : Follows free allowed first second) :
    Follows free allowed (change <$> first) (change <$> second) := by
  cases follows with
  | returns value => exact .returns _
  | stops pair => exact .stops pair
  | free _ stopped => exact .free _ stopped

theorem refl {run : Except (Halt ε) α} (same : ∀ stop, run = .error stop → allowed stop stop) :
    Follows free allowed run run := by
  cases run with
  | ok value => exact .returns value
  | error stop => exact .stops (same stop rfl)

theorem eq (follows : Follows (fun _ => False) Eq first second) : first = second := by
  cases follows with
  | returns => rfl
  | stops same => rw [same]
  | free _ none => exact none.elim

end Follows

/-- Fuel of a second run: the same, or more if the first may run out of it. -/
def Suffices (free : Halt ε → Prop) (first second : Nat) : Prop :=
  first = second ∨ first ≤ second ∧ free .unfinished

namespace Suffices

variable {free : Halt ε → Prop} {allowed : Halt ε → Halt ε → Prop} {first second : Nat}

theorem zero (enough : Suffices free 0 second) (stuck : allowed .unfinished .unfinished)
    (run : Nat → Except (Halt ε) α) (empty : run 0 = .error .unfinished) :
    Follows free allowed (.error .unfinished) (run second) := by
  rcases enough with rfl | ⟨-, stopped⟩
  · rw [empty]
    exact .stops stuck
  · exact .free _ stopped

theorem succ (enough : Suffices free (first + 1) second) :
    ∃ less, second = less + 1 ∧ Suffices free first less := by
  rcases enough with rfl | ⟨fewer, stopped⟩
  · exact ⟨first, rfl, .inl rfl⟩
  · exact ⟨second - 1, by omega, .inr ⟨by omega, stopped⟩⟩

end Suffices

/-- With more fuel a run does the same, or has come to its end. -/
abbrev Approximates : Except (Halt ε) α → Except (Halt ε) α → Prop := Follows (· = .unfinished) Eq

theorem Approximates.eq_or {first second : Except (Halt ε) α}
    (approximates : Approximates first second) : first = .error .unfinished ∨ first = second := by
  cases approximates with
  | returns => exact .inr rfl
  | stops same => exact .inr (same ▸ rfl)
  | free _ stopped => exact .inl (stopped ▸ rfl)

theorem Approximates.eq_of_ended {first second last : Except (Halt ε) α}
    (before : Approximates first last) (other : Approximates second last)
    (ended : second ≠ .error .unfinished) : first = .error .unfinished ∨ first = second :=
  before.eq_or.imp_right fun same => same.trans (other.eq_or.resolve_left ended).symm

end Bitdb.Base
