import Mathlib.Logic.Basic

/-! Runs of a labelled transition relation, and machines that an endless schedule drives. -/

set_option autoImplicit false

namespace Bitdb.Base

variable {σ ε : Type}

inductive Run (Step : σ → ε → σ → Prop) : σ → List ε → σ → Prop where
  | nil (state : σ) : Run Step state [] state
  | cons {first middle last : σ} {event : ε} {rest : List ε} (step : Step first event middle)
      (later : Run Step middle rest last) : Run Step first (event :: rest) last

namespace Run

variable {Step : σ → ε → σ → Prop}

theorem invariant (Inv : List ε → σ → Prop)
    (kept : ∀ history state event reached, Inv history state → Step state event reached →
      Inv (history ++ [event]) reached)
    {first last : σ} {events : List ε} (history : List ε) (start : Inv history first)
    (run : Run Step first events last) : Inv (history ++ events) last := by
  induction run generalizing history with
  | nil state => simpa using start
  | cons step later ih =>
    have rest := ih _ (kept _ _ _ _ start step)
    simpa using rest

theorem snoc {first middle last : σ} {events : List ε} {event : ε}
    (run : Run Step first events middle) (step : Step middle event last) :
    Run Step first (events ++ [event]) last := by
  induction run with
  | nil state => exact .cons step (.nil last)
  | cons earlier later ih => exact .cons earlier (ih step)

theorem exists_of_foldlM_of_valid {next : σ → ε → Option σ} {Valid : σ → Prop}
    (steps : ∀ state event reached, Valid state → next state event = some reached →
      Step state event reached ∧ Valid reached) (first : σ) (valid : Valid first) (events : List ε)
    (check : σ → Bool) (found : (events.foldlM next first).any check = true) :
    ∃ last, Run Step first events last ∧ check last = true := by
  induction events generalizing first with
  | nil => exact ⟨first, .nil first, found⟩
  | cons event events ih =>
    rw [List.foldlM_cons] at found
    cases taken : next first event with
    | none => simp [taken] at found
    | some middle =>
      rw [taken] at found
      obtain ⟨step, still⟩ := steps _ _ _ valid taken
      obtain ⟨last, ran, checked⟩ := ih middle still found
      exact ⟨last, .cons step ran, checked⟩

theorem exists_of_foldlM {next : σ → ε → Option σ}
    (steps : ∀ state event reached, next state event = some reached → Step state event reached)
    (first : σ) (events : List ε) (check : σ → Bool)
    (found : (events.foldlM next first).any check = true) :
    ∃ last, Run Step first events last ∧ check last = true := by
  have kept : ∀ state event reached, True → next state event = some reached →
      Step state event reached ∧ True :=
    fun state event reached _ taken => ⟨steps state event reached taken, trivial⟩
  exact exists_of_foldlM_of_valid kept first trivial events check found

end Run

variable {σ ε : Type} {step : ε → σ → σ} {schedule : Nat → ε} {start : σ}

def drive (step : ε → σ → σ) (schedule : Nat → ε) (start : σ) : Nat → σ
  | 0 => start
  | turn + 1 => step (schedule turn) (drive step schedule start turn)

theorem drive_invariant (Inv : σ → Prop)
    (kept : ∀ turn state, Inv state → Inv (step (schedule turn) state)) {first : Nat}
    (begins : Inv (drive step schedule start first)) {turn : Nat} (later : first ≤ turn) :
    Inv (drive step schedule start turn) := by
  induction later with
  | refl => exact begins
  | step _ ih => exact kept _ _ ih

theorem drive_settled {first second : σ} (firstStays : ∀ event, step event first = first)
    (secondStays : ∀ event, step event second = second) {turn other : Nat}
    (reached : drive step schedule start turn = first)
    (otherReached : drive step schedule start other = second) : first = second := by
  have held := drive_invariant (· = first) (fun turn state same => by rw [same, firstStays]) reached
    (Nat.le_max_left turn other)
  have otherHeld := drive_invariant (· = second)
    (fun turn state same => by rw [same, secondStays]) otherReached (Nat.le_max_right turn other)
  exact held.symm.trans otherHeld

/-- What no turn raises and what the good turns lower brings the machine to its end, if good
turns come again and again. -/
theorem drive_reaches (Inv Done : σ → Prop) (good : ε → Prop) (measure : σ → Nat)
    (turns : ∀ turn state, Inv state → Inv (step (schedule turn) state) ∧
      measure (step (schedule turn) state) ≤ measure state ∧
      (¬ Done state → good (schedule turn) → measure (step (schedule turn) state) < measure state))
    (fair : ∀ turn, ∃ later, turn ≤ later ∧ good (schedule later)) {first : Nat}
    (begins : Inv (drive step schedule start first)) :
    ∃ turn, Inv (drive step schedule start turn) ∧ Done (drive step schedule start turn) := by
  -- Induction on the measure, from any turn on.
  generalize bound : measure (drive step schedule start first) = height
  induction height using Nat.strongRecOn generalizing first with
  | _ height ih =>
    obtain ⟨later, after, helps⟩ := fair first
    obtain ⟨holds, below⟩ := drive_invariant
      (fun state => Inv state ∧ measure state ≤ height)
      (fun turn state held => ⟨(turns turn state held.1).1,
        Nat.le_trans (turns turn state held.1).2.1 held.2⟩)
      ⟨begins, Nat.le_of_eq bound⟩ after
    by_cases done : Done (drive step schedule start later)
    · exact ⟨later, holds, done⟩
    · obtain ⟨next, -, less⟩ := turns later _ holds
      have onward : Inv (drive step schedule start (later + 1)) := next
      exact ih _ (Nat.lt_of_lt_of_le (less done helps) below) onward rfl

end Bitdb.Base
