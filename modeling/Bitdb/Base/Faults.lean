import Bitdb.Base.Program

/-! Programs some of whose calls may fail: a run does what the run without faults does, or it is cut
short. -/

set_option autoImplicit false

namespace Bitdb.Base.Program

variable {φ σ τ ε α β : Type} {armed : φ → σ → σ}

/-- Armed with faults, the program ends as it does without them, or it stops early in one of
the given states. -/
def CutIn (armed : φ → σ → σ) (stops : σ → Prop) (program : Program σ ε α) (state : σ) : Prop :=
  ∀ faults, ∃ rest,
    program.run (armed faults state) = ((program.run state).1, armed rest (program.run state).2) ∨
      ∃ error reached, program.run (armed faults state) = (.error error, armed rest reached) ∧
        stops reached

variable {stops : σ → Prop} {program : Program σ ε α} {state : σ}

theorem CutIn.mono {wider : σ → Prop} (cut : CutIn armed stops program state)
    (weaker : ∀ reached, stops reached → wider reached) : CutIn armed wider program state := by
  intro faults
  obtain ⟨rest, same | ⟨error, reached, ran, stopped⟩⟩ := cut faults
  · exact ⟨rest, .inl same⟩
  · exact ⟨rest, .inr ⟨error, reached, ran, weaker reached stopped⟩⟩

theorem CutIn.steady (same : ∀ faults, program.run (armed faults state) =
      ((program.run state).1, armed faults (program.run state).2)) :
    CutIn armed stops program state :=
  fun faults => ⟨faults, .inl (same faults)⟩

theorem CutIn.bind {next : α → Program σ ε β} (first : CutIn armed stops program state)
    (later : ∀ value reached, program.run state = (.ok value, reached) →
      CutIn armed stops (next value) reached) : CutIn armed stops (program >>= next) state := by
  intro faults
  obtain ⟨rest, same | ⟨error, reached, ran, stopped⟩⟩ := first faults
  · cases begun : program.run state with
    | mk outcome middle =>
      rw [begun] at same
      cases outcome with
      | error error =>
        refine ⟨rest, .inl ?_⟩
        rw [run_bind_error same, run_bind_error begun]
      | ok value =>
        rw [run_bind_ok same, run_bind_ok begun]
        exact later value middle begun rest
  · exact ⟨rest, .inr ⟨error, reached, run_bind_error ran, stopped⟩⟩

theorem CutIn.stopped {faults : φ} {error : ε} {left : σ} (cut : CutIn armed stops program state)
    (succeeds : (program.run state).1.isOk = true)
    (ran : program.run (armed faults state) = (.error error, left)) :
    ∃ reached rest, left = armed rest reached ∧ stops reached := by
  obtain ⟨rest, same | ⟨_, reached, cutShort, here⟩⟩ := cut faults
  · rw [ran] at same
    rw [← (Prod.mk.inj same).1] at succeeds
    cases succeeds
  · rw [ran] at cutShort
    exact ⟨reached, rest, (Prod.mk.inj cutShort).2, here⟩

theorem CutIn.read_bind {next : σ → Program σ ε α}
    (same : ∀ faults, next (armed faults state) = next state)
    (later : CutIn armed stops (next state) state) :
    CutIn armed stops (Program.read >>= next) state := by
  intro faults
  rw [run_read_bind, run_read_bind, same]
  exact later faults

theorem CutIn.focus {inner : φ → τ → τ} {get : σ → τ} {set : τ → σ → σ} {wider : τ → Prop}
    {part : Program τ ε α} (cut : CutIn inner wider part (get state))
    (reads : ∀ faults, get (armed faults state) = inner faults (get state))
    (writes : ∀ faults rest reached, set (inner rest reached) (armed faults state) =
      armed rest (set reached state)) :
    CutIn armed (fun reached => ∃ piece, wider piece ∧ reached = set piece state)
      (Program.focus get set part) state := by
  intro faults
  have plain : part.run (get state) = ((part.run (get state)).1, (part.run (get state)).2) := rfl
  obtain ⟨rest, same | ⟨error, reached, ran, stopped⟩⟩ := cut faults
  · refine ⟨rest, .inl ?_⟩
    rw [← reads] at same
    rw [run_focus same, run_focus plain, writes]
  · refine ⟨rest, .inr ⟨error, set reached state, ?_, reached, stopped, rfl⟩⟩
    rw [← reads] at ran
    rw [run_focus ran, writes]

section Spends

variable {supply : Nat → σ → σ} {most : Nat}

/-- Supplied with more outcomes than it uses, the program ends as it does without them, and
it uses up at most so many. -/
def Spends (supply : Nat → σ → σ) (most : Nat) (program : Program σ ε α) (state : σ) : Prop :=
  ∀ calls, ∃ rest, calls ≤ rest ∧ program.run (supply (calls + most) state) =
      ((program.run state).1, supply rest (program.run state).2)

theorem Spends.steady (same : ∀ calls, program.run (supply calls state) =
      ((program.run state).1, supply calls (program.run state).2)) :
    Spends supply most program state :=
  fun calls => ⟨calls + most, Nat.le_add_right _ _, same _⟩

theorem Spends.bind (most more : Nat) {next : α → Program σ ε β}
    (first : Spends supply most program state)
    (later : ∀ value reached, program.run state = (.ok value, reached) →
      Spends supply more (next value) reached) :
    Spends supply (more + most) (program >>= next) state := by
  intro calls
  obtain ⟨rest, enough, same⟩ := first (calls + more)
  rw [Nat.add_assoc] at same
  cases begun : program.run state with
  | mk outcome middle =>
    rw [begun] at same
    cases outcome with
    | error error =>
      refine ⟨rest, by omega, ?_⟩
      rw [run_bind_error same, run_bind_error begun]
    | ok value =>
      rw [run_bind_ok same, run_bind_ok begun]
      obtain ⟨left, few, ran⟩ := later value middle begun (rest - more)
      rw [Nat.sub_add_cancel (by omega)] at ran
      exact ⟨left, by omega, ran⟩

theorem Spends.focus {inner : Nat → τ → τ} {get : σ → τ} {set : τ → σ → σ} {part : Program τ ε α}
    (spends : Spends inner most part (get state))
    (reads : ∀ calls, get (supply calls state) = inner calls (get state))
    (writes : ∀ calls rest reached, set (inner rest reached) (supply calls state) =
      supply rest (set reached state)) : Spends supply most (Program.focus get set part) state := by
  intro calls
  have plain : part.run (get state) = ((part.run (get state)).1, (part.run (get state)).2) := rfl
  obtain ⟨rest, enough, same⟩ := spends calls
  refine ⟨rest, enough, ?_⟩
  rw [← reads] at same
  rw [run_focus same, run_focus plain, writes]

end Spends

end Bitdb.Base.Program
