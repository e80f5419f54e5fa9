import Mathlib.Logic.Basic

/-! Programs over a mutable state that survives an early stop: whether a program returns a value or
stops with an error, the state it reached is kept. -/

set_option autoImplicit false

namespace Bitdb.Base

/-- A state transformer whose errors do not roll the state back. -/
def Program (σ ε α : Type) : Type := σ → Except ε α × σ

namespace Program

variable {σ τ ε α β : Type}

def run (program : Program σ ε α) (state : σ) : Except ε α × σ := program state

instance : Monad (Program σ ε) where
  pure value := fun state => (.ok value, state)
  bind program next := fun state =>
    match program state with
    | (.ok value, reached) => next value reached
    | (.error error, reached) => (.error error, reached)

def stop (error : ε) : Program σ ε α := fun state => (.error error, state)

def read : Program σ ε σ := fun state => (.ok state, state)

def modify (change : σ → σ) : Program σ ε Unit := fun state => (.ok (), change state)

def ofExcept (outcome : Except ε α) : Program σ ε α := fun state => (outcome, state)

def focus (get : σ → τ) (set : τ → σ → σ) (program : Program τ ε α) : Program σ ε α :=
  fun state =>
    match program (get state) with
    | (outcome, part) => (outcome, set part state)

/-- Run `cleanup` after `program` both when it returned and when it stopped with
an error selected by `caught`. Errors outside `caught` skip the cleanup. -/
def withCleanup (program : Program σ ε α) (caught : ε → Bool)
    (cleanup : Program σ ε Unit) : Program σ ε α := fun state =>
  match program state with
  | (.ok value, reached) => (cleanup >>= fun _ => pure value : Program σ ε α) reached
  | (.error error, reached) =>
    if caught error then (cleanup >>= fun _ => stop error : Program σ ε α) reached
    else (.error error, reached)

def forEach (items : List β) (body : β → Program σ ε Unit) : Program σ ε Unit :=
  match items with
  | [] => pure ()
  | item :: rest => do
      body item
      forEach rest body

@[simp] theorem run_pure (value : α) (state : σ) :
    (pure value : Program σ ε α).run state = (.ok value, state) := rfl

@[simp] theorem run_stop (error : ε) (state : σ) :
    (stop error : Program σ ε α).run state = (.error error, state) := rfl

@[simp] theorem run_modify (change : σ → σ) (state : σ) :
    (modify change : Program σ ε Unit).run state = (.ok (), change state) := rfl

@[simp] theorem run_ofExcept (outcome : Except ε α) (state : σ) :
    (ofExcept outcome : Program σ ε α).run state = (outcome, state) := rfl

theorem run_bind (program : Program σ ε α) (next : α → Program σ ε β) (state : σ) :
    (program >>= next).run state = match program.run state with
      | (.ok value, reached) => (next value).run reached
      | (.error error, reached) => (.error error, reached) := rfl

variable {program : Program σ ε α} {state reached : σ}

variable {next : α → Program σ ε β} {outcome : Except ε α} {caught : ε → Bool}
  {cleanup : Program σ ε Unit}

theorem run_bind_ok {value : α} (returned : program.run state = (.ok value, reached)) :
    (program >>= next).run state = (next value).run reached := by
  rw [run_bind, returned]

theorem run_bind_error {error : ε} (stopped : program.run state = (.error error, reached)) :
    (program >>= next).run state = (.error error, reached) := by
  rw [run_bind, stopped]

theorem run_of_outcome (ended : (program.run state).1 = outcome) :
    program.run state = (outcome, (program.run state).2) :=
  Prod.ext ended rfl

theorem ok_of_run_bind {value : β} (ran : (program >>= next).run state = (.ok value, reached)) :
    ∃ first middle, program.run state = (.ok first, middle) ∧
      (next first).run middle = (.ok value, reached) := by
  rw [run_bind] at ran
  cases begun : program.run state with
  | mk outcome middle =>
    rw [begun] at ran
    cases outcome with
    | error error => cases ran
    | ok first => exact ⟨first, middle, rfl, ran⟩

theorem ok_of_run_forEach {items : List β} {body : β → Program σ ε Unit}
    (ran : (forEach items body).run state = (.ok (), reached)) {item : β} (member : item ∈ items) :
    ∃ before after, (body item).run before = (.ok (), after) := by
  induction items generalizing state with
  | nil => cases member
  | cons first rest ih =>
    obtain ⟨_, middle, here, later⟩ := ok_of_run_bind ran
    rcases List.mem_cons.mp member with rfl | inside
    · exact ⟨state, middle, here⟩
    · exact ih later inside

theorem ok_of_run_withCleanup {value : α}
    (ran : (program.withCleanup caught cleanup).run state = (.ok value, reached)) :
    ∃ middle, program.run state = (.ok value, middle) ∧ cleanup.run middle = (.ok (), reached) := by
  simp only [run, withCleanup] at ran
  cases body : program state with
  | mk outcome middle =>
    rw [body] at ran
    cases outcome with
    | ok result =>
      obtain ⟨_, last, cleaned, returned⟩ := ok_of_run_bind ran
      cases returned
      exact ⟨middle, body, cleaned⟩
    | error error =>
      simp only at ran
      split at ran
      · obtain ⟨_, _, _, impossible⟩ := ok_of_run_bind ran
        cases impossible
      · cases ran

theorem run_withCleanup {middle last : σ} (ran : program.run state = (outcome, middle))
    (runs : ∀ error, outcome = .error error → caught error = true)
    (cleaned : cleanup.run middle = (.ok (), last)) :
    (program.withCleanup caught cleanup).run state = (outcome, last) := by
  simp only [run] at ran
  simp only [run, withCleanup, ran]
  cases outcome with
  | ok value => exact run_bind_ok cleaned
  | error error =>
    simp only [runs error rfl, ↓reduceIte]
    exact run_bind_ok cleaned

theorem run_withCleanup_skipped {middle : σ} {error : ε}
    (ran : program.run state = (.error error, middle)) (skipped : caught error = false) :
    (program.withCleanup caught cleanup).run state = (.error error, middle) := by
  simp only [run] at ran
  simp only [run, withCleanup, ran, skipped, Bool.false_eq_true, ↓reduceIte]

@[simp] theorem run_pure_bind (value : α) (next : α → Program σ ε β) (state : σ) :
    (pure value >>= next : Program σ ε β).run state = (next value).run state := rfl

@[simp] theorem run_read_bind (next : σ → Program σ ε β) (state : σ) :
    (read >>= next : Program σ ε β).run state = (next state).run state := rfl

@[simp] theorem run_modify_bind (change : σ → σ) (next : Unit → Program σ ε β) (state : σ) :
    (modify change >>= next : Program σ ε β).run state = (next ()).run (change state) := rfl

@[simp] theorem run_ofExcept_ok_bind (value : α) (next : α → Program σ ε β) (state : σ) :
    (ofExcept (.ok value) >>= next : Program σ ε β).run state = (next value).run state := rfl

@[simp] theorem run_ofExcept_error_bind (error : ε) (next : α → Program σ ε β) (state : σ) :
    (ofExcept (.error error) >>= next : Program σ ε β).run state = (.error error, state) := rfl

theorem run_focus {get : σ → τ} {set : τ → σ → σ} {program : Program τ ε α} {part : τ}
    (ran : program.run (get state) = (outcome, part)) :
    (focus get set program).run state = (outcome, set part state) := by
  simp only [run] at ran
  simp only [run, focus, ran]

theorem run_ite (condition : Prop) [Decidable condition] (yes no : Program σ ε α) (state : σ) :
    (if condition then yes else no).run state =
      if condition then yes.run state else no.run state := by
  split <;> rfl

/-- A relation between the states before and after is kept by every run of the
program, whether it returns or stops. -/
def Keeps (relation : σ → σ → Prop) (program : Program σ ε α) : Prop :=
  ∀ state, relation state (program.run state).2

section Keeps

variable {relation : σ → σ → Prop}

section

variable (refl : ∀ state, relation state state)

include refl

theorem Keeps.pure (value : α) :
    Keeps relation (Pure.pure value : Program σ ε α) := fun state => refl state

theorem Keeps.stop (error : ε) :
    Keeps relation (Program.stop error : Program σ ε α) := fun state => refl state

theorem Keeps.read : Keeps relation (Program.read : Program σ ε σ) := fun state => refl state

theorem Keeps.ofExcept (outcome : Except ε α) :
    Keeps relation (Program.ofExcept outcome : Program σ ε α) := fun state => refl state

end

theorem Keeps.modify {change : σ → σ} (changed : ∀ state, relation state (change state)) :
    Keeps relation (Program.modify change : Program σ ε Unit) := fun state => changed state

theorem Keeps.focus {part : τ → τ → Prop} {get : σ → τ} {set : τ → σ → σ}
    (lens : ∀ value state, get (set value state) = value) {program : Program τ ε α}
    (kept : Keeps part program) :
    Keeps (fun before after => part (get before) (get after)) (Program.focus get set program) := by
  intro state
  cases ran : program.run (get state) with
  | mk outcome reached =>
    have here := kept (get state)
    rw [ran] at here
    rw [run_focus ran, lens]
    exact here

theorem Keeps.bind (trans : ∀ a b c, relation a b → relation b c → relation a c)
    {program : Program σ ε α} {next : α → Program σ ε β} (first : Keeps relation program)
    (rest : ∀ value, Keeps relation (next value)) : Keeps relation (program >>= next) := by
  intro state
  have before := first state
  rw [run_bind]
  cases ran : program.run state with
  | mk outcome reached =>
    rw [ran] at before
    cases outcome with
    | error error => exact before
    | ok value => exact trans _ _ _ before (rest value reached)

theorem Keeps.ite {condition : Prop} [Decidable condition] {yes no : Program σ ε α}
    (whenTrue : condition → Keeps relation yes) (whenFalse : ¬ condition → Keeps relation no) :
    Keeps relation (if condition then yes else no) := by
  split
  · exact whenTrue ‹_›
  · exact whenFalse ‹_›

end Keeps

end Program

end Bitdb.Base
