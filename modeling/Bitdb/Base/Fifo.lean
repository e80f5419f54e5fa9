import Mathlib.Data.List.Basic

/-! First-in-first-out queues, and machines that should behave like one. -/

set_option autoImplicit false

namespace Bitdb.Base

inductive FifoCall (α : Type) where
  | push (value : α)
  | tryPop
  deriving DecidableEq, Repr

variable {α σ ε : Type}

theorem of_getElem?_concat {unread : List α} {value held : α} {offset : Nat}
    (found : (unread ++ [value])[offset]? = some held) :
    offset = unread.length ∧ held = value ∨ offset < unread.length ∧ unread[offset]? = some held := by
  rw [List.getElem?_append] at found
  split at found
  case isTrue near => exact .inr ⟨near, found⟩
  case isFalse beyond =>
    obtain ⟨inside, same⟩ := List.getElem?_eq_some_iff.mp found
    simp only [List.length_singleton] at inside
    simp only [List.getElem_singleton] at same
    exact .inl ⟨by omega, same.symm⟩

namespace Fifo

/-- What the calls of `tryPop` answer, when `unread` is in the queue. -/
def answers : List α → List (FifoCall α) → List (Option α)
  | _, [] => []
  | unread, .push value :: calls => answers (unread ++ [value]) calls
  | [], .tryPop :: calls => none :: answers [] calls
  | value :: unread, .tryPop :: calls => some value :: answers unread calls

def Bounded (limit : Nat) : List α → List (FifoCall α) → Prop
  | _, [] => True
  | unread, .push value :: calls => unread.length < limit ∧ Bounded limit (unread ++ [value]) calls
  | [], .tryPop :: calls => Bounded limit [] calls
  | _ :: unread, .tryPop :: calls => Bounded limit unread calls

def pushed (calls : List (FifoCall α)) : List α :=
  calls.filterMap fun
    | .push value => some value
    | .tryPop => none

@[simp] theorem pushed_push (value : α) (calls : List (FifoCall α)) :
    pushed (.push value :: calls) = value :: pushed calls := rfl

@[simp] theorem pushed_tryPop (calls : List (FifoCall α)) :
    pushed (.tryPop :: calls) = pushed calls := rfl

theorem pushed_replicate (count : Nat) (value : α) :
    pushed (List.replicate count (.push value)) = List.replicate count value := by
  induction count with
  | zero => rfl
  | succ count ih => rw [List.replicate_succ, pushed_push, ih, List.replicate_succ]

end Fifo

structure FifoMachine (σ ε α : Type) where
  push : σ → α → Except ε σ
  tryPop : σ → Except ε (Option α × σ)

namespace FifoMachine

def answers (machine : FifoMachine σ ε α) : σ → List (FifoCall α) → Except ε (List (Option α))
  | _, [] => .ok []
  | state, .push value :: calls => do
      let next ← machine.push state value
      machine.answers next calls
  | state, .tryPop :: calls => do
      let (answer, next) ← machine.tryPop state
      let later ← machine.answers next calls
      .ok (answer :: later)

variable {machine : FifoMachine σ ε α} {calls : List (FifoCall α)}

theorem of_answers_push {state : σ} {value : α} {answers : List (Option α)}
    (run : machine.answers state (.push value :: calls) = .ok answers) :
    ∃ next, machine.push state value = .ok next ∧ machine.answers next calls = .ok answers := by
  cases step : machine.push state value with
  | error halt =>
    rw [FifoMachine.answers, step] at run
    cases run
  | ok next =>
    rw [FifoMachine.answers, step] at run
    exact ⟨next, rfl, run⟩

theorem of_answers_tryPop {state : σ} {answers : List (Option α)}
    (run : machine.answers state (.tryPop :: calls) = .ok answers) :
    ∃ answer next later, machine.tryPop state = .ok (answer, next) ∧
      machine.answers next calls = .ok later ∧ answers = answer :: later := by
  cases step : machine.tryPop state with
  | error halt =>
    rw [FifoMachine.answers, step] at run
    cases run
  | ok popped =>
    rw [FifoMachine.answers, step] at run
    cases rest : machine.answers popped.2 calls with
    | error halt =>
      simp only [bind, Except.bind, rest] at run
      cases run
    | ok later =>
      simp only [bind, Except.bind, rest, Except.ok.injEq] at run
      exact ⟨popped.1, popped.2, later, rfl, rest, run.symm⟩

theorem answers_eq (Related : σ → List α → List (FifoCall α) → Prop)
    (push : ∀ state unread value calls, Related state unread (.push value :: calls) →
      ∃ next, machine.push state value = .ok next ∧ Related next (unread ++ [value]) calls)
    (empty : ∀ state calls, Related state [] (.tryPop :: calls) →
      ∃ next, machine.tryPop state = .ok (none, next) ∧ Related next [] calls)
    (pop : ∀ state value unread calls, Related state (value :: unread) (.tryPop :: calls) →
      ∃ next, machine.tryPop state = .ok (some value, next) ∧ Related next unread calls) {state : σ}
    {unread : List α} (related : Related state unread calls) :
    machine.answers state calls = .ok (Fifo.answers unread calls) := by
  induction calls generalizing state unread with
  | nil => rfl
  | cons call calls ih =>
    cases call with
    | push value =>
      obtain ⟨next, step, kept⟩ := push _ _ _ _ related
      simp only [answers, step, Fifo.answers, ← ih kept]
      rfl
    | tryPop =>
      cases unread with
      | nil =>
        obtain ⟨next, step, kept⟩ := empty _ _ related
        simp only [answers, step, bind, Except.bind, ih kept, Fifo.answers]
      | cons value unread =>
        obtain ⟨next, step, kept⟩ := pop _ _ _ _ related
        simp only [answers, step, bind, Except.bind, ih kept, Fifo.answers]

end FifoMachine

end Bitdb.Base
