import Mathlib.Data.List.Basic
import Mathlib.Logic.Function.Basic

/-! Journals of updates to a map. An entry takes effect at once, or waits for the end of its
transaction; deleting a key that is not there makes the replay fail. Journals whose transactions are
written in one piece each, wherever the journal is cut. -/

set_option autoImplicit false

namespace Bitdb.Base.Journal

open Function Option

variable {κ π : Type} [DecidableEq κ]

inductive Action (κ π : Type) where
  | put (key : κ) (payload : π)
  | delete (key : κ)

inductive Entry (κ π : Type) where
  | immediate (action : Action κ π)
  | queued (txn : Nat) (action : Action κ π)
  | finish (txn : Nat)

/-- The map so far, and the actions every open transaction has queued. -/
structure State (κ π : Type) where
  live : κ → Option π
  pending : Nat → List (Action κ π)

def State.empty : State κ π := ⟨fun _ => none, fun _ => []⟩

def Action.apply (live : κ → Option π) : Action κ π → Option (κ → Option π)
  | .put key payload => some (update live key (some payload))
  | .delete key => if (live key).isSome then some (update live key none) else none

def applyAll (live : κ → Option π) : List (Action κ π) → Option (κ → Option π)
  | [] => some live
  | action :: rest => (action.apply live).bind fun live => applyAll live rest

def State.step (state : State κ π) : Entry κ π → Option (State κ π)
  | .immediate action => (action.apply state.live).map fun live => { state with live }
  | .queued txn action =>
    some { state with
      pending := update state.pending txn (state.pending txn ++ [action]) }
  | .finish txn =>
    (applyAll state.live (state.pending txn)).map fun live =>
      ⟨live, update state.pending txn []⟩

def replay (state : State κ π) : List (Entry κ π) → Option (State κ π)
  | [] => some state
  | entry :: rest => (state.step entry).bind fun state => replay state rest

@[simp] theorem replay_nil (state : State κ π) : replay state [] = some state := rfl

theorem replay_append (state : State κ π) (front back : List (Entry κ π)) :
    replay state (front ++ back) = (replay state front).bind fun reached => replay reached back := by
  induction front generalizing state with
  | nil => rfl
  | cons entry front ih =>
    rw [List.cons_append, replay, replay]
    cases stepped : state.step entry with
    | none => rfl
    | some next => exact ih next

variable {state reached : State κ π}

theorem replay_front {front back : List (Entry κ π)}
    (ran : replay state (front ++ back) = some reached) :
    ∃ middle, replay state front = some middle ∧ replay middle back = some reached := by
  rw [replay_append] at ran
  exact bind_eq_some_iff.mp ran

/-- What an entry may put into the map, now or at the end of its transaction. -/
def Entry.Offers (key : κ) (payload : π) : Entry κ π → Prop
  | .immediate action => action = .put key payload
  | .queued _ action => action = .put key payload
  | .finish _ => False

theorem Action.apply_live {live reached : κ → Option π} {action : Action κ π} {key : κ}
    {payload : π} (ran : action.apply live = some reached) (found : reached key = some payload) :
    live key = some payload ∨ action = .put key payload := by
  cases action with
  | put other stored =>
    cases ran
    by_cases same : key = other
    · subst same
      rw [update_self] at found
      cases found
      exact .inr rfl
    · rw [update_of_ne same] at found
      exact .inl found
  | delete other =>
    rw [Action.apply] at ran
    split at ran
    · cases ran
      by_cases same : key = other
      · subst same
        rw [update_self] at found
        cases found
      · rw [update_of_ne same] at found
        exact .inl found
    · cases ran

theorem applyAll_live {live reached : κ → Option π} {actions : List (Action κ π)} {key : κ}
    {payload : π} (ran : applyAll live actions = some reached)
    (found : reached key = some payload) :
    live key = some payload ∨ .put key payload ∈ actions := by
  induction actions generalizing live with
  | nil =>
    cases ran
    exact .inl found
  | cons action rest ih =>
    obtain ⟨middle, first, later⟩ := bind_eq_some_iff.mp ran
    rcases ih later with before | member
    · rcases Action.apply_live first before with before | here
      · exact .inl before
      · exact .inr (by simp [here])
    · exact .inr (List.mem_cons_of_mem _ member)

structure State.All (state : State κ π) (good : κ → π → Prop) : Prop where
  live : ∀ key payload, state.live key = some payload → good key payload
  pending : ∀ txn key payload, .put key payload ∈ state.pending txn → good key payload

omit [DecidableEq κ] in
theorem State.all_empty (good : κ → π → Prop) : (State.empty : State κ π).All good where
  live := by
    intro key payload found
    cases found
  pending := by
    intro txn key payload member
    cases member

theorem State.All.step {entry : Entry κ π} {good : κ → π → Prop} (all : state.All good)
    (offers : ∀ key payload, entry.Offers key payload → good key payload)
    (ran : state.step entry = some reached) : reached.All good := by
  cases entry with
  | immediate action =>
    obtain ⟨live, applied, rfl⟩ := map_eq_some_iff.mp ran
    refine ⟨?_, all.pending⟩
    intro key payload found
    rcases Action.apply_live applied found with before | here
    · exact all.live key payload before
    · exact offers key payload here
  | queued txn action =>
    cases ran
    refine ⟨all.live, ?_⟩
    intro other key payload member
    by_cases same : other = txn
    · subst same
      simp only [update_self, List.mem_append, List.mem_singleton] at member
      rcases member with before | here
      · exact all.pending other key payload before
      · exact offers key payload here.symm
    · simp only [update_of_ne same] at member
      exact all.pending other key payload member
  | finish txn =>
    obtain ⟨live, applied, rfl⟩ := map_eq_some_iff.mp ran
    refine ⟨?_, ?_⟩
    · intro key payload found
      rcases applyAll_live applied found with before | queued
      · exact all.live key payload before
      · exact all.pending txn key payload queued
    · intro other key payload member
      by_cases same : other = txn
      · subst same
        simp at member
      · simp only [update_of_ne same] at member
        exact all.pending other key payload member

theorem State.All.replay {entries : List (Entry κ π)} {good : κ → π → Prop} (all : state.All good)
    (offers : ∀ entry ∈ entries, ∀ key payload, entry.Offers key payload → good key payload)
    (ran : Journal.replay state entries = some reached) : reached.All good := by
  induction entries generalizing state with
  | nil =>
    cases ran
    exact all
  | cons entry rest ih =>
    obtain ⟨middle, stepped, later⟩ := bind_eq_some_iff.mp ran
    have here := all.step (offers entry (by simp)) stepped
    exact ih here (fun other member => offers other (by simp [member])) later

open List Journal.Action

variable {κ π : Type}

def Entry.txn : Entry κ π → Option Nat
  | .immediate _ => none
  | .queued txn _ => some txn
  | .finish txn => some txn

def Fresh (txn : Nat) (entries : List (Entry κ π)) : Prop :=
  ∀ entry ∈ entries, entry.txn ≠ some txn

def Entry.finishes (txn : Nat) : Entry κ π → Bool
  | .finish other => other = txn
  | _ => false

def finished (entries : List (Entry κ π)) (txn : Nat) : Bool :=
  entries.any (Entry.finishes txn)

def Entry.survivor (done : Nat → Bool) : Entry κ π → Option (Action κ π)
  | .immediate action => some action
  | .queued txn action => if done txn then some action else none
  | .finish _ => none

def survivors (entries : List (Entry κ π)) : List (Action κ π) :=
  entries.filterMap (Entry.survivor (finished entries))

theorem finished_append (front back : List (Entry κ π)) (txn : Nat) :
    finished (front ++ back) txn = (finished front txn || finished back txn) :=
  any_append

variable {entries : List (Entry κ π)} {txn : Nat}

theorem Fresh.finished (fresh : Fresh txn entries) : finished entries txn = false := by
  rw [Journal.finished, List.any_eq_false]
  intro entry member
  cases entry with
  | immediate | queued => exact Bool.false_ne_true
  | finish other =>
    intro same
    exact fresh _ member (congrArg some (of_decide_eq_true same))

theorem finished_queued (txn other : Nat) (actions : List (Action κ π)) :
    finished (actions.map (Entry.queued txn)) other = false := by
  simp [finished, Entry.finishes]

theorem survivors_append {front back : List (Entry κ π)}
    (apart : ∀ entry ∈ front, ∀ txn, entry.txn = some txn → finished back txn = false) :
    survivors (front ++ back) =
      survivors front ++ back.filterMap (Entry.survivor (finished (front ++ back))) := by
  rw [survivors, filterMap_append, survivors]
  congr 1
  refine filterMap_congr ?_
  intro entry member
  cases entry with
  | immediate action => rfl
  | queued txn action =>
    rw [Entry.survivor, Entry.survivor, finished_append, apart _ member txn rfl, Bool.or_false]
  | finish txn => rfl

/-- A journal in blocks: single actions, transactions with their end, and transactions
that were given up. Every transaction has its entries in one block. -/
inductive Blocks : List (Entry κ π) → Prop where
  | nil : Blocks []
  | immediate {entries : List (Entry κ π)} (before : Blocks entries) (action : Action κ π) :
      Blocks (entries ++ [.immediate action])
  | committed {entries : List (Entry κ π)} {txn : Nat} (before : Blocks entries)
      (fresh : Fresh txn entries) (actions : List (Action κ π)) :
      Blocks (entries ++ (actions.map (Entry.queued txn) ++ [.finish txn]))
  | abandoned {entries : List (Entry κ π)} {txn : Nat} (before : Blocks entries)
      (fresh : Fresh txn entries) (actions : List (Action κ π)) :
      Blocks (entries ++ actions.map (Entry.queued txn))

theorem Blocks.take (blocks : Blocks entries) (count : Nat) : Blocks (entries.take count) := by
  induction blocks generalizing count with
  | nil =>
    rw [take_nil]
    exact .nil
  | @immediate entries before action ih =>
    rcases Nat.lt_or_ge entries.length count with past | inside
    · rw [take_of_length_le (by simpa using Nat.succ_le_of_lt past)]
      exact before.immediate action
    · rw [take_append_of_le_length inside]
      exact ih count
  | @committed entries txn before fresh actions ih =>
    rcases Nat.le_total count entries.length with inside | past
    · rw [take_append_of_le_length inside]
      exact ih count
    · obtain ⟨extra, rfl⟩ := Nat.exists_eq_add_of_le past
      rw [take_length_add_append]
      rcases Nat.lt_or_ge actions.length extra with whole | cut
      · rw [take_of_length_le (by simpa using Nat.succ_le_of_lt whole)]
        exact before.committed fresh actions
      · rw [take_append_of_le_length (by simpa using cut), ← map_take]
        exact before.abandoned fresh _
  | @abandoned entries txn before fresh actions ih =>
    rcases Nat.le_total count entries.length with inside | past
    · rw [take_append_of_le_length inside]
      exact ih count
    · obtain ⟨extra, rfl⟩ := Nat.exists_eq_add_of_le past
      rw [take_length_add_append, ← map_take]
      exact before.abandoned fresh _

theorem survivors_immediate (entries : List (Entry κ π)) (action : Action κ π) :
    survivors (entries ++ [.immediate action]) = survivors entries ++ [action] :=
  survivors_append fun _ _ _ _ => rfl

theorem survivors_committed (fresh : Fresh txn entries) (actions : List (Action κ π)) :
    survivors (entries ++ (actions.map (Entry.queued txn) ++ [.finish txn])) =
      survivors entries ++ actions := by
  have apart : ∀ entry ∈ entries, ∀ other, entry.txn = some other →
      finished (actions.map (Entry.queued txn) ++ [.finish txn]) other = false := by
    intro entry member other same
    have different : txn ≠ other := by
      rintro rfl
      exact fresh entry member same
    simp [finished, Entry.finishes, different]
  have done : finished (entries ++ (actions.map (Entry.queued txn) ++ [.finish txn])) txn =
      true := by
    simp [finished, Entry.finishes]
  rw [survivors_append apart, filterMap_append, filterMap_map]
  simp [comp_def, Entry.survivor, done]

theorem survivors_abandoned (fresh : Fresh txn entries) (actions : List (Action κ π)) :
    survivors (entries ++ actions.map (Entry.queued txn)) = survivors entries := by
  have undone : finished (entries ++ actions.map (Entry.queued txn)) txn = false := by
    rw [finished_append, fresh.finished, finished_queued]
    rfl
  rw [survivors_append fun _ _ other _ => finished_queued txn other actions, filterMap_map]
  simp [comp_def, Entry.survivor, undone]

variable [DecidableEq κ]

/-- An action on a map for which deleting a missing key means nothing. -/
def Action.overwrite (live : κ → Option π) : Action κ π → κ → Option π
  | .put key payload => update live key (some payload)
  | .delete key => update live key none

def contents (entries : List (Entry κ π)) : κ → Option π :=
  (survivors entries).foldl Action.overwrite fun _ => none

variable {live : κ → Option π} {actions : List (Action κ π)}

theorem Action.apply_eq_overwrite {reached : κ → Option π} {action : Action κ π}
    (ran : action.apply live = some reached) : reached = action.overwrite live := by
  cases action with
  | put key payload => exact (Option.some.inj ran).symm
  | delete key =>
    rw [apply] at ran
    split at ran
    · exact (Option.some.inj ran).symm
    · cases ran

theorem applyAll_eq_foldl {reached : κ → Option π} (ran : applyAll live actions = some reached) :
    reached = actions.foldl overwrite live := by
  induction actions generalizing live with
  | nil => exact (Option.some.inj ran).symm
  | cons action rest ih =>
    obtain ⟨middle, first, later⟩ := Option.bind_eq_some_iff.mp ran
    rw [foldl_cons, ← apply_eq_overwrite first]
    exact ih later

theorem applyAll_puts (live : κ → Option π)
    (puts : ∀ action ∈ actions, ∃ key payload, action = .put key payload) :
    applyAll live actions = some (actions.foldl overwrite live) := by
  induction actions generalizing live with
  | nil => rfl
  | cons action rest ih =>
    obtain ⟨key, payload, rfl⟩ := puts action mem_cons_self
    exact ih _ fun other member => puts other (mem_cons_of_mem _ member)

theorem replay_queued (state : State κ π) (txn : Nat) (actions : List (Action κ π)) :
    replay state (actions.map (Entry.queued txn)) = some { state with
      pending := update state.pending txn (state.pending txn ++ actions) } := by
  induction actions generalizing state with
  | nil => simp
  | cons action rest ih =>
    rw [map_cons, replay, State.step, Option.bind_some, ih]
    simp

theorem replay_committed (state : State κ π) (clear : state.pending txn = [])
    (actions : List (Action κ π)) :
    replay state (actions.map (Entry.queued txn) ++ [.finish txn]) =
      (applyAll state.live actions).map fun live => { state with live } := by
  have restored : update state.pending txn [] = state.pending := update_eq_self_iff.mpr clear.symm
  rw [replay_append, replay_queued, Option.bind_some, replay, State.step]
  simp only [update_self, clear, nil_append, update_idem, restored]
  cases applyAll state.live actions <;> rfl

theorem replay_pending_fresh {state reached : State κ π} (ran : replay state entries = some reached)
    (fresh : Fresh txn entries) : reached.pending txn = state.pending txn := by
  induction entries generalizing state with
  | nil =>
    cases ran
    rfl
  | cons entry rest ih =>
    obtain ⟨middle, stepped, later⟩ := Option.bind_eq_some_iff.mp ran
    rw [ih later fun other member => fresh other (mem_cons_of_mem _ member)]
    have other := fresh entry mem_cons_self
    cases entry with
    | immediate action =>
      obtain ⟨live, _, rfl⟩ := Option.map_eq_some_iff.mp stepped
      rfl
    | queued queuedTxn action =>
      cases stepped
      exact update_of_ne (fun same => other (congrArg some same.symm)) _ _
    | finish finishedTxn =>
      obtain ⟨live, _, rfl⟩ := Option.map_eq_some_iff.mp stepped
      exact update_of_ne (fun same => other (congrArg some same.symm)) _ _

theorem contents_immediate (entries : List (Entry κ π)) (action : Action κ π) :
    contents (entries ++ [.immediate action]) = action.overwrite (contents entries) := by
  rw [contents, survivors_immediate, foldl_append]
  rfl

theorem contents_committed (fresh : Fresh txn entries) (actions : List (Action κ π)) :
    contents (entries ++ (actions.map (Entry.queued txn) ++ [.finish txn])) =
      actions.foldl overwrite (contents entries) := by
  rw [contents, survivors_committed fresh, foldl_append]
  rfl

theorem contents_abandoned (fresh : Fresh txn entries) (actions : List (Action κ π)) :
    contents (entries ++ actions.map (Entry.queued txn)) = contents entries := by
  rw [contents, survivors_abandoned fresh, contents]

theorem Blocks.replay_live (blocks : Blocks entries) {state : State κ π}
    (ran : replay .empty entries = some state) : state.live = contents entries := by
  induction blocks generalizing state with
  | nil =>
    cases ran
    rfl
  | @immediate entries before action ih =>
    obtain ⟨middle, first, last⟩ := replay_front ran
    obtain ⟨reached, stepped, same⟩ := Option.bind_eq_some_iff.mp last
    obtain ⟨live, applied, rfl⟩ := Option.map_eq_some_iff.mp stepped
    cases same
    rw [contents_immediate, ← ih first]
    exact apply_eq_overwrite applied
  | @committed entries txn before fresh actions ih =>
    obtain ⟨middle, first, last⟩ := replay_front ran
    rw [replay_committed middle (replay_pending_fresh first fresh)] at last
    obtain ⟨live, applied, rfl⟩ := Option.map_eq_some_iff.mp last
    rw [contents_committed fresh, ← ih first]
    exact applyAll_eq_foldl applied
  | @abandoned entries txn before fresh actions ih =>
    obtain ⟨middle, first, last⟩ := replay_front ran
    rw [replay_queued] at last
    cases last
    rw [contents_abandoned fresh, ← ih first]

theorem foldl_overwrite_some {key : κ} {payload : π}
    (found : actions.foldl overwrite live key = some payload) :
    live key = some payload ∨ .put key payload ∈ actions := by
  induction actions generalizing live with
  | nil => exact .inl found
  | cons action rest ih =>
    rcases ih found with here | later
    · cases action with
      | put other stored =>
        by_cases same : key = other
        · subst same
          rw [overwrite, update_self] at here
          cases here
          exact .inr mem_cons_self
        · rw [overwrite, update_of_ne same] at here
          exact .inl here
      | delete other =>
        by_cases same : key = other
        · subst same
          rw [overwrite, update_self] at here
          cases here
        · rw [overwrite, update_of_ne same] at here
          exact .inl here
    · exact .inr (mem_cons_of_mem _ later)

omit [DecidableEq κ] in
theorem offered_of_survivor {done : Nat → Bool} {key : κ} {payload : π}
    (member : .put key payload ∈ entries.filterMap (Entry.survivor done)) :
    ∃ entry ∈ entries, entry.Offers key payload ∧
      ∀ txn, entry.txn = some txn → done txn = true := by
  obtain ⟨entry, inside, survived⟩ := mem_filterMap.mp member
  refine ⟨entry, inside, ?_⟩
  cases entry with
  | immediate action =>
    exact ⟨Option.some.inj survived, fun txn none => by cases none⟩
  | queued txn action =>
    rw [Entry.survivor] at survived
    split at survived
    · rename_i done
      exact ⟨Option.some.inj survived, fun other same => by cases same; exact done⟩
    · cases survived
  | finish txn => cases survived

theorem contents_offered {key : κ} {payload : π} (found : contents entries key = some payload) :
    ∃ entry ∈ entries, entry.Offers key payload ∧
      ∀ txn, entry.txn = some txn → finished entries txn = true := by
  rcases foldl_overwrite_some found with impossible | member
  · cases impossible
  · exact offered_of_survivor member

end Bitdb.Base.Journal
