import Bitdb.Base.Places
import Bitdb.Base.Run
import Mathlib.Algebra.GroupWithZero.Nat
import Mathlib.Logic.Function.Basic

/-! The thread pool of `bitdb/common/thread_pool.h`. Every section under `queue_mtx_` is one step. A
condition variable may wake up at any time, so whom it is notified by does not matter. -/

set_option autoImplicit false

namespace Bitdb.Common

open Base (Run sum_update_add)
open List Function

inductive Worker (Task : Type) where
  | looping
  | running (task : Task)
  | exited
  deriving DecidableEq, Repr

inductive Shutdown where
  | outside
  | waiting
  | joining (worker : Nat)
  | returned
  deriving DecidableEq, Repr

/-- The pool and the threads that use it. `accepted` are the tasks that `Commit` has put into
`tasks_`, and `executed` those that a worker is done with. -/
structure ThreadPool (n : Nat) (Task : Type) where
  tasks : List Task
  stop : Bool
  workers : Fin n → Worker Task
  shutdown : Shutdown
  accepted : List Task
  executed : List Task

/-- A call of `Commit`, or the next step of a worker or of the thread in `Shutdown`. -/
inductive Event (n : Nat) (Task : Type) where
  | commit (task : Task)
  | worker (worker : Fin n)
  | shutdown

namespace ThreadPool

variable {n : Nat} {Task : Type}

def initial : ThreadPool n Task where
  tasks := []
  stop := false
  workers _ := .looping
  shutdown := .outside
  accepted := []
  executed := []

def setWorker (pool : ThreadPool n Task) (worker : Fin n) (state : Worker Task) :
    ThreadPool n Task :=
  { pool with workers := Function.update pool.workers worker state }

/-- A task that comes too late is dropped. -/
def commit (pool : ThreadPool n Task) (task : Task) : ThreadPool n Task :=
  if pool.stop then pool
  else { pool with tasks := pool.tasks ++ [task], accepted := pool.accepted ++ [task] }

def stepWorker (pool : ThreadPool n Task) (worker : Fin n) : Option (ThreadPool n Task) :=
  match pool.workers worker with
  | .looping =>
    if pool.stop then some (pool.setWorker worker .exited)
    else
      match pool.tasks with
      | [] => some pool
      | task :: rest => some ({ pool with tasks := rest }.setWorker worker (.running task))
  | .running task =>
    some ({ pool with executed := pool.executed ++ [task] }.setWorker worker .looping)
  | .exited => none

def stepShutdown (pool : ThreadPool n Task) : Option (ThreadPool n Task) :=
  match pool.shutdown with
  | .outside => some { pool with shutdown := .waiting }
  | .waiting =>
    if pool.tasks.isEmpty then some { pool with stop := true, shutdown := .joining 0 }
    else some pool
  | .joining worker =>
    if inside : worker < n then
      match pool.workers ⟨worker, inside⟩ with
      | .exited => some { pool with shutdown := .joining (worker + 1) }
      | _ => none
    else some { pool with shutdown := .returned }
  | .returned => none

def step (pool : ThreadPool n Task) : Event n Task → Option (ThreadPool n Task)
  | .commit task => some (pool.commit task)
  | .worker worker => pool.stepWorker worker
  | .shutdown => pool.stepShutdown

def Step (pool : ThreadPool n Task) (event : Event n Task) (reached : ThreadPool n Task) : Prop :=
  pool.step event = some reached

end ThreadPool

variable {n : Nat} {Task : Type}

def Worker.held : Worker Task → List Task
  | .running task => [task]
  | _ => []

def Shutdown.Before : Shutdown → Prop
  | .outside => True
  | .waiting => True
  | _ => False

def Shutdown.Joined (worker : Nat) : Shutdown → Prop
  | .joining next => worker < next
  | .returned => True
  | _ => False

namespace ThreadPool

variable {pool reached : ThreadPool n Task}

inductive Effect (pool : ThreadPool n Task) : ThreadPool n Task → Prop where
  | nothing : Effect pool pool
  | accepted (task : Task) (open_ : pool.stop = false) :
      Effect pool { pool with tasks := pool.tasks ++ [task], accepted := pool.accepted ++ [task] }
  | exited (worker : Fin n) (looping : pool.workers worker = .looping) (stopped : pool.stop = true) :
      Effect pool (pool.setWorker worker .exited)
  | taken (worker : Fin n) {task : Task} {rest : List Task}
      (looping : pool.workers worker = .looping) (tasks : pool.tasks = task :: rest) :
      Effect pool ({ pool with tasks := rest }.setWorker worker (.running task))
  | executed (worker : Fin n) {task : Task} (running : pool.workers worker = .running task) :
      Effect pool
        ({ pool with executed := pool.executed ++ [task] }.setWorker worker .looping)
  | called (outside : pool.shutdown = .outside) : Effect pool { pool with shutdown := .waiting }
  | stopped (waiting : pool.shutdown = .waiting) (empty : pool.tasks = []) :
      Effect pool { pool with stop := true, shutdown := .joining 0 }
  | joined (worker : Fin n) (joining : pool.shutdown = .joining worker)
      (exited : pool.workers worker = .exited) :
      Effect pool { pool with shutdown := .joining (worker + 1) }
  | returned {next : Nat} (joining : pool.shutdown = .joining next) (all : n ≤ next) :
      Effect pool { pool with shutdown := .returned }

theorem effect_of_stepWorker {worker : Fin n} (stepped : pool.stepWorker worker = some reached) :
    pool.Effect reached := by
  rw [stepWorker] at stepped
  split at stepped
  next looping =>
    split at stepped
    next stopped =>
      cases stepped
      exact .exited worker looping stopped
    next =>
      split at stepped
      next =>
        cases stepped
        exact .nothing
      next task rest tasks =>
        cases stepped
        exact .taken worker looping tasks
  next task running =>
    cases stepped
    exact .executed worker running
  next => cases stepped

theorem effect_of_stepShutdown (stepped : pool.stepShutdown = some reached) :
    pool.Effect reached := by
  rw [stepShutdown] at stepped
  split at stepped
  next outside =>
    cases stepped
    exact .called outside
  next waiting =>
    split at stepped
    next empty =>
      cases stepped
      exact .stopped waiting (List.isEmpty_iff.mp empty)
    next =>
      cases stepped
      exact .nothing
  next worker joining =>
    split at stepped
    next inside =>
      split at stepped
      next exited =>
        cases stepped
        exact .joined ⟨worker, inside⟩ joining exited
      next => cases stepped
    next outside =>
      cases stepped
      exact .returned joining (Nat.le_of_not_lt outside)
  next => cases stepped

theorem Step.effect {event : Event n Task} (step : pool.Step event reached) :
    pool.Effect reached := by
  cases event with
  | commit task =>
    cases step
    rw [commit]
    split
    · exact .nothing
    next open_ => exact .accepted task (Bool.eq_false_iff.mpr open_)
  | worker worker => exact effect_of_stepWorker step
  | shutdown => exact effect_of_stepShutdown step

theorem Effect.accepted_eq (effect : pool.Effect reached) (stopped : pool.stop = true) :
    reached.stop = true ∧ reached.accepted = pool.accepted := by
  cases effect with
  | accepted task open_ =>
    rw [stopped] at open_
    cases open_
  | stopped => exact ⟨rfl, rfl⟩
  | _ => exact ⟨stopped, rfl⟩

theorem accepted_eq_of_run {events : List (Event n Task)} (stopped : pool.stop = true)
    (run : Run Step pool events reached) : reached.accepted = pool.accepted :=
  (run.invariant (fun _ later => later.stop = true ∧ later.accepted = pool.accepted)
    (fun _ _ _ _ before step => by
      have kept := step.effect.accepted_eq before.1
      exact ⟨kept.1, kept.2.trans before.2⟩) [] ⟨stopped, rfl⟩).2

variable [DecidableEq Task]

def held (pool : ThreadPool n Task) (task : Task) : Nat :=
  ∑ worker, (pool.workers worker).held.count task

structure Sound (pool : ThreadPool n Task) : Prop where
  balance : ∀ task, pool.accepted.count task =
    pool.tasks.count task + pool.held task + pool.executed.count task
  drained : pool.stop = true → pool.tasks = []
  stopped : pool.shutdown.Before ∨ pool.stop = true
  joined : ∀ worker : Fin n, pool.shutdown.Joined worker → pool.workers worker = .exited

theorem held_setWorker (pool : ThreadPool n Task) (worker : Fin n) (state : Worker Task)
    (task : Task) :
    (pool.setWorker worker state).held task + (pool.workers worker).held.count task =
      pool.held task + state.held.count task :=
  sum_update_add (fun state : Worker Task => state.held.count task) pool.workers worker state

theorem held_of_looping {worker : Fin n} (looping : pool.workers worker = .looping)
    (state : Worker Task) (task : Task) :
    (pool.setWorker worker state).held task = pool.held task + state.held.count task := by
  have changed := pool.held_setWorker worker state task
  rw [looping] at changed
  exact changed

theorem sound_initial : (initial : ThreadPool n Task).Sound where
  balance task := by simp [initial, held, Worker.held]
  drained _ := rfl
  stopped := .inl trivial
  joined _ joined := joined.elim

theorem Sound.joined_setWorker (sound : pool.Sound) {worker : Fin n} (state : Worker Task)
    (inside : pool.workers worker ≠ .exited) (other : Fin n) (joined : pool.shutdown.Joined other) :
    (pool.setWorker worker state).workers other = .exited := by
  have exited := sound.joined other joined
  have different : other ≠ worker := by
    rintro rfl
    exact inside exited
  exact (update_of_ne different state pool.workers).trans exited

theorem Sound.stop_of_joining (sound : pool.Sound) {worker : Nat}
    (joining : pool.shutdown = .joining worker) : pool.stop = true := by
  have stopped := sound.stopped
  rw [joining] at stopped
  exact stopped.resolve_left id

theorem Sound.step (sound : pool.Sound) (effect : pool.Effect reached) : reached.Sound := by
  cases effect with
  | nothing => exact sound
  | accepted task open_ =>
    refine ⟨fun other => ?_, fun stopped => ?_, sound.stopped, sound.joined⟩
    · have before := sound.balance other
      show (pool.accepted ++ [task]).count other =
        (pool.tasks ++ [task]).count other + pool.held other + pool.executed.count other
      rw [count_append, count_append]
      omega
    · rw [open_] at stopped
      cases stopped
  | exited worker looping stopped =>
    refine ⟨fun task => ?_, sound.drained, .inr stopped, fun other joined => ?_⟩
    · rw [held_of_looping looping]
      exact sound.balance task
    · by_cases same : other = worker
      · subst same
        exact update_self _ _ _
      · exact (update_of_ne same _ _).trans (sound.joined other joined)
  | @taken worker task rest looping tasks =>
    refine ⟨fun other => ?_, fun stopped => ?_, sound.stopped,
      sound.joined_setWorker _ (by rw [looping]; rintro ⟨⟩)⟩
    · have before := sound.balance other
      rw [tasks, count_cons] at before
      show pool.accepted.count other = rest.count other +
        (pool.setWorker worker (.running task)).held other + pool.executed.count other
      rw [held_of_looping looping, Worker.held, count_singleton]
      omega
    · have empty := sound.drained stopped
      rw [tasks] at empty
      cases empty
  | @executed worker task running =>
    refine ⟨fun other => ?_, sound.drained, sound.stopped,
      sound.joined_setWorker _ (by rw [running]; rintro ⟨⟩)⟩
    have before := sound.balance other
    have changed := pool.held_setWorker worker .looping other
    rw [running] at changed
    simp only [Worker.held, count_nil, Nat.add_zero] at changed
    show pool.accepted.count other = pool.tasks.count other +
      (pool.setWorker worker .looping).held other + (pool.executed ++ [task]).count other
    rw [count_append]
    omega
  | called outside =>
    exact ⟨sound.balance, sound.drained, .inl trivial, fun _ joined => joined.elim⟩
  | stopped waiting empty =>
    exact ⟨sound.balance, fun _ => empty, .inr rfl,
      fun _ joined => absurd joined (Nat.not_lt_zero _)⟩
  | joined worker joining exited =>
    have stopped := sound.stop_of_joining joining
    refine ⟨sound.balance, sound.drained, .inr stopped, fun other before => ?_⟩
    rcases Nat.lt_succ_iff_lt_or_eq.mp before with earlier | same
    · refine sound.joined other ?_
      rw [joining]
      exact earlier
    · rw [Fin.ext same]
      exact exited
  | returned joining all =>
    have stopped := sound.stop_of_joining joining
    refine ⟨sound.balance, sound.drained, .inr stopped, fun other _ => sound.joined other ?_⟩
    rw [joining]
    exact other.isLt.trans_le all

theorem sound_of_run {events : List (Event n Task)} (run : Run Step initial events pool) :
    pool.Sound :=
  run.invariant (fun _ pool => pool.Sound) (fun _ _ _ _ sound step => sound.step step.effect) []
    sound_initial

/-- When `Shutdown` returns, the workers have executed exactly the accepted tasks, each of them
once. Nothing is accepted any more once the pool is stopped. -/
theorem shutdown_drains_tasks {events : List (Event n Task)} (run : Run Step initial events pool) :
    (pool.shutdown = .returned → pool.executed.Perm pool.accepted) ∧
      (pool.stop = true → ∀ later reached, Run Step pool later reached →
        reached.accepted = pool.accepted) := by
  have sound := sound_of_run run
  refine ⟨fun returned => perm_iff_count.mpr fun task => ?_,
    fun stopped later reached => accepted_eq_of_run stopped⟩
  have stopped : pool.stop = true := by
    have stopped := sound.stopped
    rw [returned] at stopped
    exact stopped.resolve_left id
  have noneHeld : pool.held task = 0 := by
    refine Finset.sum_eq_zero fun worker _ => ?_
    rw [sound.joined worker (by rw [returned]; trivial)]
    rfl
  have balance := sound.balance task
  rw [sound.drained stopped, noneHeld, count_nil, Nat.zero_add] at balance
  exact balance.symm

theorem shutdown_drains_tasks_two_workers :
    ∃ pool : ThreadPool 2 Nat, pool.shutdown = .returned ∧ pool.accepted = [7, 8] ∧
      pool.executed.Perm pool.accepted := by
  let events : List (Event 2 Nat) :=
    [.commit 7, .commit 8, .worker 0, .shutdown, .shutdown, .worker 1, .shutdown, .commit 9,
      .worker 1, .worker 1, .worker 0, .worker 0, .shutdown, .shutdown, .shutdown]
  have steps : ∀ (pool : ThreadPool 2 Nat) event reached,
      ThreadPool.step pool event = some reached → pool.Step event reached := fun _ _ _ step => step
  obtain ⟨pool, run, checked⟩ := Run.exists_of_foldlM steps initial events
    (fun pool => decide (pool.shutdown = .returned ∧ pool.accepted = [7, 8])) (by decide +kernel)
  obtain ⟨returned, accepted⟩ := of_decide_eq_true checked
  exact ⟨pool, returned, accepted, (shutdown_drains_tasks run).1 returned⟩

end ThreadPool

end Bitdb.Common
