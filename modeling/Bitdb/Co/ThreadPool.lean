import Bitdb.Base.Places
import Bitdb.Base.Run
import Mathlib.Algebra.GroupWithZero.Nat
import Mathlib.Logic.Function.Basic

/-! The thread pool for coroutines (`bitdb/co/co_thread_pool.cpp`) and its queues
(`bitdb/common/blocking_queue.h`). Each operation on a queue is one step; those that only try to
lock its mutex may fail. `ScheduleById` of a null handle returns at once and is left out. No handle
is lost or resumed twice: at any time it is in one queue, in the hands of one worker, or done with.
-/

set_option autoImplicit false

namespace Bitdb.Co

open Function

structure BlockingQueue (α : Type) where
  queue : List α
  stop : Bool
  deriving DecidableEq, Repr

namespace BlockingQueue

variable {α : Type}

def push (queue : BlockingQueue α) (value : α) : BlockingQueue α :=
  { queue with queue := queue.queue ++ [value] }

def tryPush (queue : BlockingQueue α) (locked : Bool) (value : α) : Option (BlockingQueue α) :=
  if locked then some (queue.push value) else none

/-- `pop` once the condition holds that it waits for: an item, or `false` if the queue was
stopped. -/
def pop (queue : BlockingQueue α) : Option (Option α × BlockingQueue α) :=
  match queue.queue with
  | item :: rest => some (some item, { queue with queue := rest })
  | [] => if queue.stop then some (none, queue) else none

def tryPopIf (queue : BlockingQueue α) (locked : Bool) (predict : α → Bool) :
    Option (α × BlockingQueue α) :=
  match queue.queue with
  | item :: rest => if locked ∧ predict item then some (item, { queue with queue := rest }) else none
  | [] => none

end BlockingQueue

structure TaskItem (Handle : Type) where
  handle : Handle
  canSteal : Bool
  deriving DecidableEq, Repr

inductive Worker (Handle : Type) where
  | stealing (attempt : Nat)
  | popping
  | holding (item : TaskItem Handle)
  | unsuccessful
  | exited
  deriving DecidableEq, Repr

/-- Where a thread is in `ScheduleById`; `none` for the id stands for `-1`. -/
inductive Caller (n : Nat) (Handle : Type) where
  | outside
  | entered (coro : Handle) (id : Option (Fin n))
  | trying (coro : Handle) (attempt : Nat)
  | pushing (id : Fin n) (item : TaskItem Handle)
  deriving DecidableEq, Repr

inductive Destructor where
  | outside
  | stopping (queue : Nat)
  | joining (worker : Nat)
  deriving DecidableEq, Repr

/-- The pool and the threads that use it. `early` and `late` are the handles that were pushed
before and after the destructor set `stopped_`, `resumed` are the handles that were resumed with
the worker that did so, and `finished` are those that a worker found finished. -/
structure ThreadPool (n : Nat) (Handle : Type) where
  enableWorkSteal : Bool
  taskQueues : Fin n → BlockingQueue (TaskItem Handle)
  stopped : Bool
  workers : Fin n → Worker Handle
  callers : Nat → Caller n Handle
  destructor : Destructor
  early : List Handle
  late : List Handle
  resumed : List (Fin n × Handle)
  finished : List Handle

/-- Who does the next step, and what it meets: `chosen` is what `rand() % thread_num_` gives,
`locked` whether a lock could be taken, and `done` what `handle.done()` returns. -/
inductive Event (n : Nat) (Handle : Type) where
  | scheduleById (caller : Nat) (coro : Handle) (id : Option (Fin n))
  | caller (caller : Nat) (locked : Bool) (chosen : Fin n)
  | worker (worker : Fin n) (locked done : Bool)
  | destructor

namespace ThreadPool

variable {n : Nat} {Handle : Type}

def loopStart (enableWorkSteal : Bool) : Worker Handle :=
  if enableWorkSteal then .stealing 0 else .popping

def initial (enableWorkSteal : Bool) : ThreadPool n Handle where
  enableWorkSteal := enableWorkSteal
  taskQueues _ := ⟨[], false⟩
  stopped := false
  workers _ := loopStart enableWorkSteal
  callers _ := .outside
  destructor := .outside
  early := []
  late := []
  resumed := []
  finished := []

def setCaller (pool : ThreadPool n Handle) (caller : Nat) (state : Caller n Handle) :
    ThreadPool n Handle :=
  { pool with callers := update pool.callers caller state }

def setWorker (pool : ThreadPool n Handle) (worker : Fin n) (state : Worker Handle) :
    ThreadPool n Handle :=
  { pool with workers := update pool.workers worker state }

def setQueue (pool : ThreadPool n Handle) (id : Fin n) (queue : BlockingQueue (TaskItem Handle)) :
    ThreadPool n Handle :=
  { pool with taskQueues := update pool.taskQueues id queue }

def setPushed (pool : ThreadPool n Handle) (id : Fin n) (queue : BlockingQueue (TaskItem Handle))
    (coro : Handle) : ThreadPool n Handle :=
  if pool.stopped then { pool.setQueue id queue with late := pool.late ++ [coro] }
  else { pool.setQueue id queue with early := pool.early ++ [coro] }

def stepCaller [NeZero n] (pool : ThreadPool n Handle) (caller : Nat) (locked : Bool)
    (chosen : Fin n) : Option (ThreadPool n Handle) :=
  match pool.callers caller with
  | .outside => none
  | .entered coro id =>
    if pool.stopped then some (pool.setCaller caller .outside)
    else
      match id with
      | some id => some (pool.setCaller caller (.pushing id ⟨coro, false⟩))
      | none =>
        if pool.enableWorkSteal then some (pool.setCaller caller (.trying coro 0))
        else some (pool.setCaller caller (.pushing chosen ⟨coro, pool.enableWorkSteal⟩))
  | .trying coro attempt =>
    let id := Fin.ofNat n attempt
    match (pool.taskQueues id).tryPush locked ⟨coro, true⟩ with
    | some queue => some ((pool.setPushed id queue coro).setCaller caller .outside)
    | none =>
      if attempt + 1 < n * 2 then some (pool.setCaller caller (.trying coro (attempt + 1)))
      else some (pool.setCaller caller (.pushing chosen ⟨coro, pool.enableWorkSteal⟩))
  | .pushing id item =>
    let queue := (pool.taskQueues id).push item
    some ((pool.setPushed id queue item.handle).setCaller caller .outside)

def stepWorker [NeZero n] (pool : ThreadPool n Handle) (worker : Fin n) (locked done : Bool) :
    Option (ThreadPool n Handle) :=
  match pool.workers worker with
  | .stealing attempt =>
    let id := worker + Fin.ofNat n attempt
    match (pool.taskQueues id).tryPopIf locked (·.canSteal) with
    | some (item, queue) => some ((pool.setQueue id queue).setWorker worker (.holding item))
    | none =>
      if attempt + 1 < n then some (pool.setWorker worker (.stealing (attempt + 1)))
      else some (pool.setWorker worker .popping)
  | .popping =>
    match (pool.taskQueues worker).pop with
    | none => none
    | some (some item, queue) =>
      some ((pool.setQueue worker queue).setWorker worker (.holding item))
    | some (none, queue) => some ((pool.setQueue worker queue).setWorker worker .unsuccessful)
  | .unsuccessful =>
    some (pool.setWorker worker (if pool.stopped then .exited else loopStart pool.enableWorkSteal))
  | .holding item =>
    let pool := pool.setWorker worker (loopStart pool.enableWorkSteal)
    if done then some { pool with finished := pool.finished ++ [item.handle] }
    else some { pool with resumed := pool.resumed ++ [(worker, item.handle)] }
  | .exited => none

def stepDestructor (pool : ThreadPool n Handle) : Option (ThreadPool n Handle) :=
  match pool.destructor with
  | .outside => some { pool with stopped := true, destructor := .stopping 0 }
  | .stopping queue =>
    if inside : queue < n then
      let stopping := { pool.taskQueues ⟨queue, inside⟩ with stop := true }
      some { pool.setQueue ⟨queue, inside⟩ stopping with destructor := .stopping (queue + 1) }
    else some { pool with destructor := .joining 0 }
  | .joining worker =>
    if inside : worker < n then
      match pool.workers ⟨worker, inside⟩ with
      | .exited => some { pool with destructor := .joining (worker + 1) }
      | _ => none
    else none

def step [NeZero n] (pool : ThreadPool n Handle) : Event n Handle → Option (ThreadPool n Handle)
  | .scheduleById caller coro id =>
    match pool.callers caller with
    | .outside => some (pool.setCaller caller (.entered coro id))
    | _ => none
  | .caller caller locked chosen => pool.stepCaller caller locked chosen
  | .worker worker locked done => pool.stepWorker worker locked done
  | .destructor => pool.stepDestructor

def Step [NeZero n] (pool : ThreadPool n Handle) (event : Event n Handle)
    (reached : ThreadPool n Handle) : Prop :=
  pool.step event = some reached

end ThreadPool

open Base (Run sum_update_add)
open BlockingQueue

variable {n : Nat} {Handle : Type}

def Worker.held : Worker Handle → List Handle
  | .holding item => [item.handle]
  | _ => []

def Worker.Idle : Worker Handle → Prop
  | .stealing _ => True
  | .popping => True
  | .unsuccessful => True
  | _ => False

theorem Worker.Idle.held_eq_nil {worker : Worker Handle} (idle : worker.Idle) :
    worker.held = [] := by
  cases worker with
  | holding item => exact idle.elim
  | _ => rfl

theorem Worker.Idle.ne_exited {worker : Worker Handle} (idle : worker.Idle) : worker ≠ .exited := by
  rintro rfl
  exact idle

theorem ThreadPool.idle_loopStart (enableWorkSteal : Bool) :
    (loopStart enableWorkSteal : Worker Handle).Idle := by
  cases enableWorkSteal with
  | false | true => trivial

def Worker.Gone : Worker Handle → Prop
  | .unsuccessful => True
  | .exited => True
  | _ => False

theorem ThreadPool.not_gone_loopStart (enableWorkSteal : Bool) :
    ¬ (loopStart enableWorkSteal : Worker Handle).Gone := by
  cases enableWorkSteal with
  | false | true => exact id

namespace BlockingQueue

def handles (queue : BlockingQueue (TaskItem Handle)) : List Handle :=
  queue.queue.map TaskItem.handle

theorem handles_push (queue : BlockingQueue (TaskItem Handle)) (item : TaskItem Handle) :
    (queue.push item).handles = queue.handles ++ [item.handle] :=
  List.map_append

theorem tryPush_eq_some {α : Type} {queue pushed : BlockingQueue α} {locked : Bool} {value : α}
    (tried : queue.tryPush locked value = some pushed) : pushed = queue.push value := by
  rw [tryPush] at tried
  split at tried
  · exact (Option.some.inj tried).symm
  · cases tried

theorem tryPopIf_eq_some {α : Type} {queue rest : BlockingQueue α} {locked : Bool}
    {predict : α → Bool} {item : α} (tried : queue.tryPopIf locked predict = some (item, rest)) :
    queue.queue = item :: rest.queue ∧ rest.stop = queue.stop := by
  rw [tryPopIf] at tried
  split at tried
  next front items content =>
    split at tried
    · cases tried
      exact ⟨content, rfl⟩
    · cases tried
  next => cases tried

theorem pop_eq_some {α : Type} {queue rest : BlockingQueue α} {item : Option α}
    (popped : queue.pop = some (item, rest)) :
    match item with
    | some item => queue.queue = item :: rest.queue ∧ rest.stop = queue.stop
    | none => rest = queue ∧ queue.queue = [] ∧ queue.stop = true := by
  rw [pop] at popped
  split at popped
  next front items content =>
    cases popped
    exact ⟨content, rfl⟩
  next content =>
    split at popped
    next stopped =>
      cases popped
      exact ⟨rfl, content, stopped⟩
    · cases popped

end BlockingQueue

namespace ThreadPool

variable [DecidableEq Handle]

def queued (pool : ThreadPool n Handle) (handle : Handle) : Nat :=
  ∑ id, (pool.taskQueues id).handles.count handle

def held (pool : ThreadPool n Handle) (handle : Handle) : Nat :=
  ∑ worker, (pool.workers worker).held.count handle

structure Sound (pool : ThreadPool n Handle) : Prop where
  balance : ∀ handle, pool.early.count handle + pool.late.count handle =
    pool.queued handle + pool.held handle + (pool.resumed.map Prod.snd).count handle +
      pool.finished.count handle
  stopping : ∀ id, (pool.taskQueues id).stop = true → pool.stopped = true
  gone : ∀ worker, (pool.workers worker).Gone → pool.stopped = true ∧
    ∀ handle ∈ (pool.taskQueues worker).handles, handle ∈ pool.late
  joined : ∀ (worker : Fin n) count, pool.destructor = .joining count → worker < count →
    pool.workers worker = .exited
  destructing : pool.destructor ≠ .outside → pool.stopped = true

variable {pool : ThreadPool n Handle}

theorem sound_initial (enableWorkSteal : Bool) :
    (initial enableWorkSteal : ThreadPool n Handle).Sound where
  balance handle := by
    have idle := (idle_loopStart enableWorkSteal : (loopStart _ : Worker Handle).Idle).held_eq_nil
    simp [initial, queued, held, idle, handles]
  stopping id stopped := stopped
  gone worker gone := absurd gone (not_gone_loopStart enableWorkSteal)
  joined worker count joining := by cases joining
  destructing begun := absurd rfl begun

theorem Sound.setCaller (sound : pool.Sound) (caller : Nat) (state : Caller n Handle) :
    (pool.setCaller caller state).Sound :=
  ⟨sound.balance, sound.stopping, sound.gone, sound.joined, sound.destructing⟩

theorem queued_setQueue (pool : ThreadPool n Handle) (id : Fin n)
    (queue : BlockingQueue (TaskItem Handle)) (handle : Handle) :
    (pool.setQueue id queue).queued handle + (pool.taskQueues id).handles.count handle =
      pool.queued handle + queue.handles.count handle :=
  sum_update_add (fun queue => queue.handles.count handle) pool.taskQueues id queue

theorem held_setWorker (pool : ThreadPool n Handle) (worker : Fin n) (state : Worker Handle)
    (handle : Handle) :
    (pool.setWorker worker state).held handle + (pool.workers worker).held.count handle =
      pool.held handle + state.held.count handle :=
  sum_update_add (fun state => state.held.count handle) pool.workers worker state

section

variable (sound : pool.Sound)

include sound

theorem Sound.setPushed (id : Fin n) (item : TaskItem Handle) :
    (pool.setPushed id ((pool.taskQueues id).push item) item.handle).Sound := by
  have content : ∀ handle, (pool.setQueue id ((pool.taskQueues id).push item)).queued handle =
      pool.queued handle + [item.handle].count handle := by
    intro handle
    have changed := pool.queued_setQueue id ((pool.taskQueues id).push item) handle
    rw [handles_push, List.count_append] at changed
    omega
  have stopping : ∀ other, (update pool.taskQueues id
      ((pool.taskQueues id).push item) other).stop = true → pool.stopped = true := by
    intro other
    by_cases same : other = id
    · rw [same, update_self]
      exact sound.stopping id
    · rw [update_of_ne same]
      exact sound.stopping other
  rw [ThreadPool.setPushed]
  by_cases stopped : pool.stopped = true
  · rw [if_pos stopped]
    refine ⟨fun handle => ?_, stopping, fun worker gone => ⟨stopped, fun handle member => ?_⟩,
      sound.joined, sound.destructing⟩
    · have before := sound.balance handle
      have after : pool.early.count handle + (pool.late ++ [item.handle]).count handle =
          (pool.setQueue id ((pool.taskQueues id).push item)).queued handle + pool.held handle +
            (pool.resumed.map Prod.snd).count handle + pool.finished.count handle := by
        rw [content, List.count_append]
        omega
      exact after
    · have earlier := (sound.gone worker gone).2 handle
      rw [List.mem_append]
      by_cases same : worker = id
      · subst same
        simp only [setQueue, update_self, handles_push, List.mem_append] at member
        exact member.imp_left earlier
      · simp only [setQueue, update_of_ne same] at member
        exact .inl (earlier member)
  · rw [if_neg stopped]
    refine ⟨fun handle => ?_, stopping, fun worker gone => ?_, sound.joined, sound.destructing⟩
    · have before := sound.balance handle
      have after : (pool.early ++ [item.handle]).count handle + pool.late.count handle =
          (pool.setQueue id ((pool.taskQueues id).push item)).queued handle + pool.held handle +
            (pool.resumed.map Prod.snd).count handle + pool.finished.count handle := by
        rw [content, List.count_append]
        omega
      exact after
    · exact absurd (sound.gone worker gone).1 stopped

variable {worker : Fin n}

theorem Sound.joined_setWorker (state : Worker Handle) (running : pool.workers worker ≠ .exited)
    (other : Fin n) (count : Nat) (joining : pool.destructor = .joining count)
    (below : other < count) : update pool.workers worker state other = .exited := by
  have exited := sound.joined other count joining below
  have different : other ≠ worker := by
    rintro rfl
    exact running exited
  rw [update_of_ne different]
  exact exited

theorem Sound.setWorker {state : Worker Handle} (idle : (pool.workers worker).Idle)
    (stays : state.held = []) (gone : state.Gone → pool.stopped = true ∧
      ∀ handle ∈ (pool.taskQueues worker).handles, handle ∈ pool.late) :
    (pool.setWorker worker state).Sound := by
  refine ⟨fun handle => ?_, sound.stopping, fun other => ?_,
    sound.joined_setWorker state idle.ne_exited, sound.destructing⟩
  · have changed := pool.held_setWorker worker state handle
    rw [idle.held_eq_nil, stays] at changed
    have same : (pool.setWorker worker state).held handle = pool.held handle := by
      simpa using changed
    have before := sound.balance handle
    rw [← same] at before
    exact before
  · by_cases same : other = worker
    · subst same
      simp only [ThreadPool.setWorker, update_self]
      exact gone
    · simp only [ThreadPool.setWorker, update_of_ne same]
      exact sound.gone other

theorem Sound.take {id : Fin n} {item : TaskItem Handle} {queue : BlockingQueue (TaskItem Handle)}
    (content : (pool.taskQueues id).queue = item :: queue.queue)
    (stop : queue.stop = (pool.taskQueues id).stop) (idle : (pool.workers worker).Idle) :
    ((pool.setQueue id queue).setWorker worker (.holding item)).Sound := by
  have handles : (pool.taskQueues id).handles = item.handle :: queue.handles := by
    rw [handles, content]
    rfl
  refine ⟨fun handle => ?_, fun other => ?_, fun other => ?_,
    sound.joined_setWorker _ idle.ne_exited, sound.destructing⟩
  · have before := sound.balance handle
    have inQueue := pool.queued_setQueue id queue handle
    have inHand := pool.held_setWorker worker (.holding item) handle
    rw [handles, List.count_cons] at inQueue
    rw [idle.held_eq_nil, Worker.held, List.count_nil, List.count_singleton] at inHand
    have after : pool.early.count handle + pool.late.count handle =
        (pool.setQueue id queue).queued handle +
          (pool.setWorker worker (.holding item)).held handle +
            (pool.resumed.map Prod.snd).count handle + pool.finished.count handle := by
      omega
    exact after
  · by_cases same : other = id
    · subst same
      simp only [ThreadPool.setWorker, setQueue, update_self, stop]
      exact sound.stopping other
    · simp only [ThreadPool.setWorker, setQueue, update_of_ne same]
      exact sound.stopping other
  · by_cases same : other = worker
    · subst same
      simp only [ThreadPool.setWorker, update_self]
      exact fun impossible => impossible.elim
    · simp only [ThreadPool.setWorker, setQueue, update_of_ne same]
      intro gone
      obtain ⟨stopped, late⟩ := sound.gone other gone
      refine ⟨stopped, fun handle member => late handle ?_⟩
      by_cases here : other = id
      · subst here
        rw [update_self] at member
        rw [handles]
        exact List.mem_cons_of_mem _ member
      · rwa [update_of_ne here] at member

theorem Sound.release {item : TaskItem Handle} {resumed : List (Fin n × Handle)}
    {finished : List Handle} (holding : pool.workers worker = .holding item)
    (accounted : ∀ handle, (resumed.map Prod.snd).count handle + finished.count handle =
      (pool.resumed.map Prod.snd).count handle + pool.finished.count handle +
        [item.handle].count handle) :
    ({ pool.setWorker worker (loopStart pool.enableWorkSteal) with
        resumed := resumed, finished := finished } : ThreadPool n Handle).Sound := by
  refine ⟨fun handle => ?_, sound.stopping, fun other => ?_,
    sound.joined_setWorker _ (by rw [holding]; rintro ⟨⟩), sound.destructing⟩
  · have before := sound.balance handle
    have inHand := pool.held_setWorker worker (loopStart pool.enableWorkSteal) handle
    rw [holding, (idle_loopStart _).held_eq_nil, Worker.held, List.count_nil] at inHand
    have recorded := accounted handle
    have after : pool.early.count handle + pool.late.count handle = pool.queued handle +
          (pool.setWorker worker (loopStart pool.enableWorkSteal)).held handle +
          (resumed.map Prod.snd).count handle + finished.count handle := by
      omega
    exact after
  · by_cases same : other = worker
    · subst same
      simp only [ThreadPool.setWorker, update_self]
      exact fun gone => absurd gone (not_gone_loopStart _)
    · simp only [ThreadPool.setWorker, update_of_ne same]
      exact sound.gone other

theorem Sound.stopQueue (stopped : pool.stopped = true) (id : Fin n) (queue : Nat) :
    ({ pool.setQueue id { pool.taskQueues id with stop := true } with
        destructor := .stopping queue } : ThreadPool n Handle).Sound := by
  have handles : ∀ other, (update pool.taskQueues id
      { pool.taskQueues id with stop := true } other).handles =
        (pool.taskQueues other).handles := by
    intro other
    by_cases same : other = id
    · rw [same, update_self]
      rfl
    · rw [update_of_ne same]
  refine ⟨fun handle => ?_, fun _ _ => stopped, fun worker gone => ⟨stopped, ?_⟩,
    by rintro _ _ ⟨⟩, fun _ => stopped⟩
  · have before := sound.balance handle
    simp only [queued, setQueue, handles]
    exact before
  · simp only [setQueue, handles]
    exact (sound.gone worker gone).2

end

variable {reached : ThreadPool n Handle}

theorem Sound.stepDestructor (sound : pool.Sound) (step : pool.stepDestructor = some reached) :
    reached.Sound := by
  rw [ThreadPool.stepDestructor] at step
  cases state : pool.destructor with
  | outside =>
    simp only [state] at step
    cases step
    exact ⟨sound.balance, fun _ _ => rfl, fun worker gone => ⟨rfl, (sound.gone worker gone).2⟩,
      by rintro _ _ ⟨⟩, fun _ => rfl⟩
  | stopping queue =>
    have stopped := sound.destructing (by rw [state]; rintro ⟨⟩)
    simp only [state] at step
    split at step
    · cases step
      exact sound.stopQueue stopped _ _
    · cases step
      refine ⟨sound.balance, sound.stopping, sound.gone, ?_, fun _ => stopped⟩
      rintro worker _ ⟨⟩ below
      exact absurd below (Nat.not_lt_zero _)
  | joining worker =>
    have stopped := sound.destructing (by rw [state]; rintro ⟨⟩)
    simp only [state] at step
    split at step
    next inside =>
      split at step
      next exited =>
        cases step
        refine ⟨sound.balance, sound.stopping, sound.gone, ?_, fun _ => stopped⟩
        rintro other _ ⟨⟩ below
        rcases Nat.lt_succ_iff_lt_or_eq.mp below with earlier | same
        · exact sound.joined other worker state earlier
        · exact (congrArg pool.workers (Fin.ext same)).trans exited
      next => cases step
    next => cases step

variable [NeZero n]

theorem Sound.stepCaller (sound : pool.Sound) {caller : Nat} {locked : Bool} {chosen : Fin n}
    (step : pool.stepCaller caller locked chosen = some reached) : reached.Sound := by
  rw [ThreadPool.stepCaller] at step
  cases state : pool.callers caller with
  | outside => simp only [state] at step; cases step
  | entered coro id =>
    simp only [state] at step
    split at step
    · cases step
      exact sound.setCaller _ _
    · split at step
      · cases step
        exact sound.setCaller _ _
      · split at step <;> cases step <;> exact sound.setCaller _ _
  | trying coro attempt =>
    simp only [state] at step
    split at step
    next queue tried =>
      cases step
      rw [tryPush_eq_some tried]
      exact (sound.setPushed _ ⟨coro, true⟩).setCaller _ _
    next => split at step <;> cases step <;> exact sound.setCaller _ _
  | pushing id item =>
    simp only [state] at step
    cases step
    exact (sound.setPushed id item).setCaller _ _

theorem Sound.stepWorker (sound : pool.Sound) {worker : Fin n} {locked done : Bool}
    (step : pool.stepWorker worker locked done = some reached) : reached.Sound := by
  rw [ThreadPool.stepWorker] at step
  cases state : pool.workers worker with
  | stealing attempt =>
    have idle : (pool.workers worker).Idle := by rw [state]; trivial
    simp only [state] at step
    split at step
    next item queue tried =>
      cases step
      obtain ⟨content, stop⟩ := tryPopIf_eq_some tried
      exact sound.take content stop idle
    next =>
      split at step <;> cases step <;>
        exact sound.setWorker idle rfl fun impossible => impossible.elim
  | popping =>
    have idle : (pool.workers worker).Idle := by rw [state]; trivial
    simp only [state] at step
    split at step
    next => cases step
    next item queue popped =>
      cases step
      obtain ⟨content, stop⟩ := pop_eq_some popped
      exact sound.take content stop idle
    next queue popped =>
      cases step
      obtain ⟨rfl, empty, stop⟩ := pop_eq_some popped
      have same : pool.setQueue worker (pool.taskQueues worker) = pool := by
        rw [setQueue, update_eq_self]
      rw [same]
      refine sound.setWorker idle rfl fun _ => ⟨sound.stopping worker stop, ?_⟩
      rw [handles, empty]
      rintro handle ⟨⟩
  | unsuccessful =>
    have idle : (pool.workers worker).Idle := by rw [state]; trivial
    have gone := sound.gone worker (by rw [state]; trivial)
    simp only [state, gone.1, ↓reduceIte] at step
    cases step
    exact sound.setWorker idle rfl fun _ => gone
  | holding item =>
    simp only [state] at step
    split at step
    · cases step
      refine sound.release state fun handle => ?_
      simp only [ThreadPool.setWorker, List.count_append]
      omega
    · cases step
      refine sound.release state fun handle => ?_
      simp only [ThreadPool.setWorker, List.map_append, List.map_cons, List.map_nil,
        List.count_append]
      omega
  | exited => simp only [state] at step; cases step

theorem Sound.step (sound : pool.Sound) {event : Event n Handle}
    (step : pool.Step event reached) : reached.Sound := by
  cases event with
  | scheduleById caller coro id =>
    simp only [Step, ThreadPool.step] at step
    split at step
    · cases step
      exact sound.setCaller _ _
    · cases step
  | caller caller locked chosen => exact sound.stepCaller step
  | worker worker locked done => exact sound.stepWorker step
  | destructor => exact sound.stepDestructor step

theorem sound_of_run {enableWorkSteal : Bool} {events : List (Event n Handle)}
    (run : Run Step (initial enableWorkSteal) events pool) : pool.Sound :=
  Run.invariant (fun _ pool => pool.Sound) (fun _ _ _ _ sound step => sound.step step) []
    (sound_initial enableWorkSteal) run

/-- When all workers are joined, a handle that was pushed in time was resumed once. -/
theorem pushed_handle_resumed_once {enableWorkSteal : Bool} {events : List (Event n Handle)}
    {handle : Handle} (run : Run Step (initial enableWorkSteal) events pool)
    (joined : pool.destructor = .joining n) (pushed : handle ∈ pool.early)
    (once : (pool.early ++ pool.late).count handle = 1) (unfinished : handle ∉ pool.finished) :
    ∃ worker, pool.resumed.filter (fun entry => entry.2 = handle) = [(worker, handle)] := by
  have sound := sound_of_run run
  have exited : ∀ worker, pool.workers worker = .exited := fun worker =>
    sound.joined worker n joined worker.isLt
  have inTime : handle ∉ pool.late := by
    have := List.count_pos_iff.mpr pushed
    rw [List.count_append] at once
    exact fun late => by
      have := List.count_pos_iff.mpr late
      omega
  have noneQueued : pool.queued handle = 0 := by
    refine Finset.sum_eq_zero fun id _ => List.count_eq_zero.mpr fun member => inTime ?_
    exact (sound.gone id (by rw [exited id]; trivial)).2 handle member
  have noneHeld : pool.held handle = 0 := by
    refine Finset.sum_eq_zero fun worker _ => ?_
    rw [exited worker]
    rfl
  have balance := sound.balance handle
  rw [noneQueued, noneHeld, List.count_eq_zero.mpr unfinished, ← List.count_append, once] at balance
  have length : (pool.resumed.filter fun entry => entry.2 = handle).length = 1 := by
    rw [← List.countP_eq_length_filter]
    rw [List.count_eq_countP, List.countP_map] at balance
    simpa [comp_def, beq_eq_decide] using balance.symm
  obtain ⟨⟨worker, other⟩, single⟩ := List.length_eq_one_iff.mp length
  have member : (worker, other) ∈ pool.resumed.filter fun entry => entry.2 = handle :=
    single ▸ List.mem_singleton_self _
  obtain rfl : other = handle := by simpa using (List.mem_filter.mp member).2
  exact ⟨worker, single⟩

theorem pushed_handle_resumed_once_stolen :
    ∃ pool : ThreadPool 2 Nat, pool.destructor = .joining 2 ∧ 7 ∈ pool.early ∧
      ∃ worker, pool.resumed.filter (fun entry => entry.2 = 7) = [(worker, 7)] := by
  let events : List (Event 2 Nat) :=
    [.scheduleById 0 7 none, .caller 0 true 0, .caller 0 true 0, .worker 1 true false,
      .worker 1 true false, .worker 1 true false, .destructor, .destructor, .destructor,
      .destructor, .worker 0 true false, .worker 0 true false, .worker 0 true false,
      .worker 0 true false, .worker 1 true false, .worker 1 true false, .worker 1 true false,
      .worker 1 true false, .destructor, .destructor]
  have steps : ∀ (pool : ThreadPool 2 Nat) event reached,
      ThreadPool.step pool event = some reached → pool.Step event reached := fun _ _ _ step => step
  obtain ⟨pool, run, checked⟩ := Run.exists_of_foldlM steps (initial true) events
    (fun pool => decide (pool.destructor = .joining 2 ∧ 7 ∈ pool.early ∧
      (pool.early ++ pool.late).count 7 = 1 ∧ 7 ∉ pool.finished)) (by decide +kernel)
  obtain ⟨joined, pushed, once, unfinished⟩ := of_decide_eq_true checked
  exact ⟨pool, joined, pushed, pushed_handle_resumed_once run joined pushed once unfinished⟩

end ThreadPool

end Bitdb.Co
