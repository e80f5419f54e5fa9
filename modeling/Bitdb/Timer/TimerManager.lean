import Bitdb.Base.Run
import Mathlib.Data.List.Basic
import Mathlib.Data.List.Perm.Basic

/-! Timers (`bitdb/timer/timer.h`). The heap is a vector that the methods change in place, and times
are counted in milliseconds. Identifiers and indices do not overflow. When the timers of a manager
fire correctly. -/

set_option autoImplicit false

namespace Bitdb

structure Timer (Task : Type) where
  expiryTime : Nat
  timerId : Nat
  task : Task
  deriving DecidableEq, Repr

section Heap

variable {Task : Type}

/-- `timers_[first].expiry_time < timers_[second].expiry_time`. -/
def expiresBefore (timers : Array (Timer Task)) (first second : Nat) : Bool :=
  match timers[first]?, timers[second]? with
  | some first, some second => first.expiryTime < second.expiryTime
  | _, _ => false

def heapifyUp (timers : Array (Timer Task)) (index : Nat) : Array (Timer Task) :=
  if index = 0 then timers
  else
    let parentIndex := (index - 1) / 2
    if expiresBefore timers index parentIndex then
      heapifyUp (timers.swapIfInBounds index parentIndex) parentIndex
    else timers
  termination_by index
  decreasing_by omega

def smallestIndex (timers : Array (Timer Task)) (index : Nat) : Nat :=
  let leftChildIndex := index * 2 + 1
  let rightChildIndex := index * 2 + 2
  let smallestIndex :=
    if leftChildIndex < timers.size ∧ expiresBefore timers leftChildIndex index then leftChildIndex
    else index
  if rightChildIndex < timers.size ∧ expiresBefore timers rightChildIndex smallestIndex then
    rightChildIndex
  else smallestIndex

theorem smallestIndex_cases (timers : Array (Timer Task)) (index : Nat) :
    smallestIndex timers index = index ∨
      index < smallestIndex timers index ∧ smallestIndex timers index < timers.size := by
  unfold smallestIndex
  grind

def heapifyDown (timers : Array (Timer Task)) (index : Nat) : Array (Timer Task) :=
  if smallestIndex timers index ≠ index then
    heapifyDown (timers.swapIfInBounds (smallestIndex timers index) index)
      (smallestIndex timers index)
  else timers
  termination_by timers.size - index
  decreasing_by
    have := smallestIndex_cases timers index
    rw [Array.size_swapIfInBounds]
    omega

def erase (timers : Array (Timer Task)) (index : Nat) : Array (Timer Task) :=
  heapifyDown (timers.swapIfInBounds index (timers.size - 1)).pop index

def push (timers : Array (Timer Task)) (timer : Timer Task) : Array (Timer Task) :=
  heapifyUp (timers.push timer) timers.size

/-- `pop` of a vector that is not empty. It returns what stands at the front of the vector
after `Erase`; without a defined value if that left the vector empty. -/
def pop (timers : Array (Timer Task)) : Option (Timer Task) × Array (Timer Task) :=
  let timers := erase timers 0
  (timers[0]?, timers)

def HeapOrdered (timers : Array (Timer Task)) : Prop :=
  ∀ index < timers.size, 0 < index → expiresBefore timers index ((index - 1) / 2) = false

instance (timers : Array (Timer Task)) : Decidable (HeapOrdered timers) :=
  inferInstanceAs (Decidable (∀ index < timers.size, _ → _))

end Heap

inductive TimerAction (Task : Type) where
  | added (timer : Timer Task)
  | removed (timerId : Nat)
  | launched (time : Nat) (timer : Timer Task)
  deriving DecidableEq, Repr

/-- A manager, together with the time of the last call and what has been done so far. A timer
counts as removed if `RemoveTimer` has found it. -/
structure TimerManager (Task : Type) where
  timers : Array (Timer Task)
  timerId : Nat
  clock : Nat
  past : List (TimerAction Task)

/-- The calls of `AddTimer` and `RemoveTimer`, and a turn of the loop in `Tick`. -/
inductive TimerCall (Task : Type) where
  | addTimer (now milliseconds : Nat) (callback : Task)
  | removeTimer (timerId : Nat)
  | tick (now : Nat)

namespace TimerManager

variable {Task : Type}

def initial : TimerManager Task := ⟨#[], 0, 0, []⟩

def addTimer (manager : TimerManager Task) (now milliseconds : Nat) (callback : Task) :
    TimerManager Task :=
  let timer := ⟨now + milliseconds, manager.timerId, callback⟩
  ⟨push manager.timers timer, manager.timerId + 1, now, manager.past ++ [.added timer]⟩

def removeTimer (manager : TimerManager Task) (timerId : Nat) : TimerManager Task :=
  match manager.timers.findIdx? (·.timerId = timerId) with
  | some index =>
    { manager with
      timers := erase manager.timers index, past := manager.past ++ [.removed timerId] }
  | none => manager

def due (manager : TimerManager Task) (now : Nat) : Bool :=
  manager.timers[0]?.any fun top => top.expiryTime ≤ now

def tick (manager : TimerManager Task) (now : Nat) : TimerManager Task :=
  if manager.due now then
    let popped := pop manager.timers
    { manager with
      timers := popped.2, clock := now
      past := manager.past ++ (popped.1.map (.launched now)).toList }
  else { manager with clock := now }

/-- A call at a time that is not before the last one. -/
def Step (manager : TimerManager Task) (call : TimerCall Task) (reached : TimerManager Task) :
    Prop :=
  match call with
  | .addTimer now milliseconds callback =>
    manager.clock ≤ now ∧ reached = manager.addTimer now milliseconds callback
  | .removeTimer timerId => reached = manager.removeTimer timerId
  | .tick now => manager.clock ≤ now ∧ reached = manager.tick now

/-- A step in which `Tick` does not find a timer that is due. -/
def QuietStep (manager : TimerManager Task) (call : TimerCall Task)
    (reached : TimerManager Task) : Prop :=
  manager.Step call reached ∧ ∀ now, call = .tick now → manager.due now = false

structure FiresCorrectly (manager : TimerManager Task) : Prop where
  due : ∀ time timer, .launched time timer ∈ manager.past → timer.expiryTime ≤ time
  once : ∀ before between after first second timer,
    manager.past ≠ before ++ .launched first timer :: (between ++ .launched second timer :: after)
  notRemoved : ∀ before between after time (timer : Timer Task),
    manager.past ≠ before ++ .removed timer.timerId :: (between ++ .launched time timer :: after)
  launched : ∀ timer, .added timer ∈ manager.past → timer ∉ manager.timers →
    .removed timer.timerId ∉ manager.past → ∃ time, .launched time timer ∈ manager.past

end TimerManager

open List Option

variable {Task : Type}

section Heap

section

variable (timers : Array (Timer Task))

include timers

theorem swapIfInBounds_perm (first second : Nat) :
    (timers.swapIfInBounds first second).toList.Perm timers.toList := by
  rw [Array.swapIfInBounds_def]
  split
  · split
    · exact (Array.swap_perm _ _).toList
    · exact .refl _
  · exact .refl _

theorem heapifyUp_perm (index : Nat) : (heapifyUp timers index).toList.Perm timers.toList := by
  induction timers, index using heapifyUp.induct with
  | case1 timers => rw [heapifyUp, if_pos rfl]
  | case2 timers index inner parentIndex before ih =>
    rw [heapifyUp, if_neg inner, if_pos before]
    exact ih.trans (swapIfInBounds_perm _ _ _)
  | case3 timers index inner parentIndex before =>
    rw [heapifyUp, if_neg inner, if_neg before]

theorem heapifyDown_perm (index : Nat) : (heapifyDown timers index).toList.Perm timers.toList := by
  induction timers, index using heapifyDown.induct with
  | case1 timers index child ih =>
    rw [heapifyDown, if_pos child]
    exact ih.trans (swapIfInBounds_perm _ _ _)
  | case2 timers index child => rw [heapifyDown, if_neg child]

theorem push_perm (timer : Timer Task) :
    (push timers timer).toList.Perm (timer :: timers.toList) := by
  refine (heapifyUp_perm _ _).trans ?_
  rw [Array.toList_push]
  exact perm_append_singleton timer timers.toList

end

theorem erase_perm {timers : Array (Timer Task)} {index : Nat} {timer : Timer Task}
    (found : timers[index]? = some timer) :
    (timer :: (erase timers index).toList).Perm timers.toList := by
  obtain ⟨inside, rfl⟩ := Array.getElem?_eq_some_iff.mp found
  let swapped := timers.swapIfInBounds index (timers.size - 1)
  have size : swapped.size = timers.size := Array.size_swapIfInBounds
  have last : swapped.toList.getLast? = some timers[index] := by
    rw [Array.getLast?_toList, Array.back?_eq_getElem?, size]
    have before : timers.size - 1 < timers.size := Nat.sub_one_lt_of_lt inside
    simp only [swapped, Array.swapIfInBounds_def, dif_pos inside, dif_pos before,
      Array.getElem?_swap, if_pos]
  have split : (timers[index] :: swapped.pop.toList).Perm swapped.toList := by
    rw [Array.toList_pop]
    obtain ⟨front, whole⟩ := List.getLast?_eq_some_iff.mp last
    rw [whole, dropLast_concat]
    exact (perm_append_singleton _ front).symm
  exact ((heapifyDown_perm _ _).cons _).trans (split.trans (swapIfInBounds_perm _ _ _))

end Heap

namespace TimerManager

def ids (manager : TimerManager Task) : List Nat := manager.timers.toList.map (·.timerId)

variable {manager : TimerManager Task}

theorem mem_ids {timer : Timer Task} (member : timer ∈ manager.timers.toList) :
    timer.timerId ∈ manager.ids :=
  mem_map_of_mem member

/-- What a call does if `Tick` does not find a timer that is due. -/
inductive Calm (manager reached : TimerManager Task) : Prop where
  | added (timer : Timer Task) (fresh : timer.timerId = manager.timerId)
      (timerId : reached.timerId = manager.timerId + 1)
      (timers : reached.timers.toList.Perm (timer :: manager.timers.toList))
      (past : reached.past = manager.past ++ [.added timer])
  | removed (timer : Timer Task) (timerId : reached.timerId = manager.timerId)
      (timers : (timer :: reached.timers.toList).Perm manager.timers.toList)
      (past : reached.past = manager.past ++ [.removed timer.timerId])
  | kept (timerId : reached.timerId = manager.timerId)
      (timers : reached.timers = manager.timers) (past : reached.past = manager.past)

/-- What `Tick` does if it finds one: the timer leaves the heap, and the task of the timer that
is now at the front is launched, if there is one. -/
structure Fired (timer : Timer Task) (manager reached : TimerManager Task) : Prop where
  timerId : reached.timerId = manager.timerId
  timers : (timer :: reached.timers.toList).Perm manager.timers.toList
  past : reached.past = manager.past ∨
    ∃ time, ∃ next ∈ reached.timers.toList, reached.past = manager.past ++ [.launched time next]

theorem removeTimer_calm (manager : TimerManager Task) (timerId : Nat) :
    Calm manager (manager.removeTimer timerId) := by
  rw [removeTimer]
  cases found : manager.timers.findIdx? (·.timerId = timerId) with
  | none => exact .kept rfl rfl rfl
  | some index =>
    obtain ⟨inside, same, _⟩ := Array.findIdx?_eq_some_iff_getElem.mp found
    obtain rfl : manager.timers[index].timerId = timerId := of_decide_eq_true same
    exact .removed manager.timers[index] rfl (erase_perm (Array.getElem?_eq_getElem inside)) rfl

theorem tick_fired {now : Nat} (due : manager.due now = true) :
    ∃ timer, Fired timer manager (manager.tick now) := by
  rw [tick, if_pos due]
  rw [TimerManager.due, Option.any_eq_true] at due
  obtain ⟨timer, front, _⟩ := due
  refine ⟨timer, rfl, erase_perm front, ?_⟩
  cases next : (erase manager.timers 0)[0]? with
  | none => exact .inl (by simp only [pop, next, map_none, toList_none, append_nil])
  | some next' =>
    refine .inr ⟨now, next', Array.mem_toList_iff.mpr (Array.mem_of_getElem? next), ?_⟩
    simp only [pop, next, map_some, toList_some]

theorem Step.calm_or_fired {reached : TimerManager Task} {call : TimerCall Task}
    (step : manager.Step call reached) :
    manager.QuietStep call reached ∧ Calm manager reached ∨
      ¬ manager.QuietStep call reached ∧ ∃ timer, Fired timer manager reached := by
  cases call with
  | addTimer now milliseconds callback =>
    refine .inl ⟨⟨step, by rintro _ ⟨⟩⟩, ?_⟩
    obtain ⟨_, rfl⟩ := step
    exact .added _ rfl rfl (push_perm _ _) rfl
  | removeTimer timerId =>
    refine .inl ⟨⟨step, by rintro _ ⟨⟩⟩, ?_⟩
    obtain rfl : reached = manager.removeTimer timerId := step
    exact manager.removeTimer_calm timerId
  | tick now =>
    obtain ⟨later, rfl⟩ := step
    cases due : manager.due now with
    | false =>
      refine .inl ⟨⟨⟨later, rfl⟩, ?_⟩, ?_⟩
      · rintro _ ⟨⟩
        exact due
      · rw [tick, if_neg (by simp [due])]
        exact .kept rfl rfl rfl
    | true =>
      refine .inr ⟨fun quiet => ?_, tick_fired due⟩
      have idle := quiet.2 now rfl
      rw [due] at idle
      cases idle

/-- Identifiers are given out once, and a timer that was removed is not in the heap. -/
structure Sound (manager : TimerManager Task) : Prop where
  held : ∀ timer ∈ manager.timers.toList, .added timer ∈ manager.past
  fresh : ∀ timer, .added timer ∈ manager.past → timer.timerId < manager.timerId
  distinct : manager.ids.Nodup
  gone : ∀ timerId, .removed timerId ∈ manager.past →
    timerId < manager.timerId ∧ timerId ∉ manager.ids

/-- Nothing was launched, and every timer is in the heap or was removed. -/
structure Silent (manager : TimerManager Task) : Prop where
  nothing : ∀ time timer, .launched time timer ∉ manager.past
  accounted : ∀ timer, .added timer ∈ manager.past →
    timer ∈ manager.timers.toList ∨ .removed timer.timerId ∈ manager.past

/-- The timer has left the heap, although it was neither removed nor launched. -/
structure Lost (timer : Timer Task) (manager : TimerManager Task) : Prop where
  added : .added timer ∈ manager.past
  absent : timer.timerId ∉ manager.ids
  notRemoved : .removed timer.timerId ∉ manager.past
  notLaunched : ∀ time other, .launched time other ∈ manager.past → other.timerId ≠ timer.timerId

variable {manager reached : TimerManager Task} {timer : Timer Task}

theorem ids_perm (timers : (timer :: reached.timers.toList).Perm manager.timers.toList) :
    (timer.timerId :: reached.ids).Perm manager.ids :=
  timers.map Timer.timerId

section

variable (sound : manager.Sound)

include sound

theorem Sound.leaving (timers : (timer :: reached.timers.toList).Perm manager.timers.toList) :
    timer.timerId ∉ reached.ids ∧ reached.ids.Nodup ∧ ∀ id ∈ reached.ids, id ∈ manager.ids := by
  have distinct := (ids_perm timers).nodup_iff.mpr sound.distinct
  rw [nodup_cons] at distinct
  exact ⟨distinct.1, distinct.2, fun id member =>
    (ids_perm timers).subset (mem_cons_of_mem _ member)⟩

theorem Sound.shrink {actions : List (TimerAction Task)}
    (timerId : reached.timerId = manager.timerId)
    (timers : (timer :: reached.timers.toList).Perm manager.timers.toList)
    (past : reached.past = manager.past ++ actions) (notAdded : ∀ other, .added other ∉ actions)
    (removed : ∀ id, .removed id ∈ actions → id = timer.timerId) : reached.Sound := by
  obtain ⟨absent, distinct, subset⟩ := sound.leaving timers
  constructor
  · intro other member
    rw [past, mem_append]
    exact .inl (sound.held other (timers.subset (mem_cons_of_mem _ member)))
  · intro other happened
    rw [past, mem_append] at happened
    rw [timerId]
    exact sound.fresh other (happened.resolve_right (notAdded other))
  · exact distinct
  · intro id happened
    rw [past, mem_append] at happened
    rw [timerId]
    rcases happened with earlier | now
    · exact ⟨(sound.gone id earlier).1, fun member => (sound.gone id earlier).2 (subset id member)⟩
    · rw [removed id now]
      exact ⟨sound.fresh timer (sound.held timer (timers.subset mem_cons_self)), absent⟩

theorem Sound.calm (calm : Calm manager reached) : reached.Sound := by
  cases calm with
  | added timer fresh timerId timers past =>
    have ids : reached.ids.Perm (timer.timerId :: manager.ids) := timers.map Timer.timerId
    have unused : timer.timerId ∉ manager.ids := by
      intro used
      obtain ⟨other, member, same⟩ := mem_map.mp used
      have earlier := sound.fresh other (sound.held other member)
      omega
    constructor
    · intro other member
      rw [past, mem_append]
      rcases mem_cons.mp (timers.subset member) with rfl | older
      · exact .inr mem_cons_self
      · exact .inl (sound.held other older)
    · intro other happened
      rw [past, mem_append] at happened
      rcases happened with earlier | now
      · have := sound.fresh other earlier
        omega
      · cases mem_singleton.mp now
        omega
    · exact ids.nodup_iff.mpr (nodup_cons.mpr ⟨unused, sound.distinct⟩)
    · intro id happened
      rw [past, mem_append] at happened
      rcases happened with earlier | now
      · obtain ⟨below, absent⟩ := sound.gone id earlier
        refine ⟨by omega, fun member => ?_⟩
        rcases mem_cons.mp (ids.subset member) with rfl | older
        · omega
        · exact absent older
      · cases mem_singleton.mp now
  | removed timer timerId timers past =>
    refine sound.shrink timerId timers past (fun other now => ?_) (fun id now => ?_)
    · cases mem_singleton.mp now
    · cases mem_singleton.mp now
      rfl
  | kept timerId timers past =>
    have same : reached.ids = manager.ids := by rw [ids, ids, timers]
    exact ⟨by rw [timers, past]; exact sound.held, by rw [past, timerId]; exact sound.fresh,
      by rw [same]; exact sound.distinct, by rw [past, timerId, same]; exact sound.gone⟩

theorem Sound.fired (fired : Fired timer manager reached) : reached.Sound := by
  rcases fired.past with same | ⟨time, next, _, past⟩
  · exact sound.shrink fired.timerId fired.timers (same.trans (append_nil _).symm)
      (fun _ => not_mem_nil) (by rintro _ ⟨⟩)
  · refine sound.shrink fired.timerId fired.timers past (fun other now => ?_) (fun id now => ?_)
    · cases mem_singleton.mp now
    · cases mem_singleton.mp now

end

theorem Silent.calm (silent : manager.Silent) (calm : Calm manager reached) : reached.Silent := by
  cases calm with
  | added timer fresh timerId timers past =>
    constructor
    · intro time other happened
      rw [past, mem_append] at happened
      rcases happened with earlier | now
      · exact silent.nothing time other earlier
      · cases mem_singleton.mp now
    · intro other happened
      rw [past, mem_append] at happened ⊢
      rcases happened with earlier | now
      · rcases silent.accounted other earlier with member | removed
        · exact .inl (timers.symm.subset (mem_cons_of_mem _ member))
        · exact .inr (.inl removed)
      · cases mem_singleton.mp now
        exact .inl (timers.symm.subset mem_cons_self)
  | removed timer timerId timers past =>
    constructor
    · intro time other happened
      rw [past, mem_append] at happened
      rcases happened with earlier | now
      · exact silent.nothing time other earlier
      · cases mem_singleton.mp now
    · intro other happened
      rw [past, mem_append] at happened ⊢
      rcases happened with earlier | now
      · rcases silent.accounted other earlier with member | removed
        · rcases mem_cons.mp (timers.symm.subset member) with rfl | held
          · exact .inr (.inr mem_cons_self)
          · exact .inl held
        · exact .inr (.inl removed)
      · cases mem_singleton.mp now
  | kept timerId timers past =>
    exact ⟨by rw [past]; exact silent.nothing, by rw [past, timers]; exact silent.accounted⟩

theorem Silent.firesCorrectly (silent : manager.Silent) : manager.FiresCorrectly where
  due time timer happened := absurd happened (silent.nothing time timer)
  once before between after first second timer past :=
    silent.nothing first timer (past ▸ mem_append_right _ mem_cons_self)
  notRemoved before between after time timer past := by
    refine silent.nothing time timer ?_
    rw [past]
    simp
  launched timer added absent notRemoved := by
    rcases silent.accounted timer added with member | removed
    · exact absurd (Array.mem_toList_iff.mp member) absent
    · exact absurd removed notRemoved

section

variable {lost : Timer Task} (gone : manager.Lost lost)

include gone

theorem Lost.extend {actions : List (TimerAction Task)} (absent : lost.timerId ∉ reached.ids)
    (past : reached.past = manager.past ++ actions) (notRemoved : .removed lost.timerId ∉ actions)
    (notLaunched : ∀ time other, .launched time other ∈ actions →
      other.timerId ≠ lost.timerId) : reached.Lost lost := by
  constructor
  · rw [past]
    exact mem_append_left _ gone.added
  · exact absent
  · rw [past, mem_append, not_or]
    exact ⟨gone.notRemoved, notRemoved⟩
  · intro time other happened
    rw [past, mem_append] at happened
    exact happened.elim (gone.notLaunched time other) (notLaunched time other)

theorem Lost.calm (sound : manager.Sound) (calm : Calm manager reached) : reached.Lost lost := by
  cases calm with
  | added timer fresh timerId timers past =>
    have different : lost.timerId ≠ timer.timerId := by
      have := sound.fresh lost gone.added
      omega
    have ids : reached.ids.Perm (timer.timerId :: manager.ids) := timers.map Timer.timerId
    refine gone.extend (fun member => ?_) past (fun now => ?_) (fun _ _ now => ?_)
    · exact gone.absent ((mem_cons.mp (ids.subset member)).resolve_left different)
    · cases mem_singleton.mp now
    · cases mem_singleton.mp now
  | removed timer timerId timers past =>
    have different : lost.timerId ≠ timer.timerId := fun same =>
      gone.absent (same ▸ (ids_perm timers).subset mem_cons_self)
    refine gone.extend (fun member => ?_) past (fun now => ?_) (fun _ _ now => ?_)
    · exact gone.absent ((sound.leaving timers).2.2 _ member)
    · exact different (TimerAction.removed.inj (mem_singleton.mp now))
    · cases mem_singleton.mp now
  | kept timerId timers past =>
    have same : reached.ids = manager.ids := by rw [ids, ids, timers]
    exact gone.extend (same ▸ gone.absent) (past.trans (append_nil _).symm)
      not_mem_nil (by rintro _ _ ⟨⟩)

theorem Lost.fired (sound : manager.Sound) (fired : Fired timer manager reached) :
    reached.Lost lost := by
  have absent : lost.timerId ∉ reached.ids := fun member =>
    gone.absent ((sound.leaving fired.timers).2.2 _ member)
  rcases fired.past with same | ⟨time, next, held, past⟩
  · exact gone.extend absent (same.trans (append_nil _).symm) not_mem_nil
      (by rintro _ _ ⟨⟩)
  · refine gone.extend absent past (fun now => ?_) (fun _ _ now => ?_)
    · cases mem_singleton.mp now
    · cases mem_singleton.mp now
      exact fun same => absent (same ▸ mem_ids held)

end

theorem Silent.fired (silent : manager.Silent) (sound : manager.Sound)
    (fired : Fired timer manager reached) : reached.Lost timer := by
  obtain ⟨absent, _, _⟩ := sound.leaving fired.timers
  have member : timer ∈ manager.timers.toList := fired.timers.subset mem_cons_self
  have added := sound.held timer member
  have notRemoved : .removed timer.timerId ∉ manager.past := fun happened =>
    (sound.gone _ happened).2 (mem_ids member)
  rcases fired.past with same | ⟨time, next, held, past⟩
  · rw [← same] at added notRemoved
    refine ⟨added, absent, notRemoved, fun time other happened => ?_⟩
    rw [same] at happened
    exact absurd happened (silent.nothing time other)
  · refine ⟨?_, absent, ?_, fun time' other happened => ?_⟩
    · rw [past]
      exact mem_append_left _ added
    · rw [past, mem_append, not_or]
      exact ⟨notRemoved, by simp⟩
    · rw [past, mem_append] at happened
      rcases happened with earlier | now
      · exact absurd earlier (silent.nothing time' other)
      · cases mem_singleton.mp now
        exact fun same => absent (same ▸ mem_ids held)

theorem Lost.not_firesCorrectly (gone : manager.Lost timer) : ¬ manager.FiresCorrectly := by
  intro correct
  have absent : timer ∉ manager.timers := fun member =>
    gone.absent (mem_ids (Array.mem_toList_iff.mpr member))
  obtain ⟨time, launched⟩ := correct.launched timer gone.added absent gone.notRemoved
  exact gone.notLaunched time timer launched rfl

theorem sound_initial : (initial : TimerManager Task).Sound :=
  ⟨by rintro _ ⟨⟩, by rintro _ ⟨⟩, nodup_nil, by rintro _ ⟨⟩⟩

theorem silent_initial : (initial : TimerManager Task).Silent :=
  ⟨by rintro _ _ ⟨⟩, by rintro _ ⟨⟩⟩

open Base (Run)

variable {calls : List (TimerCall Task)}

theorem silent_of_run (sound : manager.Sound) (silent : manager.Silent)
    (run : Run QuietStep manager calls reached) : reached.Silent := by
  induction run with
  | nil state => exact silent
  | cons step later ih =>
    rcases step.1.calm_or_fired with ⟨_, calm⟩ | ⟨loud, _⟩
    · exact ih (sound.calm calm) (silent.calm calm)
    · exact absurd step loud

theorem Lost.run (gone : manager.Lost timer) (sound : manager.Sound)
    (run : Run Step manager calls reached) : reached.Lost timer := by
  induction run with
  | nil state => exact gone
  | cons step later ih =>
    rcases step.calm_or_fired with ⟨_, calm⟩ | ⟨_, popped, fired⟩
    · exact ih (gone.calm sound calm) (sound.calm calm)
    · exact ih (gone.fired sound fired) (sound.fired fired)

theorem quiet_or_lost (sound : manager.Sound) (silent : manager.Silent)
    (run : Run Step manager calls reached) :
    Run QuietStep manager calls reached ∨ ∃ timer, reached.Lost timer := by
  induction run with
  | nil state => exact .inl (.nil state)
  | cons step later ih =>
    rcases step.calm_or_fired with ⟨quiet, calm⟩ | ⟨_, popped, fired⟩
    · exact (ih (sound.calm calm) (silent.calm calm)).imp_left (.cons quiet)
    · exact .inr ⟨popped, (silent.fired sound fired).run (sound.fired fired) later⟩

/-- The timers of a run fire correctly exactly as long as none of them fires. -/
theorem timers_fire_correctly_iff (run : Run Step initial calls reached) :
    reached.FiresCorrectly ↔ Run QuietStep initial calls reached := by
  constructor
  · intro correct
    refine (quiet_or_lost sound_initial silent_initial run).resolve_right ?_
    rintro ⟨timer, gone⟩
    exact gone.not_firesCorrectly correct
  · intro quiet
    exact (silent_of_run sound_initial silent_initial quiet).firesCorrectly

theorem timers_fire_correctly_removed :
    let manager : TimerManager Nat :=
      (((initial.addTimer 0 5 1).addTimer 1 9 2).removeTimer 0).tick 8
    manager.FiresCorrectly ↔
      Run QuietStep initial [.addTimer 0 5 1, .addTimer 1 9 2, .removeTimer 0, .tick 8] manager :=
  timers_fire_correctly_iff (.cons ⟨Nat.le_refl 0, rfl⟩ (.cons ⟨Nat.zero_le 1, rfl⟩
    (.cons rfl (.cons ⟨by decide +kernel, rfl⟩ (.nil _)))))

/-- Of two timers, the one that expires at 9 is launched at 5 and the other one never. -/
theorem due_timer_launches_next :
    ∃ manager : TimerManager Nat,
      Run Step initial [.addTimer 0 5 1, .addTimer 0 9 2, .tick 5] manager ∧
      manager.past = [.added ⟨5, 0, 1⟩, .added ⟨9, 1, 2⟩, .launched 5 ⟨9, 1, 2⟩] ∧
      manager.timers = #[⟨9, 1, 2⟩] := by
  refine ⟨((initial.addTimer 0 5 1).addTimer 0 9 2).tick 5,
    .cons ⟨Nat.le_refl 0, rfl⟩ (.cons ⟨Nat.le_refl 0, rfl⟩
      (.cons ⟨by decide +kernel, rfl⟩ (.nil _))), ?_, ?_⟩
  · decide +kernel
  · decide +kernel

end TimerManager

end Bitdb
