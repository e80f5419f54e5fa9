import Bitdb.Base.Heap
import Bitdb.Timer.TimerManager
import Mathlib.Data.Nat.Basic

/-! `Push` and the removal of the front keep the heap, and when `RemoveTimer` does. -/

set_option autoImplicit false

namespace Bitdb

open Base Heap Array

variable {Task : Type} {timers : Array (Timer Task)} {index : Nat}

def expiryAt (timers : Array (Timer Task)) (place : Nat) : Nat :=
  (timers[place]?.map Timer.expiryTime).getD 0

theorem expiryAt_eq (inside : index < timers.size) :
    expiryAt timers index = timers[index].expiryTime := by
  rw [expiryAt, Array.getElem?_eq_getElem inside]
  rfl

theorem expiresBefore_iff {first second : Nat} (firstInside : first < timers.size)
    (secondInside : second < timers.size) :
    expiresBefore timers first second = true ↔ expiryAt timers first < expiryAt timers second := by
  rw [expiresBefore, Array.getElem?_eq_getElem firstInside, Array.getElem?_eq_getElem secondInside,
    expiryAt_eq firstInside, expiryAt_eq secondInside, decide_eq_true_iff]

theorem heapOrdered_iff : HeapOrdered timers ↔ Heap.Ordered (expiryAt timers) timers.size := by
  refine forall_congr' fun child => forall_comm.trans ?_
  refine forall_congr' fun inner => forall_congr' fun inside => ?_
  have parentInside := Nat.lt_trans (parent_lt inner) inside
  rw [← Nat.not_lt, ← expiresBefore_iff inside parentInside, Bool.not_eq_true]
  rfl

theorem expiryAt_swapIfInBounds {first second : Nat} (firstInside : first < timers.size)
    (secondInside : second < timers.size) :
    expiryAt (timers.swapIfInBounds first second) = expiryAt timers ∘ Equiv.swap first second := by
  funext place
  rw [Function.comp_apply, expiryAt, expiryAt, swapIfInBounds_def, dif_pos firstInside,
    dif_pos secondInside, Array.getElem?_swap, Equiv.swap_apply_def]
  grind

def earlierOf (timers : Array (Timer Task)) (best place : Nat) : Nat :=
  if place < timers.size ∧ expiresBefore timers place best then place else best

theorem earlierOf_spec {best : Nat} (inside : best < timers.size) (place : Nat) :
    (earlierOf timers best place = best ∨
      earlierOf timers best place = place ∧ place < timers.size) ∧
    expiryAt timers (earlierOf timers best place) ≤ expiryAt timers best ∧
    (place < timers.size →
      expiryAt timers (earlierOf timers best place) ≤ expiryAt timers place) := by
  unfold earlierOf
  by_cases placeInside : place < timers.size
  · have compared := expiresBefore_iff placeInside inside
    grind
  · simp [placeInside]

section

variable (inside : index < timers.size)

include inside

theorem smallestIndex_spec :
    (smallestIndex timers index = index ∨
      0 < smallestIndex timers index ∧ smallestIndex timers index < timers.size ∧
        parent (smallestIndex timers index) = index) ∧
    expiryAt timers (smallestIndex timers index) ≤ expiryAt timers index ∧
    ∀ child, 0 < child → child < timers.size → parent child = index →
      expiryAt timers (smallestIndex timers index) ≤ expiryAt timers child := by
  obtain ⟨leftPlace, leftBest, leftLeast⟩ := earlierOf_spec inside (index * 2 + 1)
  have leftInside : earlierOf timers index (index * 2 + 1) < timers.size := by
    omega
  obtain ⟨rightPlace, rightBest, rightLeast⟩ := earlierOf_spec leftInside (index * 2 + 2)
  rw [show smallestIndex timers index =
    earlierOf timers (earlierOf timers index (index * 2 + 1)) (index * 2 + 2) from rfl]
  unfold parent
  refine ⟨by omega, Nat.le_trans rightBest leftBest, ?_⟩
  intro child inner childInside below
  have side : child = index * 2 + 1 ∨ child = index * 2 + 2 := by
    omega
  rcases side with rfl | rfl
  · exact Nat.le_trans rightBest (leftLeast childInside)
  · exact rightLeast childInside

theorem heapifyDown_heapOrdered (but : Heap.OrderedBut (expiryAt timers) timers.size index) :
    HeapOrdered (heapifyDown timers index) := by
  induction timers, index using heapifyDown.induct with
  | case1 timers index down ih =>
    obtain ⟨place, smaller, least⟩ := smallestIndex_spec inside
    obtain ⟨inner, childInside, below⟩ := place.resolve_left down
    rw [heapifyDown, if_pos down]
    refine ih (by rwa [size_swapIfInBounds]) ?_
    rw [size_swapIfInBounds, expiryAt_swapIfInBounds childInside inside]
    exact but.swap inner childInside below smaller least
  | case2 timers index stay =>
    obtain ⟨-, -, least⟩ := smallestIndex_spec inside
    rw [heapifyDown, if_neg stay, heapOrdered_iff]
    rw [not_not.mp stay] at least
    exact but.ordered least

theorem heapifyDown_eq_self
    (least : ∀ child, 0 < child → child < timers.size → parent child = index →
      expiryAt timers index < expiryAt timers child) : heapifyDown timers index = timers := by
  rw [heapifyDown]
  refine if_neg (not_not.mpr ?_)
  obtain ⟨place, smaller, -⟩ := smallestIndex_spec inside
  refine place.resolve_right ?_
  rintro ⟨inner, childInside, below⟩
  have before := least _ inner childInside below
  omega

theorem heapifyUp_heapOrdered (upTo : Heap.OrderedUpTo (expiryAt timers) timers.size index) :
    HeapOrdered (heapifyUp timers index) := by
  induction timers, index using heapifyUp.induct with
  | case1 timers =>
    rw [heapifyUp, if_pos rfl, heapOrdered_iff]
    exact upTo.ordered fun inner => absurd inner (Nat.lt_irrefl 0)
  | case2 timers index inner parentIndex before ih =>
    have positive := Nat.pos_of_ne_zero inner
    have parentInside : parentIndex < timers.size := Nat.lt_trans (parent_lt positive) inside
    have earlier := (expiresBefore_iff inside parentInside).mp before
    rw [heapifyUp, if_neg inner, if_pos before]
    refine ih (by rwa [size_swapIfInBounds]) ?_
    rw [size_swapIfInBounds, expiryAt_swapIfInBounds inside parentInside]
    exact upTo.swap positive inside (Nat.le_of_lt earlier)
  | case3 timers index inner parentIndex before =>
    have parentInside : parentIndex < timers.size :=
      Nat.lt_trans (parent_lt (Nat.pos_of_ne_zero inner)) inside
    rw [heapifyUp, if_neg inner, if_neg before, heapOrdered_iff]
    refine upTo.ordered fun _ => Nat.le_of_not_lt fun earlier => before ?_
    exact (expiresBefore_iff inside parentInside).mpr earlier

end

theorem heapifyDown_outside (outside : timers.size ≤ index) :
    heapifyDown timers index = timers := by
  rw [heapifyDown]
  refine if_neg (not_not.mpr ?_)
  have place := smallestIndex_cases timers index
  omega

theorem expiryAt_push (timer : Timer Task) (inside : index < timers.size) :
    expiryAt (timers.push timer) index = expiryAt timers index := by
  rw [expiryAt, expiryAt, Array.getElem?_push_lt inside, Array.getElem?_eq_getElem inside]

theorem push_heapOrdered (ordered : HeapOrdered timers) (timer : Timer Task) :
    HeapOrdered (push timers timer) := by
  rw [heapOrdered_iff] at ordered
  refine heapifyUp_heapOrdered (by simp) ?_
  rw [size_push]
  constructor
  · intro child inner inside elsewhere
    have childInside : child < timers.size := by omega
    rw [expiryAt_push timer childInside,
      expiryAt_push timer (Nat.lt_trans (parent_lt inner) childInside)]
    exact ordered child inner childInside
  · intro child inner inside below
    have above := parent_lt inner
    omega

def FrontLeast (timers : Array (Timer Task)) : Prop :=
  ∀ front, timers[0]? = some front → ∀ timer ∈ timers, front.expiryTime ≤ timer.expiryTime

theorem HeapOrdered.frontLeast (ordered : HeapOrdered timers) : FrontLeast timers := by
  intro front found timer member
  obtain ⟨index, inside, rfl⟩ := getElem_of_mem member
  obtain ⟨frontInside, rfl⟩ := Array.getElem?_eq_some_iff.mp found
  have least := (heapOrdered_iff.mp ordered).least inside
  rwa [expiryAt_eq frontInside, expiryAt_eq inside] at least

section Erase

def movedLast (timers : Array (Timer Task)) (index : Nat) : Array (Timer Task) :=
  (timers.swapIfInBounds index (timers.size - 1)).pop

theorem movedLast_size (timers : Array (Timer Task)) (index : Nat) :
    (movedLast timers index).size = timers.size - 1 := by
  rw [movedLast, size_pop, size_swapIfInBounds]

theorem expiryAt_movedLast (inside : index < timers.size) {place : Nat}
    (kept : place < timers.size - 1) :
    expiryAt (movedLast timers index) place =
      if place = index then expiryAt timers (timers.size - 1) else expiryAt timers place := by
  have lastInside : timers.size - 1 < timers.size := Nat.sub_one_lt_of_lt inside
  have swapped : expiryAt (movedLast timers index) place =
      expiryAt (timers.swapIfInBounds index (timers.size - 1)) place := by
    rw [expiryAt, expiryAt, movedLast, Array.getElem?_pop, size_swapIfInBounds, if_pos kept]
  rw [swapped, expiryAt_swapIfInBounds inside lastInside, Function.comp_apply,
    Equiv.swap_apply_def, if_neg (Nat.ne_of_lt kept)]
  split <;> rfl

/-- In which case the timer that `Erase` moves expires before its new parent. -/
def Misplaced (timers : Array (Timer Task)) (index : Nat) : Prop :=
  0 < index ∧ index < timers.size - 1 ∧
    expiresBefore timers (timers.size - 1) ((index - 1) / 2) = true

theorem misplaced_iff (inside : index < timers.size) :
    Misplaced timers index ↔ 0 < index ∧ index < timers.size - 1 ∧
      expiryAt timers (timers.size - 1) < expiryAt timers (parent index) := by
  refine and_congr_right fun inner => and_congr_right fun _ => ?_
  exact expiresBefore_iff (Nat.sub_one_lt_of_lt inside)
    (Nat.lt_trans (parent_lt inner) inside)

section

variable (ordered : HeapOrdered timers)

include ordered

theorem erase_last (last : index = timers.size - 1) (inside : index < timers.size) :
    HeapOrdered (erase timers index) := by
  have kept : heapifyDown (movedLast timers index) index = movedLast timers index :=
    heapifyDown_outside (by rw [movedLast_size, last])
  change HeapOrdered (heapifyDown (movedLast timers index) index)
  rw [heapOrdered_iff] at ordered
  rw [kept, heapOrdered_iff, movedLast_size]
  intro child inner childInside
  have above := parent_lt inner
  rw [expiryAt_movedLast inside childInside, expiryAt_movedLast inside (by omega),
    if_neg (by omega), if_neg (by omega)]
  exact ordered child inner (by omega)

theorem erase_ordered (before : index < timers.size - 1) (placed : ¬ Misplaced timers index) :
    HeapOrdered (erase timers index) := by
  have inside : index < timers.size := by omega
  rw [misplaced_iff inside] at placed
  rw [heapOrdered_iff] at ordered
  refine heapifyDown_heapOrdered (by rwa [← movedLast, movedLast_size]) ?_
  rw [← movedLast, movedLast_size]
  constructor
  · intro child inner childInside elsewhere
    have above := parent_lt inner
    rw [expiryAt_movedLast inside childInside, expiryAt_movedLast inside (by omega),
      if_neg elsewhere]
    split
    · rename_i same
      subst same
      omega
    · exact ordered child inner (by omega)
  · intro child inner childInside below innerHole
    have above := parent_lt inner
    have higher := parent_lt innerHole
    rw [expiryAt_movedLast inside childInside, expiryAt_movedLast inside (by omega),
      if_neg (by omega), if_neg (by omega)]
    have upper := ordered index innerHole inside
    have lower := ordered child inner (by omega)
    rw [below] at lower
    exact Nat.le_trans upper lower

theorem erase_misplaced (misplaced : Misplaced timers index) :
    ¬ HeapOrdered (erase timers index) := by
  obtain ⟨inner, before, -⟩ := id misplaced
  have inside : index < timers.size := by omega
  obtain ⟨-, -, earlier⟩ := (misplaced_iff inside).mp misplaced
  rw [heapOrdered_iff] at ordered
  have moved : expiryAt (movedLast timers index) index = expiryAt timers (timers.size - 1) := by
    rw [expiryAt_movedLast inside before, if_pos rfl]
  have kept : heapifyDown (movedLast timers index) index = movedLast timers index := by
    refine heapifyDown_eq_self (by rwa [movedLast_size]) ?_
    intro child childInner childInside below
    rw [movedLast_size] at childInside
    have above := parent_lt childInner
    rw [moved, expiryAt_movedLast inside childInside, if_neg (by omega)]
    have upper := ordered index inner inside
    have lower := ordered child childInner (by omega)
    rw [below] at lower
    exact Nat.lt_of_lt_of_le earlier (Nat.le_trans upper lower)
  change ¬ HeapOrdered (heapifyDown (movedLast timers index) index)
  rw [kept, heapOrdered_iff, movedLast_size]
  intro still
  have higher := parent_lt inner
  have edge := still index inner before
  rw [moved, expiryAt_movedLast inside (by omega), if_neg (by omega)] at edge
  omega

theorem erase_heapOrdered_iff (inside : index < timers.size) :
    HeapOrdered (erase timers index) ↔ ¬ Misplaced timers index := by
  refine ⟨fun kept misplaced => erase_misplaced ordered misplaced kept, fun placed => ?_⟩
  by_cases last : index = timers.size - 1
  · exact erase_last ordered last inside
  · exact erase_ordered ordered (by omega) placed

end

end Erase

namespace TimerManager

/-- `RemoveTimer` takes out the timer it was asked for and nothing else, and keeps the heap unless
the last timer expires before the parent of the place it is moved to. -/
theorem removeTimer_keeps_heap_iff (manager : TimerManager Task) (timerId : Nat)
    (ordered : HeapOrdered manager.timers) :
    (timerId ∉ manager.ids → (manager.removeTimer timerId).timers = manager.timers) ∧
    (timerId ∈ manager.ids → ∃ timer, timer.timerId = timerId ∧
      (timer :: (manager.removeTimer timerId).timers.toList).Perm manager.timers.toList) ∧
    (HeapOrdered (manager.removeTimer timerId).timers ↔
      ∀ index, manager.timers.findIdx? (·.timerId = timerId) = some index →
        ¬ Misplaced manager.timers index) := by
  cases found : manager.timers.findIdx? (·.timerId = timerId) with
  | none =>
    have kept : manager.removeTimer timerId = manager := by
      rw [removeTimer, found]
    have absent : timerId ∉ manager.ids := by
      intro member
      obtain ⟨timer, held, same⟩ := List.mem_map.mp member
      have different := Array.findIdx?_eq_none_iff.mp found timer (Array.mem_toList_iff.mp held)
      exact of_decide_eq_false different same
    rw [kept]
    refine ⟨fun _ => rfl, fun member => absurd member absent, ?_, fun _ => ordered⟩
    rintro _ index ⟨⟩
  | some index =>
    obtain ⟨inside, same, _⟩ := Array.findIdx?_eq_some_iff_getElem.mp found
    have named : manager.timers[index].timerId = timerId := of_decide_eq_true same
    have erased : (manager.removeTimer timerId).timers = erase manager.timers index := by
      rw [removeTimer, found]
    have present : timerId ∈ manager.ids :=
      named ▸ mem_ids (Array.mem_toList_iff.mpr (Array.getElem_mem inside))
    rw [erased, erase_heapOrdered_iff ordered inside]
    refine ⟨fun absent => absurd present absent, fun _ => ⟨_, named,
      erase_perm (Array.getElem?_eq_getElem inside)⟩, ?_, fun placed => placed index rfl⟩
    rintro placed _ ⟨⟩
    exact placed

theorem removeTimer_keeps_heap_middle :
    let manager : TimerManager Unit := ⟨#[⟨1, 0, ()⟩, ⟨4, 1, ()⟩, ⟨2, 2, ()⟩, ⟨5, 3, ()⟩], 4, 0, []⟩
    HeapOrdered (manager.removeTimer 1).timers := by
  intro manager
  refine (removeTimer_keeps_heap_iff manager 1 (by decide)).2.2.mpr ?_
  rintro index found ⟨-, -, before⟩
  have second : manager.timers.findIdx? (·.timerId = 1) = some 1 := by decide +kernel
  cases second.symm.trans found
  cases before

/-- When the timer that expires at 11 is cancelled, the one that expires at 3 ends up below the
one that expires at 10. -/
theorem removeTimer_breaks_heap :
    let manager : TimerManager Unit :=
      ⟨#[⟨1, 0, ()⟩, ⟨10, 1, ()⟩, ⟨2, 2, ()⟩, ⟨11, 3, ()⟩, ⟨12, 4, ()⟩, ⟨3, 5, ()⟩], 6, 0, []⟩
    HeapOrdered manager.timers ∧ (manager.removeTimer 3).timers =
        #[⟨1, 0, ()⟩, ⟨10, 1, ()⟩, ⟨2, 2, ()⟩, ⟨3, 5, ()⟩, ⟨12, 4, ()⟩] ∧
      ¬ HeapOrdered (manager.removeTimer 3).timers := by
  decide +kernel

end TimerManager

end Bitdb
