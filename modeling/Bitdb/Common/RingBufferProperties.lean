import Bitdb.Common.Buffer
import Mathlib.Data.Nat.ModEq

/-! When the ring buffer is a queue. `Push` takes the slot `write_index_ % size_`, `TryPop` the slot
`read_index_ & size_`. -/

set_option autoImplicit false

namespace Bitdb.Common.RingBuffer

open Base List FifoMachine

variable {T : Type}

def slot (size popped offset : Nat) : Nat := (popped + offset) % size

variable {size : Nat}

theorem slot_inj {popped first second : Nat} (firstNear : first < size) (secondNear : second < size)
    (same : slot size popped first = slot size popped second) : first = second := by
  have congruent : first ≡ second [MOD size] := Nat.ModEq.add_left_cancel' popped same
  rwa [Nat.ModEq, Nat.mod_eq_of_lt firstNear, Nat.mod_eq_of_lt secondNear] at congruent

theorem slot_succ (size popped offset : Nat) :
    slot size (popped + 1) offset = slot size popped (offset + 1) := by
  simp only [slot, Nat.add_assoc, Nat.add_comm 1]

/-- The ring holds the unread values in the slots behind the read end, and nothing else. -/
structure Holds (ring : RingBuffer T) (popped : Nat) (unread : List T) : Prop where
  positive : 0 < ring.size
  length : ring.ringBuffer.length = ring.size
  fits : unread.length ≤ ring.size
  read_eq : ring.readIndex = popped
  write_eq : ring.writeIndex = popped + unread.length
  filled : ∀ offset value, unread[offset]? = some value →
    ring.ringBuffer[slot ring.size popped offset]? = some ⟨true, value⟩
  written : ∀ index item, ring.ringBuffer[index]? = some item → item.written = true →
    ∃ offset < unread.length, index = slot ring.size popped offset

theorem holds_create [Inhabited T] (positive : 0 < size) :
    Holds (create size : RingBuffer T) 0 [] := by
  refine ⟨positive, by simp [create], by simp, rfl, rfl, by simp, ?_⟩
  intro index item found written
  have fresh := eq_of_mem_replicate (mem_of_getElem? found)
  rw [fresh] at written
  cases written

variable {ring : RingBuffer T} {popped : Nat} {unread : List T}

def pushed (ring : RingBuffer T) (value : T) : RingBuffer T :=
  { ring with
    writeIndex := ring.writeIndex + 1
    ringBuffer := ring.ringBuffer.set (ring.writeIndex % ring.size) ⟨true, value⟩ }

theorem tryPop_eq {item : Item T} (found : ring.ringBuffer[ring.readIndex &&& ring.size]? = some item) :
    ring.tryPop = if item.written then
      .ok (some item.value,
        { ring with
          ringBuffer := ring.ringBuffer.set (ring.readIndex &&& ring.size)
            { item with written := false }
          readIndex := (ring.readIndex + 1) % 2 ^ 32 })
      else .ok (none, ring) := by
  simp only [tryPop, found]

theorem tryPop_of_outside (outside : ring.ringBuffer.length ≤ ring.readIndex &&& ring.size) :
    ring.tryPop = .error (.thrown .outOfBounds) := by
  have missing := List.getElem?_eq_none outside
  simp only [tryPop, missing]

section

variable (holds : Holds ring popped unread)

include holds

theorem Holds.slot_lt (offset : Nat) : slot ring.size popped offset < ring.ringBuffer.length := by
  rw [holds.length]
  exact Nat.mod_lt _ holds.positive

theorem Holds.push_eq (value : T) (small : popped + unread.length + 1 < 2 ^ 32) :
    ring.push value = .ok (ring.pushed value) := by
  have inside : ring.writeIndex % ring.size < ring.ringBuffer.length := by
    rw [holds.length]
    exact Nat.mod_lt _ holds.positive
  have counted : (ring.writeIndex + 1) % 2 ^ 32 = ring.writeIndex + 1 := by
    rw [holds.write_eq]
    exact Nat.mod_eq_of_lt small
  simp only [push, if_pos inside, counted]
  rfl

theorem Holds.pushed (value : T) (room : unread.length < ring.size) :
    Holds (ring.pushed value) popped (unread ++ [value]) := by
  have index : ring.writeIndex % ring.size = slot ring.size popped unread.length := by
    rw [holds.write_eq, slot]
  refine ⟨holds.positive, ?_, ?_, holds.read_eq, ?_, ?_, ?_⟩
  · simp only [RingBuffer.pushed, length_set]
    exact holds.length
  · simp only [length_append, length_singleton]
    exact room
  · simp only [RingBuffer.pushed, holds.write_eq, length_append, length_singleton]
    omega
  · intro offset held found
    simp only [RingBuffer.pushed, index]
    rcases of_getElem?_concat found with ⟨rfl, rfl⟩ | ⟨near, earlier⟩
    · rw [List.getElem?_set_self (holds.slot_lt _)]
    · rw [List.getElem?_set_ne]
      · exact holds.filled offset held earlier
      · intro same
        exact near.ne (slot_inj (near.trans room) room same.symm)
  · intro place item found written
    simp only [RingBuffer.pushed, index] at found
    by_cases same : slot ring.size popped unread.length = place
    · exact ⟨unread.length, by simp, same.symm⟩
    · rw [List.getElem?_set_ne same] at found
      obtain ⟨offset, near, place_eq⟩ := holds.written place item found written
      refine ⟨offset, ?_, place_eq⟩
      simp only [length_append]
      omega

theorem Holds.exists_item (inside : popped &&& ring.size < ring.size) :
    ∃ item, ring.ringBuffer[ring.readIndex &&& ring.size]? = some item := by
  have within : ring.readIndex &&& ring.size < ring.ringBuffer.length := by
    rw [holds.read_eq, holds.length]
    exact inside
  exact ⟨_, List.getElem?_eq_getElem within⟩

end

theorem Holds.tryPop_empty (holds : Holds ring popped [])
    (inside : popped &&& ring.size < ring.size) : ring.tryPop = .ok (none, ring) := by
  obtain ⟨item, found⟩ := holds.exists_item inside
  rw [tryPop_eq found, if_neg]
  intro written
  obtain ⟨offset, near, -⟩ := holds.written _ _ found written
  cases near

def advanced (ring : RingBuffer T) (value : T) : RingBuffer T :=
  { ring with
    ringBuffer := ring.ringBuffer.set (ring.readIndex % ring.size) ⟨false, value⟩
    readIndex := ring.readIndex + 1 }

variable {value : T}

theorem Holds.tryPop_first (holds : Holds ring popped (value :: unread))
    (meets : popped &&& ring.size = popped % ring.size) (small : popped + 1 < 2 ^ 32) :
    ring.tryPop = .ok (some value, ring.advanced value) := by
  have found : ring.ringBuffer[ring.readIndex &&& ring.size]? = some ⟨true, value⟩ := by
    rw [holds.read_eq, meets]
    exact holds.filled 0 value rfl
  have counted : (ring.readIndex + 1) % 2 ^ 32 = ring.readIndex + 1 := by
    rw [holds.read_eq]
    exact Nat.mod_eq_of_lt small
  rw [tryPop_eq found, if_pos rfl, counted, advanced, holds.read_eq, meets]

theorem Holds.advanced (holds : Holds ring popped (value :: unread)) :
    Holds (ring.advanced value) (popped + 1) unread := by
  have fits : unread.length < ring.size := holds.fits
  have index : ring.readIndex % ring.size = slot ring.size popped 0 := by
    rw [holds.read_eq, slot, Nat.add_zero]
  refine ⟨holds.positive, ?_, fits.le, ?_, ?_, ?_, ?_⟩
  · simp only [RingBuffer.advanced, length_set]
    exact holds.length
  · simp only [RingBuffer.advanced, holds.read_eq]
  · simp only [RingBuffer.advanced, holds.write_eq, length_cons]
    omega
  · intro offset held found
    have near := (List.getElem?_eq_some_iff.mp found).1
    simp only [RingBuffer.advanced, index, slot_succ]
    rw [List.getElem?_set_ne]
    · exact holds.filled (offset + 1) held found
    · intro same
      have zero := slot_inj holds.positive (by omega) same
      cases zero
  · intro place item found written
    simp only [RingBuffer.advanced, index] at found
    by_cases same : slot ring.size popped 0 = place
    · subst same
      rw [List.getElem?_set_self (holds.slot_lt 0)] at found
      obtain rfl := Option.some.inj found
      cases written
    · rw [List.getElem?_set_ne same] at found
      obtain ⟨offset, near, rfl⟩ := holds.written place item found written
      cases offset with
      | zero => exact absurd rfl same
      | succ offset =>
        refine ⟨offset, Nat.lt_of_succ_lt_succ near, ?_⟩
        exact (slot_succ _ _ _).symm

/-- Every call of `TryPop` looks at a slot of the ring, and at the one of the first unread value if
there is one. -/
def Meets (size : Nat) : Nat → List T → List (FifoCall T) → Prop
  | _, _, [] => True
  | popped, unread, .push value :: calls => Meets size popped (unread ++ [value]) calls
  | popped, [], .tryPop :: calls => popped &&& size < size ∧ Meets size popped [] calls
  | popped, _ :: unread, .tryPop :: calls =>
    popped &&& size = popped % size ∧ Meets size (popped + 1) unread calls

def Related (size : Nat) (ring : RingBuffer T) (unread : List T) (calls : List (FifoCall T)) :
    Prop :=
  ∃ popped, Holds ring popped unread ∧ ring.size = size ∧ Meets size popped unread calls ∧
    Fifo.Bounded size unread calls ∧ popped + unread.length + calls.length < 2 ^ 32

theorem answers_of_related {calls : List (FifoCall T)} (related : Related size ring unread calls) :
    machine.answers ring calls = .ok (Fifo.answers unread calls) := by
  apply answers_eq (Related size) ?_ ?_ ?_ related
  · intro ring unread value calls ⟨popped, holds, same, meets, bounded, small⟩
    obtain ⟨room, bounded⟩ := bounded
    simp only [length_cons] at small
    refine ⟨ring.pushed value, holds.push_eq value (by omega), popped,
      holds.pushed value (same ▸ room), same, meets, bounded, ?_⟩
    simp only [length_append, length_singleton]
    omega
  · intro ring calls ⟨popped, holds, same, meets, bounded, small⟩
    obtain ⟨inside, meets⟩ := meets
    simp only [length_cons] at small
    exact ⟨ring, holds.tryPop_empty (same ▸ inside), popped, holds, same, meets, bounded, by omega⟩
  · intro ring value unread calls ⟨popped, holds, same, meets, bounded, small⟩
    obtain ⟨meet, meets⟩ := meets
    simp only [length_cons] at small
    exact ⟨ring.advanced value, holds.tryPop_first (same ▸ meet) (by omega), popped + 1,
      holds.advanced, same, meets, bounded, by omega⟩

theorem Holds.inside_of_tryPop (holds : Holds ring popped unread) {answer : Option T × RingBuffer T}
    (pops : ring.tryPop = .ok answer) : popped &&& ring.size < ring.size := by
  by_contra outside
  have beyond : ring.ringBuffer.length ≤ ring.readIndex &&& ring.size := by
    rw [holds.length, holds.read_eq]
    omega
  rw [tryPop_of_outside beyond] at pops
  cases pops

theorem Holds.meets_of_tryPop (holds : Holds ring popped (value :: unread))
    (distinct : (value :: unread).Nodup) {next : RingBuffer T}
    (pops : ring.tryPop = .ok (some value, next)) : popped &&& ring.size = popped % ring.size := by
  obtain ⟨item, found⟩ := holds.exists_item (holds.inside_of_tryPop pops)
  rw [tryPop_eq found] at pops
  split at pops
  case isTrue written =>
    have value_eq : item.value = value := by
      have answer := congrArg Prod.fst (Except.ok.inj pops)
      exact Option.some.inj answer
    obtain ⟨offset, near, place⟩ := holds.written _ _ found written
    have held := List.getElem?_eq_getElem near
    have same := holds.filled offset _ held
    rw [← place, found] at same
    obtain rfl := Option.some.inj same
    have first : offset = 0 := by
      apply (List.getElem?_inj near distinct).mp
      rw [held]
      exact congrArg some value_eq
    rw [← holds.read_eq, place, first, holds.read_eq]
    rfl
  case isFalse =>
    have answer := congrArg Prod.fst (Except.ok.inj pops)
    cases answer

theorem meets_of_answers {calls : List (FifoCall T)} (holds : Holds ring popped unread)
    (same : ring.size = size) (bounded : Fifo.Bounded size unread calls)
    (small : popped + unread.length + calls.length < 2 ^ 32)
    (distinct : (unread ++ Fifo.pushed calls).Nodup)
    (correct : machine.answers ring calls = .ok (Fifo.answers unread calls)) :
    Meets size popped unread calls := by
  induction calls generalizing ring popped unread with
  | nil => trivial
  | cons call calls ih =>
    simp only [length_cons] at small
    cases call with
    | push value =>
      obtain ⟨room, bounded⟩ := bounded
      obtain ⟨next, pushes, later⟩ := of_answers_push correct
      have still := (holds.push_eq value (by omega)).symm.trans pushes
      obtain rfl := Except.ok.inj still
      refine ih (holds.pushed value (same ▸ room)) same bounded ?_ ?_ later
      · simp only [length_append, length_singleton]
        omega
      · rw [append_assoc]
        exact distinct
    | tryPop =>
      cases unread with
      | nil =>
        obtain ⟨answer, next, rest, pops, later, shape⟩ := of_answers_tryPop correct
        obtain ⟨rfl, rfl⟩ := List.cons.inj shape
        have inside : popped &&& size < size := same ▸ holds.inside_of_tryPop pops
        have still := (holds.tryPop_empty (same ▸ inside)).symm.trans pops
        obtain rfl : ring = next := congrArg Prod.snd (Except.ok.inj still)
        exact ⟨inside, ih holds same bounded (by omega) distinct later⟩
      | cons value unread =>
        obtain ⟨answer, next, rest, pops, later, shape⟩ := of_answers_tryPop correct
        obtain ⟨rfl, rfl⟩ := List.cons.inj shape
        have meet := holds.meets_of_tryPop (nodup_append.mp distinct).1 pops
        have still := (holds.tryPop_first meet (by omega)).symm.trans pops
        obtain rfl : ring.advanced value = next := congrArg Prod.snd (Except.ok.inj still)
        simp only [length_cons] at small
        exact ⟨same ▸ meet, ih holds.advanced same bounded (by omega)
          (nodup_cons.mp distinct).2 later⟩

/-- Calls on a ring of some capacity, with at most so many values unread at any time. -/
structure Session (T : Type) where
  size : Nat
  calls : List (FifoCall T)
  positive : 0 < size
  bounded : Fifo.Bounded size [] calls
  short : calls.length < 2 ^ 32

/-- No slot outside the ring is touched, and `TryPop` answers as a queue does. -/
def Session.Correct [Inhabited T] (session : Session T) : Prop :=
  machine.answers (create session.size) session.calls = .ok (Fifo.answers [] session.calls)

/-- The ring is a queue as long as the slots meet, and only then if the values are distinct. -/
theorem ring_fifo_iff [Inhabited T] (session : Session T) :
    (Meets session.size 0 [] session.calls → session.Correct) ∧ ((Fifo.pushed session.calls).Nodup →
        (session.Correct ↔ Meets session.size 0 [] session.calls)) := by
  have holds : Holds (create session.size : RingBuffer T) 0 [] := holds_create session.positive
  have small : 0 + ([] : List T).length + session.calls.length < 2 ^ 32 := by
    simpa using session.short
  have correct_of_meets (meets : Meets session.size 0 [] session.calls) : session.Correct :=
    answers_of_related ⟨0, holds, rfl, meets, session.bounded, small⟩
  refine ⟨correct_of_meets, ?_⟩
  intro distinct
  refine ⟨?_, correct_of_meets⟩
  intro correct
  exact meets_of_answers holds rfl session.bounded small distinct correct

/-- With two slots the second value is looked for in the slot of the first. -/
theorem ring_loses_second_value :
    Fifo.answers [] [.push 7, .tryPop, .push 8, .tryPop] = [some 7, some 8] ∧
      machine.answers (create 2 : RingBuffer Nat) [.push 7, .tryPop, .push 8, .tryPop] =
        .ok [some 7, none] := by
  decide

end Bitdb.Common.RingBuffer
