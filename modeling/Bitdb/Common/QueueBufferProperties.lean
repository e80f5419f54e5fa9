import Bitdb.Common.Buffer

/-! When the queue of buffers is a queue. The next buffer is never set up, and the push after the
last item of the first buffer waits for ever. -/

set_option autoImplicit false

namespace Bitdb.Common.QueueBuffer

open Base Buffer List Function

variable {T : Type} {queue : QueueBuffer T} {value : T}

theorem push_switch (buffer : Buffer T) (value : T) (writeIndex : Nat) :
    (buffer.push value writeIndex).1 = false := by
  simp [Buffer.push, bufferSize]

theorem writeState_push (buffer : Buffer T) (value : T) (writeIndex : Nat) :
    (buffer.push value writeIndex).2.writeState = update buffer.writeState writeIndex 2 := by
  simp [Buffer.push]

theorem buffer_push (buffer : Buffer T) (value : T) (writeIndex : Nat) :
    (buffer.push value writeIndex).2.buffer = update buffer.buffer writeIndex (some value) := rfl

theorem spin_of_full (full : bufferSize ≤ queue.writeIndex) (turns : Nat) :
    queue.spin turns = .error .unfinished := by
  induction turns with
  | zero => rfl
  | succ turns ih => rw [spin, if_pos full, ih]

theorem push_of_full (full : queue.writeIndex = bufferSize) (turns : Nat) :
    queue.push turns value = .error .unfinished := by
  cases turns with
  | zero => rfl
  | succ turns =>
    have waits : ({ queue with writeIndex := (queue.writeIndex + 1) % 2 ^ 32 } :
        QueueBuffer T).spin turns = .error .unfinished := by
      apply spin_of_full
      simp only [full, bufferSize]
      decide
    have last : ¬ queue.writeIndex < bufferSize := by omega
    simp only [push, last, if_false, waits]
    rfl

def filled (queue : QueueBuffer T) (buffer : Buffer T) (value : T) : QueueBuffer T :=
  { queue with writeIndex := queue.writeIndex + 1 }.setBuffer queue.currentWriteBuffer
    (buffer.push value queue.writeIndex).2

theorem push_of_room (room : queue.writeIndex < bufferSize) (turns : Nat) :
    queue.push (turns + 1) value = (do
      let buffer ← queue.bufferAt queue.currentWriteBuffer
      .ok (queue.filled buffer value)) := by
  have counted : (queue.writeIndex + 1) % 2 ^ 32 = queue.writeIndex + 1 := by
    simp only [bufferSize] at room
    omega
  simp only [push, room, if_true, counted, push_switch]
  rfl

theorem writeIndex_of_push (within : queue.writeIndex ≤ bufferSize) {turns : Nat}
    {next : QueueBuffer T} (pushes : queue.push turns value = .ok next) :
    queue.writeIndex < bufferSize ∧ next.writeIndex = queue.writeIndex + 1 := by
  rcases Nat.lt_or_eq_of_le within with room | full
  · refine ⟨room, ?_⟩
    cases turns with
    | zero => cases pushes
    | succ turns =>
      rw [push_of_room room] at pushes
      cases found : queue.bufferAt queue.currentWriteBuffer with
      | error halt =>
        rw [found] at pushes
        cases pushes
      | ok buffer =>
        rw [found] at pushes
        obtain rfl := Except.ok.inj pushes
        rfl
  · rw [push_of_full full] at pushes
    cases pushes

theorem writeIndex_setupReadBuffer (queue : QueueBuffer T) :
    queue.setupReadBuffer.writeIndex = queue.writeIndex := by
  unfold setupReadBuffer
  split <;> rfl

theorem writeIndex_advance (queue : QueueBuffer T) : queue.advance.writeIndex = queue.writeIndex := by
  simp only [advance]
  split <;> rfl

theorem tryPop_of_none (absent : queue.setupReadBuffer.currentReadBuffer = none) :
    queue.tryPop = .ok (none, queue.setupReadBuffer) := by
  simp only [tryPop, absent]

theorem tryPop_of_some {address : Nat}
    (present : queue.setupReadBuffer.currentReadBuffer = some address) :
    queue.tryPop = (do
      let buffer ← queue.setupReadBuffer.bufferAt address
      let answer ← buffer.tryPop queue.setupReadBuffer.readIndex
      .ok (answer, if answer.isSome then queue.setupReadBuffer.advance
        else queue.setupReadBuffer)) := by
  simp only [tryPop, present]
  congr 1
  funext buffer
  congr 1
  funext answer
  cases answer <;> rfl

theorem writeIndex_of_tryPop {answer : Option T} {next : QueueBuffer T}
    (pops : queue.tryPop = .ok (answer, next)) : next.writeIndex = queue.writeIndex := by
  cases current : queue.setupReadBuffer.currentReadBuffer with
  | none =>
    rw [tryPop_of_none current] at pops
    obtain rfl := congrArg Prod.snd (Except.ok.inj pops)
    exact queue.writeIndex_setupReadBuffer
  | some address =>
    rw [tryPop_of_some current] at pops
    cases found : queue.setupReadBuffer.bufferAt address with
    | error halt =>
      rw [found] at pops
      cases pops
    | ok buffer =>
      rw [found] at pops
      cases read : buffer.tryPop queue.setupReadBuffer.readIndex with
      | error halt =>
        simp only [bind, Except.bind, read] at pops
        cases pops
      | ok got =>
        simp only [bind, Except.bind, read] at pops
        obtain rfl := congrArg Prod.snd (Except.ok.inj pops)
        simp only
        split
        · rw [writeIndex_advance, writeIndex_setupReadBuffer]
        · rw [writeIndex_setupReadBuffer]

theorem pushed_le_of_answers {turns : Nat} {calls : List (FifoCall T)}
    {answers : List (Option T)} (within : queue.writeIndex ≤ bufferSize)
    (returns : (machine turns).answers queue calls = .ok answers) :
    queue.writeIndex + (Fifo.pushed calls).length ≤ bufferSize := by
  induction calls generalizing queue answers with
  | nil => simpa [Fifo.pushed] using within
  | cons call calls ih =>
    cases call with
    | push value =>
      obtain ⟨next, pushes, later⟩ := FifoMachine.of_answers_push returns
      obtain ⟨room, count⟩ := writeIndex_of_push within pushes
      have rest := ih (by omega) later
      rw [Fifo.pushed_push, length_cons]
      omega
    | tryPop =>
      obtain ⟨answer, next, rest, pops, later, -⟩ := FifoMachine.of_answers_tryPop returns
      have same := writeIndex_of_tryPop pops
      have bound := ih (by omega) later
      rw [Fifo.pushed_tryPop]
      omega

structure Open (queue : QueueBuffer T) (buffer : Buffer T) (popped : Nat) (unread : List T) :
    Prop where
  buffers : queue.buffers = [(0, buffer)]
  write_buffer : queue.currentWriteBuffer = 0
  read_buffer : queue.currentReadBuffer = none ∨ queue.currentReadBuffer = some 0
  read_eq : queue.readIndex = popped
  write_eq : queue.writeIndex = popped + unread.length
  read_lt : popped < bufferSize
  filled : ∀ offset value, unread[offset]? = some value →
    buffer.writeState (popped + offset) ≠ 0 ∧ buffer.buffer (popped + offset) = some value
  blank : ∀ index, popped + unread.length ≤ index → buffer.writeState index = 0

structure Closed (queue : QueueBuffer T) : Prop where
  buffers : queue.buffers = []
  read_buffer : queue.currentReadBuffer = none
  write_eq : queue.writeIndex = bufferSize

theorem open_create : Open (create : QueueBuffer T) {} 0 [] where
  buffers := rfl
  write_buffer := rfl
  read_buffer := .inl rfl
  read_eq := rfl
  write_eq := rfl
  read_lt := by decide
  filled := by simp
  blank := by simp

variable {buffer : Buffer T} {popped : Nat} {unread : List T}

namespace Open

section

variable (holds : Open queue buffer popped unread)

include holds

theorem bufferAt_zero : queue.bufferAt 0 = .ok buffer := by
  simp only [bufferAt, holds.buffers]
  rfl

theorem push_eq (room : queue.writeIndex < bufferSize) (turns : Nat) (value : T) :
    queue.push (turns + 1) value = .ok (queue.filled buffer value) := by
  rw [push_of_room room, holds.write_buffer, holds.bufferAt_zero]
  rfl

theorem filled_open (value : T) :
    Open (queue.filled buffer value) (buffer.push value queue.writeIndex).2 popped
      (unread ++ [value]) := by
  refine ⟨?_, holds.write_buffer, holds.read_buffer, holds.read_eq, ?_, holds.read_lt, ?_, ?_⟩
  · simp only [QueueBuffer.filled, setBuffer, holds.buffers, holds.write_buffer]
    rfl
  · simp only [QueueBuffer.filled, setBuffer, holds.write_eq, length_append, length_singleton]
    omega
  · intro offset held found
    rw [writeState_push, buffer_push, holds.write_eq]
    rcases of_getElem?_concat found with ⟨rfl, rfl⟩ | ⟨near, earlier⟩
    · simp
    · have other : popped + offset ≠ popped + unread.length := by omega
      rw [update_of_ne other, update_of_ne other]
      exact holds.filled offset held earlier
  · intro index beyond
    simp only [length_append, length_singleton] at beyond
    have other : index ≠ popped + unread.length := by omega
    rw [writeState_push, holds.write_eq, update_of_ne other]
    exact holds.blank index (by omega)

theorem setupReadBuffer_eq :
    queue.setupReadBuffer = { queue with currentReadBuffer := some 0 } := by
  rcases holds.read_buffer with none_yet | already
  · simp only [setupReadBuffer, none_yet, getNextReadBuffer, holds.buffers]
    rfl
  · simp only [setupReadBuffer, already]
    rw [← already]

theorem setup_open : Open { queue with currentReadBuffer := some 0 } buffer popped unread :=
  ⟨holds.buffers, holds.write_buffer, .inr rfl, holds.read_eq, holds.write_eq, holds.read_lt,
    holds.filled, holds.blank⟩

theorem tryPop_of_read {answer : Option T} (read : buffer.tryPop popped = .ok answer) :
    queue.tryPop = .ok (answer, if answer.isSome then
      { queue with currentReadBuffer := some 0 }.advance
      else { queue with currentReadBuffer := some 0 }) := by
  have current : queue.setupReadBuffer.currentReadBuffer = some 0 := by
    rw [holds.setupReadBuffer_eq]
  rw [tryPop_of_some current, holds.setupReadBuffer_eq, holds.setup_open.bufferAt_zero]
  simp only [bind, Except.bind, holds.read_eq, read]

end

theorem tryPop_empty (holds : Open queue buffer popped []) :
    queue.tryPop = .ok (none, { queue with currentReadBuffer := some 0 }) := by
  have blank : buffer.writeState popped = 0 := holds.blank popped (Nat.le_refl _)
  have read : buffer.tryPop popped = .ok none := by simp [Buffer.tryPop, blank]
  exact holds.tryPop_of_read read

variable (holds : Open queue buffer popped (value :: unread))

include holds

theorem tryPop_first :
    queue.tryPop = .ok (some value, { queue with currentReadBuffer := some 0 }.advance) := by
  obtain ⟨written, stored⟩ := holds.filled 0 value rfl
  have read : buffer.tryPop popped = .ok (some value) := by
    simp only [Nat.add_zero] at written stored
    simp only [Buffer.tryPop, ne_eq, written, not_false_eq_true, if_true, stored]
  exact holds.tryPop_of_read read

theorem advance_open (more : popped + 1 < bufferSize) :
    Open queue.advance buffer (popped + 1) unread := by
  have counted : (queue.readIndex + 1) % 2 ^ 32 = popped + 1 := by
    rw [holds.read_eq]
    simp only [bufferSize] at more
    omega
  have inside : popped + 1 ≠ bufferSize := by omega
  have advance_eq : queue.advance = { queue with readIndex := popped + 1 } := by
    simp only [advance, counted, inside, if_false]
  rw [advance_eq]
  refine ⟨holds.buffers, holds.write_buffer, holds.read_buffer, rfl, ?_, more, ?_, ?_⟩
  · have count := holds.write_eq
    simp only [length_cons] at count
    simp only
    omega
  · intro offset held found
    rw [Nat.add_assoc, Nat.add_comm 1]
    exact holds.filled (offset + 1) held found
  · intro index beyond
    apply holds.blank
    simp only [length_cons]
    omega

theorem advance_closed (within : queue.writeIndex ≤ bufferSize) (last : popped + 1 = bufferSize) :
    Closed queue.advance ∧ unread = [] := by
  have count := holds.write_eq
  simp only [length_cons] at count
  have counted : (queue.readIndex + 1) % 2 ^ 32 = bufferSize := by
    rw [holds.read_eq, last]
    decide
  refine ⟨⟨?_, ?_, ?_⟩, eq_nil_of_length_eq_zero (by omega)⟩
  · simp only [advance, counted, if_true, holds.buffers, tail_cons]
  · simp only [advance, counted, if_true]
  · rw [writeIndex_advance]
    omega

end Open

theorem Closed.tryPop_eq (closed : Closed queue) : queue.tryPop = .ok (none, queue) := by
  have setup : queue.setupReadBuffer = queue := by
    have next : queue.getNextReadBuffer = none := by simp [getNextReadBuffer, closed.buffers]
    simp only [setupReadBuffer, closed.read_buffer, next]
    rw [← closed.read_buffer]
  have current : queue.setupReadBuffer.currentReadBuffer = none := by
    rw [setup]
    exact closed.read_buffer
  rw [tryPop_of_none current, setup]

def Related (queue : QueueBuffer T) (unread : List T) (calls : List (FifoCall T)) : Prop :=
  queue.writeIndex + (Fifo.pushed calls).length ≤ bufferSize ∧
    ((∃ buffer popped, Open queue buffer popped unread) ∨ Closed queue ∧ unread = [])

theorem answers_of_related (turns : Nat) {calls : List (FifoCall T)}
    (related : Related queue unread calls) :
    (machine (turns + 1)).answers queue calls = .ok (Fifo.answers unread calls) := by
  apply FifoMachine.answers_eq Related ?_ ?_ ?_ related
  · intro queue unread value calls ⟨within, state⟩
    rw [Fifo.pushed_push, length_cons] at within
    rcases state with ⟨buffer, popped, holds⟩ | ⟨closed, -⟩
    · refine ⟨queue.filled buffer value, holds.push_eq (by omega) turns value, ?_,
        .inl ⟨_, popped, holds.filled_open value⟩⟩
      have count : (queue.filled buffer value).writeIndex = queue.writeIndex + 1 := rfl
      omega
    · have full := closed.write_eq
      omega
  · intro queue calls ⟨within, state⟩
    rcases state with ⟨buffer, popped, holds⟩ | ⟨closed, empty⟩
    · exact ⟨_, holds.tryPop_empty, within, .inl ⟨buffer, popped, holds.setup_open⟩⟩
    · exact ⟨queue, closed.tryPop_eq, within, .inr ⟨closed, empty⟩⟩
  · intro queue value unread calls ⟨within, state⟩
    rcases state with ⟨buffer, popped, holds⟩ | ⟨-, empty⟩
    · refine ⟨_, holds.tryPop_first, ?_, ?_⟩
      · rw [writeIndex_advance]
        exact within
      · by_cases more : popped + 1 < bufferSize
        · exact .inl ⟨buffer, popped + 1, holds.setup_open.advance_open more⟩
        · have lower := holds.read_lt
          refine .inr (holds.setup_open.advance_closed ?_ (by omega))
          exact Nat.le_trans (Nat.le_add_right _ _) within
    · cases empty

/-- The queue is one exactly for as many pushes as the first buffer has places. -/
theorem queue_fifo_iff (calls : List (FifoCall T)) :
    (∃ turns, (machine turns).answers create calls = .ok (Fifo.answers [] calls)) ↔
      (Fifo.pushed calls).length ≤ 32768 := by
  have start : (create : QueueBuffer T).writeIndex = 0 := rfl
  constructor
  · intro ⟨turns, returns⟩
    have bound := pushed_le_of_answers (Nat.zero_le _) returns
    rwa [start, Nat.zero_add] at bound
  · intro few
    refine ⟨1, answers_of_related 0 ⟨?_, .inl ⟨{}, 0, open_create⟩⟩⟩
    rw [start, Nat.zero_add]
    exact few

theorem queue_stalls :
    ¬ ∃ turns answers,
      (machine turns).answers create (List.replicate 32769 (.push ())) = .ok answers := by
  rintro ⟨turns, answers, returns⟩
  have bound := pushed_le_of_answers (Nat.zero_le _) returns
  rw [Fifo.pushed_replicate, length_replicate] at bound
  exact absurd bound (by decide)

end Bitdb.Common.QueueBuffer
