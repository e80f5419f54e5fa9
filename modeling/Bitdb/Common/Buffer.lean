import Bitdb.Base.Fifo
import Bitdb.Base.Loops
import Mathlib.Algebra.Group.Nat.Defs
import Mathlib.Logic.Function.Basic

/-! The two buffers of the thread pool's queue (`bitdb/common/buffer.h`), used by one thread, so that
a spin lock is always free. Counters are `uint32_t`. -/

set_option autoImplicit false

namespace Bitdb.Common

open Base Function

inductive BufferFault where
  /-- An item outside the array is accessed. -/
  | outOfBounds
  /-- A buffer is accessed after it was freed. -/
  | dangling
  /-- An item is read that was never constructed. -/
  | unconstructed
  deriving DecidableEq, Repr

variable {T : Type}

namespace RingBuffer

structure Item (T : Type) where
  written : Bool
  value : T
  deriving DecidableEq, Repr

end RingBuffer

structure RingBuffer (T : Type) where
  size : Nat
  ringBuffer : List (RingBuffer.Item T)
  writeIndex : Nat
  readIndex : Nat
  deriving DecidableEq, Repr

namespace RingBuffer

def create [Inhabited T] (size : Nat) : RingBuffer T where
  size := size
  ringBuffer := List.replicate size ⟨false, default⟩
  writeIndex := 0
  readIndex := 0

def push (ring : RingBuffer T) (value : T) : Except (Halt BufferFault) (RingBuffer T) :=
  let index := ring.writeIndex % ring.size
  if index < ring.ringBuffer.length then
    .ok { ring with
      writeIndex := (ring.writeIndex + 1) % 2 ^ 32
      ringBuffer := ring.ringBuffer.set index ⟨true, value⟩ }
  else .error (.thrown .outOfBounds)

def tryPop (ring : RingBuffer T) : Except (Halt BufferFault) (Option T × RingBuffer T) :=
  let index := ring.readIndex &&& ring.size
  match ring.ringBuffer[index]? with
  | none => .error (.thrown .outOfBounds)
  | some item =>
    if item.written then
      .ok (some item.value,
        { ring with
          ringBuffer := ring.ringBuffer.set index { item with written := false }
          readIndex := (ring.readIndex + 1) % 2 ^ 32 })
    else .ok (none, ring)

def machine : FifoMachine (RingBuffer T) (Halt BufferFault) T := ⟨push, tryPop⟩

end RingBuffer

/-- A buffer of a `QueueBuffer`. The storage for its items is taken as allocated, and the states
begin with zero. -/
structure Buffer (T : Type) where
  buffer : Nat → Option T := fun _ => none
  writeState : Nat → Nat := fun _ => 0

namespace Buffer

def bufferSize : Nat := 32768

/-- The result tells whether to switch to the next buffer. -/
def push (buffer : Buffer T) (value : T) (writeIndex : Nat) : Bool × Buffer T :=
  let stored := update buffer.writeState writeIndex 1
  let old := stored writeIndex
  ((old + 1) % 2 ^ 32 = bufferSize,
    { buffer := update buffer.buffer writeIndex (some value)
      writeState := update stored writeIndex ((old + 1) % 2 ^ 32) })

def tryPop (buffer : Buffer T) (readIndex : Nat) : Except (Halt BufferFault) (Option T) :=
  if buffer.writeState readIndex ≠ 0 then
    match buffer.buffer readIndex with
    | some value => .ok (some value)
    | none => .error (.thrown .unconstructed)
  else .ok none

end Buffer

/-- `buffers_` holds the live buffers with their addresses; `created` is the next address. -/
structure QueueBuffer (T : Type) where
  buffers : List (Nat × Buffer T)
  currentWriteBuffer : Nat
  currentReadBuffer : Option Nat
  writeIndex : Nat
  readIndex : Nat
  created : Nat

namespace QueueBuffer

def setupNextWriteBuffer (queue : QueueBuffer T) : QueueBuffer T :=
  { queue with
    currentWriteBuffer := queue.created
    buffers := queue.buffers ++ [(queue.created, {})]
    writeIndex := 0
    created := queue.created + 1 }

def create : QueueBuffer T :=
  setupNextWriteBuffer
    { buffers := [], currentWriteBuffer := 0, currentReadBuffer := none, writeIndex := 0,
      readIndex := 0, created := 0 }

def bufferAt (queue : QueueBuffer T) (address : Nat) : Except (Halt BufferFault) (Buffer T) :=
  match queue.buffers.lookup address with
  | some buffer => .ok buffer
  | none => .error (.thrown .dangling)

def setBuffer (queue : QueueBuffer T) (address : Nat) (buffer : Buffer T) : QueueBuffer T :=
  { queue with
    buffers := queue.buffers.map fun entry =>
      if entry.1 = address then (address, buffer) else entry }

/-- `while (write_index_ >= SIZE)`, which changes nothing. -/
def spin (queue : QueueBuffer T) : Nat → Except (Halt BufferFault) Unit
  | 0 => .error .unfinished
  | turns + 1 => if queue.writeIndex ≥ Buffer.bufferSize then queue.spin turns else .ok ()

def push : Nat → QueueBuffer T → T → Except (Halt BufferFault) (QueueBuffer T)
  | 0, _, _ => .error .unfinished
  | turns + 1, queue, value => do
      let writeIndex := queue.writeIndex
      let queue := { queue with writeIndex := (writeIndex + 1) % 2 ^ 32 }
      if writeIndex < Buffer.bufferSize then
        let buffer ← queue.bufferAt queue.currentWriteBuffer
        let (switch, buffer) := buffer.push value writeIndex
        let queue := queue.setBuffer queue.currentWriteBuffer buffer
        if switch then .ok queue.setupNextWriteBuffer else .ok queue
      else
        queue.spin turns
        push turns queue value

def getNextReadBuffer (queue : QueueBuffer T) : Option Nat :=
  queue.buffers.head?.map Prod.fst

/-- The start of `TryPop`. -/
def setupReadBuffer (queue : QueueBuffer T) : QueueBuffer T :=
  match queue.currentReadBuffer with
  | none => { queue with currentReadBuffer := queue.getNextReadBuffer }
  | some _ => queue

/-- The end of `TryPop`, once a value has been read. -/
def advance (queue : QueueBuffer T) : QueueBuffer T :=
  let queue := { queue with readIndex := (queue.readIndex + 1) % 2 ^ 32 }
  if queue.readIndex = Buffer.bufferSize then
    { queue with readIndex := 0, currentReadBuffer := none, buffers := queue.buffers.tail }
  else queue

def tryPop (queue : QueueBuffer T) : Except (Halt BufferFault) (Option T × QueueBuffer T) := do
  let queue := queue.setupReadBuffer
  match queue.currentReadBuffer with
  | none => .ok (none, queue)
  | some address =>
    let buffer ← queue.bufferAt address
    match ← buffer.tryPop queue.readIndex with
    | some value => .ok (some value, queue.advance)
    | none => .ok (none, queue)

def machine (turns : Nat) : FifoMachine (QueueBuffer T) (Halt BufferFault) T := ⟨push turns, tryPop⟩

end QueueBuffer

end Bitdb.Common
