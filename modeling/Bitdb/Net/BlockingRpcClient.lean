import Bitdb.Net.IoAwaiter
import Mathlib.Order.Basic

/-! Packets of the class `BlockingRpcClient` (`bitdb/net/rpc/rpc_client.h`), and how the calls of
`read` and `write` cut a stream. `head_recv_size` does not overflow. When
`BlockingRpcClient::ReadPacket` gets the packets that `AsyncReadPacket` gets. -/

set_option autoImplicit false

namespace Bitdb.Net

open Base (drive)

/-- How a call of `read` or `write` goes: it moves at most so many bytes, or it fails. -/
inductive Chunk where
  | atMost (size : Nat)
  | interrupted (errno : Errno)
  deriving DecidableEq, Repr

abbrev Chunks := Nat → Chunk

/-- Calls fail for a reason that passes, and again and again a call moves bytes. -/
structure Chunks.Fair (chunks : Chunks) : Prop where
  transient : ∀ turn errno, chunks turn = .interrupted errno → errno.transient = true
  positive : ∀ turn size, chunks turn = .atMost size → 0 < size
  again : ∀ turn, ∃ later, turn ≤ later ∧ ∃ size, chunks later = .atMost size

/-- A call of `read`. At the end of the stream there are no bytes. -/
def readCall {σ : Type} (wanted : σ → Nat) (next : ReadResult → σ → σ) (chunk : Chunk)
    (state : σ × List Byte) : σ × List Byte :=
  match chunk with
  | .atMost size =>
    (next (.data (state.2.take (min size (wanted state.1)))) state.1,
      state.2.drop (min size (wanted state.1)))
  | .interrupted errno => (next (.error errno) state.1, state.2)

/-- A call of `write`, with what has been written to the stream. -/
def writeCall {σ : Type} (offered : σ → List Byte) (next : IoResult → σ → σ) (chunk : Chunk)
    (state : σ × List Byte) : σ × List Byte :=
  match chunk with
  | .atMost size =>
    (next (.count (min size (offered state.1).length)) state.1,
      state.2 ++ (offered state.1).take size)
  | .interrupted errno => (next (.error errno) state.1, state.2)

inductive BlockingRead where
  | header (headRecvSize : Nat) (headBuffer buffer : List Byte)
  | body (totalReadSize alreadyReadSize : Nat) (buffer : List Byte)
  | returned (result : Int) (buffer : List Byte)
  | thrown
  | faulted
  deriving DecidableEq, Repr

namespace BlockingRead

open ReadPacket (store)

def start (headBuffer buffer : List Byte) : BlockingRead := .header 0 headBuffer buffer

/-- `buffer.resize(already_read_size)`, where an `int` that has overflowed is negative. -/
def finish (alreadyReadSize : Nat) (buffer : List Byte) : BlockingRead :=
  if alreadyReadSize < 2 ^ 31 then .returned alreadyReadSize (resize 0 buffer alreadyReadSize)
  else .thrown

def startBody (totalReadSize : Nat) (buffer : List Byte) : BlockingRead :=
  if totalReadSize = 0 then finish 0 (resize 0 buffer totalReadSize)
  else .body totalReadSize 0 (resize 0 buffer totalReadSize)

def wanted : BlockingRead → Nat
  | .header _ _ _ => headerSize
  | .body totalReadSize _ _ => totalReadSize
  | _ => 0

/-- Every call for the header stores at the beginning of `head_buffer`. A negative
`already_read_size` is an address in front of the buffer. -/
def next : ReadResult → BlockingRead → BlockingRead
  | .data bytes, .header headRecvSize headBuffer buffer =>
    let headBuffer := store headBuffer 0 bytes
    if headRecvSize + bytes.length = headerSize then startBody (ofLittleEndian headBuffer) buffer
    else .header (headRecvSize + bytes.length) headBuffer buffer
  | .error errno, .header headRecvSize headBuffer buffer =>
    if errno.transient then .header headRecvSize headBuffer buffer else .returned (-1) buffer
  | .data bytes, .body totalReadSize alreadyReadSize buffer =>
    if bytes.length = 0 then finish alreadyReadSize buffer
    else
      let buffer := store buffer alreadyReadSize bytes
      let alreadyReadSize := alreadyReadSize + bytes.length
      if totalReadSize - bytes.length = 0 then finish alreadyReadSize buffer
      else if alreadyReadSize < 2 ^ 31 then
        .body (totalReadSize - bytes.length) alreadyReadSize buffer
      else .faulted
  | .error errno, .body totalReadSize alreadyReadSize buffer =>
    if errno.transient then .body totalReadSize alreadyReadSize buffer
    else finish alreadyReadSize buffer
  | _, state => state

end BlockingRead

inductive BlockingWrite where
  | header (buffer : List Byte)
  | body (totalWriteSize alreadyWriteSize : Nat) (buffer : List Byte)
  | returned (result : UInt64)
  deriving DecidableEq, Repr

namespace BlockingWrite

/-- The first bytes of a `size_t`. -/
def headBuffer (buffer : List Byte) : List Byte := littleEndian headerSize buffer.length

def start (buffer : List Byte) : BlockingWrite := .header buffer

def startBody (buffer : List Byte) : BlockingWrite :=
  if buffer.length = 0 then .returned 0 else .body buffer.length 0 buffer

def offered : BlockingWrite → List Byte
  | .header buffer => headBuffer buffer
  | .body totalWriteSize alreadyWriteSize buffer =>
    (buffer.drop alreadyWriteSize).take totalWriteSize
  | .returned _ => []

/-- The header is written by a single call. -/
def next : IoResult → BlockingWrite → BlockingWrite
  | .count size, .header buffer => if size = 0 then .returned (-1) else startBody buffer
  | .error _, .header _ => .returned (-1)
  | .count size, .body totalWriteSize alreadyWriteSize buffer =>
    if size = 0 then .returned (UInt64.ofNat alreadyWriteSize)
    else if totalWriteSize - size = 0 then .returned (UInt64.ofNat (alreadyWriteSize + size))
    else .body (totalWriteSize - size) (alreadyWriteSize + size) buffer
  | .error errno, .body totalWriteSize alreadyWriteSize buffer =>
    if errno.transient then .body totalWriteSize alreadyWriteSize buffer
    else .returned (UInt64.ofNat alreadyWriteSize)
  | _, .returned result => .returned result

end BlockingWrite

/-- `AsyncReadPacket` returns a packet and leaves `rest` in the stream. -/
def AsyncReads (chunks : Chunks) (buffers : ReadBuffers) (stream packet rest : List Byte) : Prop :=
  ∃ turns, drive (readCall ReadPacket.wanted ReadPacket.next) chunks
    (.start buffers.headBuffer buffers.buffer, stream) turns = (.returned true packet, rest)

def BlockingReads (chunks : Chunks) (buffers : ReadBuffers) (stream packet rest : List Byte) :
    Prop :=
  ∃ turns, drive (readCall BlockingRead.wanted BlockingRead.next) chunks
    (.start buffers.headBuffer buffers.buffer, stream) turns =
      (.returned packet.length packet, rest)

def BlockingReadReturns (chunks : Chunks) (buffers : ReadBuffers) (stream : List Byte) : Prop :=
  ∃ turns result buffer rest, drive (readCall BlockingRead.wanted BlockingRead.next) chunks
    (.start buffers.headBuffer buffers.buffer, stream) turns = (.returned result buffer, rest)

def AsyncWrites (chunks : Chunks) (packet written : List Byte) : Prop :=
  ∃ turns result, drive (writeCall WritePacket.offered WritePacket.next) chunks
    (.start packet, []) turns = (.returned result, written)

def BlockingWrites (chunks : Chunks) (packet written : List Byte) : Prop :=
  ∃ turns result, drive (writeCall BlockingWrite.offered BlockingWrite.next) chunks
    (.start packet, []) turns = (.returned result, written)

def Chunks.HeaderFirst (chunks : Chunks) : Prop :=
  ∃ turn size, chunks turn = .atMost size ∧ headerSize ≤ size ∧
    ∀ earlier < turn, ∃ errno, chunks earlier = .interrupted errno

open Base (drive drive_invariant drive_reaches drive_settled)
open List

variable {chunks : Chunks}

def Chunk.Passing : Chunk → Prop
  | .atMost size => 0 < size
  | .interrupted errno => errno.transient = true

theorem Chunks.Fair.passing (fair : chunks.Fair) (turn : Nat) : (chunks turn).Passing := by
  cases chunk : chunks turn with
  | atMost size => exact fair.positive turn size chunk
  | interrupted errno => exact fair.transient turn errno chunk

theorem Chunks.Fair.exists_first (fair : chunks.Fair) :
    ∃ turn size, chunks turn = .atMost size ∧ 0 < size ∧
      ∀ earlier < turn, ∃ errno, errno.transient = true ∧ chunks earlier = .interrupted errno := by
  have some : ∃ turn, ∃ size, chunks turn = .atMost size := by
    obtain ⟨turn, -, moves⟩ := fair.again 0
    exact ⟨turn, moves⟩
  classical
  obtain ⟨size, moves⟩ := Nat.find_spec some
  refine ⟨Nat.find some, size, moves, fair.positive _ _ moves, fun earlier before => ?_⟩
  cases chunk : chunks earlier with
  | atMost size => exact absurd ⟨size, chunk⟩ (Nat.find_min some before)
  | interrupted errno => exact ⟨errno, fair.transient _ _ chunk, rfl⟩

theorem drive_call {σ : Type} {call : Chunk → σ → σ} (fair : chunks.Fair) (Going : σ → Prop)
    {final : σ} (measure : σ → Nat) (moves : ∀ state size, Going state → 0 < size →
      (Going (call (.atMost size) state) ∨ call (.atMost size) state = final) ∧
        measure (call (.atMost size) state) < measure state)
    (fails : ∀ state errno, Going state → errno.transient = true →
      Going (call (.interrupted errno) state) ∧
        measure (call (.interrupted errno) state) ≤ measure state)
    (stays : ∀ chunk, call chunk final = final) {start : σ} {first : Nat}
    (begins : Going (drive call chunks start first) ∨ drive call chunks start first = final) :
    ∃ turns, drive call chunks start turns = final := by
  have step (turn : Nat) (state : σ) (inv : Going state ∨ state = final) :
      (Going (call (chunks turn) state) ∨ call (chunks turn) state = final) ∧
        measure (call (chunks turn) state) ≤ measure state ∧
        (state ≠ final → (∃ size, chunks turn = .atMost size) →
          measure (call (chunks turn) state) < measure state) := by
    have passing := fair.passing turn
    rcases inv with going | rfl
    · cases chunk : chunks turn with
      | atMost size =>
        rw [chunk] at passing
        obtain ⟨kept, less⟩ := moves _ size going passing
        exact ⟨kept, less.le, fun _ _ => less⟩
      | interrupted errno =>
        rw [chunk] at passing
        obtain ⟨kept, below⟩ := fails _ errno going passing
        exact ⟨.inl kept, below, by rintro _ ⟨_, ⟨⟩⟩⟩
    · rw [stays]
      exact ⟨.inr rfl, Nat.le_refl _, fun undone => absurd rfl undone⟩
  obtain ⟨turns, -, done⟩ := drive_reaches (fun state => Going state ∨ state = final) (· = final)
    (fun chunk => ∃ size, chunk = Chunk.atMost size) measure step fair.again begins
  exact ⟨turns, done⟩

theorem drive_readCall {σ : Type} {wanted : σ → Nat} {next : ReadResult → σ → σ}
    (fair : chunks.Fair) (Reading : σ → List Byte → Prop) {final : σ} {rest : List Byte}
    (data : ∀ reader stream size, Reading reader stream → 0 < size →
      let count := min size (wanted reader)
      (Reading (next (.data (stream.take count)) reader) (stream.drop count) ∨
        next (.data (stream.take count)) reader = final ∧ stream.drop count = rest) ∧
      (stream.drop count).length < stream.length)
    (error : ∀ reader stream errno, Reading reader stream → errno.transient = true →
      Reading (next (.error errno) reader) stream) (stays : ∀ result, next result final = final)
    (idle : wanted final = 0) {start : σ × List Byte} {first : Nat} {reader : σ}
    {stream : List Byte}
    (called : drive (readCall wanted next) chunks start first = (reader, stream))
    (begins : Reading reader stream ∨ reader = final ∧ stream = rest) :
    ∃ turns, drive (readCall wanted next) chunks start turns = (final, rest) := by
  refine drive_call fair (fun state => Reading state.1 state.2) (fun state => state.2.length)
    ?_ ?_ ?_ (?_ : _ ∨ drive (readCall wanted next) chunks start first = _)
  · intro state size reading positive
    obtain ⟨kept, less⟩ := data _ _ size reading positive
    exact ⟨kept.imp_right fun both => Prod.ext both.1 both.2, less⟩
  · intro state errno reading transient
    exact ⟨error _ _ errno reading transient, Nat.le_refl _⟩
  · intro chunk
    cases chunk with
    | atMost size => simp [readCall, idle, stays]
    | interrupted errno => simp [readCall, stays]
  · rw [called]
    exact begins.imp_right fun both => Prod.ext both.1 both.2

theorem drive_writeCall {σ : Type} {offered : σ → List Byte} {next : IoResult → σ → σ}
    (fair : chunks.Fair) (Writing : σ → Nat → Prop) {final : σ} {image : List Byte}
    (offers : ∀ writer position, Writing writer position → 0 < (offered writer).length ∧
      position + (offered writer).length ≤ image.length ∧
      offered writer = (image.drop position).take (offered writer).length)
    (count : ∀ writer position size, Writing writer position → 0 < size →
      size ≤ (offered writer).length → Writing (next (.count size) writer) (position + size) ∨
        next (.count size) writer = final ∧ position + size = image.length)
    (error : ∀ writer position errno, Writing writer position → errno.transient = true →
      Writing (next (.error errno) writer) position) (stays : ∀ result, next result final = final)
    (idle : offered final = []) {start : σ × List Byte} {first position : Nat} {writer : σ}
    (called : drive (writeCall offered next) chunks start first = (writer, image.take position))
    (begins : Writing writer position ∨ writer = final ∧ position = image.length) :
    ∃ turns, drive (writeCall offered next) chunks start turns = (final, image) := by
  refine drive_call fair
    (fun state => ∃ position, Writing state.1 position ∧ state.2 = image.take position)
    (fun state => image.length - state.2.length) ?_ ?_ ?_
    (?_ : _ ∨ drive (writeCall offered next) chunks start first = _)
  · rintro ⟨writer, _⟩ size ⟨position, writing, rfl⟩ positive
    obtain ⟨some, within, whole⟩ := offers writer position writing
    have taken := congrArg (List.take size) whole
    rw [take_take] at taken
    simp only [writeCall, taken, ← take_add, length_take]
    refine ⟨?_, by omega⟩
    rcases count writer position (min size _) writing (Nat.lt_min.mpr ⟨positive, some⟩)
      (Nat.min_le_right _ _) with goesOn | ⟨done, all⟩
    · exact .inl ⟨_, goesOn, rfl⟩
    · rw [done, all, take_length]
      exact .inr rfl
  · rintro state errno ⟨position, writing, written⟩ transient
    exact ⟨⟨position, error _ _ errno writing transient, written⟩, Nat.le_refl _⟩
  · intro chunk
    cases chunk with
    | atMost size => simp [writeCall, idle, stays]
    | interrupted errno => simp [writeCall, stays]
  · rw [called]
    rcases begins with writing | ⟨rfl, rfl⟩
    · exact .inl ⟨position, writing, rfl⟩
    · exact .inr (by rw [take_length])

section AsyncRead

variable {packet rest : List Byte}

def AsyncReading (packet rest : List Byte) (reader : ReadPacket) (stream : List Byte) : Prop :=
  reader.Waiting ∧ reader.got ++ stream = packetImage packet ++ rest

theorem AsyncReading.stream_ne_nil {reader : ReadPacket} {stream : List Byte}
    (sendable : Sendable packet) (reading : AsyncReading packet rest reader stream) :
    0 < stream.length := by
  refine length_pos_iff.mpr fun empty => ?_
  have whole := reading.2
  rw [empty, append_nil] at whole
  exact ReadPacket.got_ne_packetImage reading.1 sendable whole

theorem AsyncReading.next_data {reader : ReadPacket} {stream : List Byte} {count : Nat}
    (sendable : Sendable packet) (reading : AsyncReading packet rest reader stream)
    (positive : 0 < count) (fewer : count ≤ reader.wanted) :
    (AsyncReading packet rest (reader.next (.data (stream.take count))) (stream.drop count) ∨
      reader.next (.data (stream.take count)) = .returned true packet ∧ stream.drop count = rest) ∧
    (stream.drop count).length < stream.length := by
  have some := reading.stream_ne_nil sendable
  have taken : (stream.take count).length = min count stream.length := length_take
  have whole : reader.got ++ stream.take count ++ stream.drop count =
      packetImage packet ++ rest := by
    rw [append_assoc, take_append_drop]
    exact reading.2
  refine ⟨?_, by rw [length_drop]; omega⟩
  rcases @ReadPacket.next_data reader (stream.take count) reading.1 (by omega) (by omega) with
    ⟨waiting, got⟩ | ⟨other, returned, otherSendable, image⟩
  · exact .inl ⟨waiting, by rw [got, whole]⟩
  · rw [← image] at whole
    obtain ⟨rfl, remains⟩ := packetImage_prefixFree _ _ _ _ otherSendable sendable whole
    exact .inr ⟨returned, remains⟩

theorem asyncReads {chunks : Chunks} (fair : chunks.Fair) (sendable : Sendable packet)
    (buffers : ReadBuffers) (rest : List Byte) :
    AsyncReads chunks buffers (packetImage packet ++ rest) packet rest := by
  have begins : AsyncReading packet rest (.start buffers.headBuffer buffers.buffer)
      (packetImage packet ++ rest) := ⟨ReadPacket.waiting_start buffers, rfl⟩
  have called : drive (readCall ReadPacket.wanted ReadPacket.next) chunks
      (.start buffers.headBuffer buffers.buffer, packetImage packet ++ rest) 0 = (_, _) := rfl
  refine drive_readCall fair (AsyncReading packet rest) ?_ ?_ (fun _ => rfl) rfl called
    (.inl begins)
  · intro reader stream size reading positive
    exact reading.next_data sendable (Nat.lt_min.mpr ⟨positive, reading.1.wanted_pos⟩)
      (Nat.min_le_right size _)
  · intro reader stream errno reading transient
    obtain ⟨waiting, got⟩ := ReadPacket.next_transient reading.1 transient
    exact ⟨waiting, got.symm ▸ reading.2⟩

theorem asyncReads_iff {chunks : Chunks} (fair : chunks.Fair) (sendable : Sendable packet)
    (buffers : ReadBuffers) (rest delivered remains : List Byte) :
    AsyncReads chunks buffers (packetImage packet ++ rest) delivered remains ↔
      delivered = packet ∧ remains = rest := by
  have stays (packet rest : List Byte) (chunk : Chunk) :
      readCall ReadPacket.wanted ReadPacket.next chunk (.returned true packet, rest) =
        (.returned true packet, rest) := by
    cases chunk with
    | atMost size => simp [readCall, ReadPacket.wanted, ReadPacket.next]
    | interrupted errno => rfl
  have reads := asyncReads fair sendable buffers rest
  constructor
  · intro other
    obtain ⟨turns, returned⟩ := reads
    obtain ⟨otherTurns, otherReturned⟩ := other
    cases drive_settled (stays _ _) (stays _ _) otherReturned returned
    exact ⟨rfl, rfl⟩
  · rintro ⟨rfl, rfl⟩
    exact reads

end AsyncRead

section BlockingRead

open ReadPacket (store take_store)

variable {chunks : Chunks} {packet rest : List Byte}

variable {size turn : Nat} {buffer stream : List Byte}

abbrev blockingCall : Chunk → BlockingRead × List Byte → BlockingRead × List Byte :=
  readCall BlockingRead.wanted BlockingRead.next

theorem resize_eq_self {α : Type} (fresh : α) {items : List α} (length : items.length = size) :
    resize fresh items size = items := by
  rw [resize, ← length, take_length, Nat.sub_self, replicate_zero, append_nil]

section

variable
  (quiet : ∀ earlier < turn, ∃ errno, errno.transient = true ∧ chunks earlier = .interrupted errno)

include quiet

theorem blocking_waits (headBuffer buffer stream : List Byte) :
    drive blockingCall chunks
      (.start headBuffer buffer, stream) turn = (.start headBuffer buffer, stream) := by
  induction turn with
  | zero => rfl
  | succ turn ih =>
    obtain ⟨errno, transient, failed⟩ := quiet turn (Nat.lt_succ_self turn)
    rw [drive, ih fun earlier before => quiet earlier (Nat.lt_succ_of_lt before), failed]
    simp [readCall, BlockingRead.start, BlockingRead.next, transient]

theorem blocking_first_call (moves : chunks turn = .atMost size)
    (headBuffer buffer stream : List Byte) :
    drive blockingCall chunks
      (.start headBuffer buffer, stream) (turn + 1) =
        (BlockingRead.next (.data (stream.take (min size headerSize))) (.start headBuffer buffer),
          stream.drop (min size headerSize)) := by
  rw [drive, blocking_waits quiet, moves]
  rfl

end

theorem ofLittleEndian_headBuffer (sendable : Sendable packet) :
    ofLittleEndian (WritePacket.headBuffer packet) = packet.length := by
  rw [WritePacket.headBuffer, totalWriteSize_eq sendable, ofLittleEndian_littleEndian]
  exact Nat.mod_eq_of_lt sendable

def BlockingReading (packet rest : List Byte) (reader : BlockingRead) (stream : List Byte) : Prop :=
  ∃ total already buffer, reader = .body total already buffer ∧ 0 < total ∧
    already + total = packet.length ∧ buffer.length = packet.length ∧
    buffer.take already ++ stream = packet ++ rest

theorem finish_whole (small : packet.length < 2 ^ 31) (length : buffer.length = packet.length)
    (whole : buffer ++ stream = packet ++ rest) :
    BlockingRead.finish packet.length buffer = .returned packet.length packet ∧ stream = rest := by
  obtain ⟨rfl, same⟩ := append_inj whole length
  rw [BlockingRead.finish, if_pos small, resize_eq_self 0 rfl]
  exact ⟨rfl, same⟩

theorem startBody_reading (small : packet.length < 2 ^ 31) (buffer : List Byte) :
    BlockingReading packet rest (BlockingRead.startBody packet.length buffer) (packet ++ rest) ∨
      BlockingRead.startBody packet.length buffer = .returned packet.length packet ∧
        packet ++ rest = rest := by
  rw [BlockingRead.startBody]
  by_cases empty : packet.length = 0
  · obtain rfl : packet = [] := eq_nil_of_length_eq_zero empty
    refine .inr ⟨?_, rfl⟩
    rw [if_pos empty, BlockingRead.finish, if_pos (by decide)]
    simp [resize]
  · rw [if_neg empty]
    refine .inl ⟨_, _, _, rfl, Nat.pos_of_ne_zero empty, Nat.zero_add _, length_resize _ _ _, rfl⟩

theorem BlockingReading.next_data {reader : BlockingRead} (small : packet.length < 2 ^ 31)
    (reading : BlockingReading packet rest reader stream) (positive : 0 < size) :
    let count := min size reader.wanted
    (BlockingReading packet rest (reader.next (.data (stream.take count))) (stream.drop count) ∨
      reader.next (.data (stream.take count)) = .returned packet.length packet ∧
        stream.drop count = rest) ∧
    (stream.drop count).length < stream.length := by
  obtain ⟨total, already, buffer, rfl, wants, counters, length, whole⟩ := reading
  intro count
  have counts : count = min size total := rfl
  have lengths := congrArg List.length whole
  rw [length_append, length_append, length_take] at lengths
  have taken : (stream.take count).length = count := by
    rw [length_take]
    omega
  obtain ⟨stored, same⟩ := @take_store buffer (stream.take count) already (by omega)
  have onward : (store buffer already (stream.take count)).take (already + count) ++
      stream.drop count = packet ++ rest := by
    rw [taken] at stored
    rw [stored, append_assoc, take_append_drop, whole]
  refine ⟨?_, by rw [length_drop]; omega⟩
  rw [BlockingRead.next, if_neg (by omega), taken]
  by_cases complete : total - count = 0
  · have all : already + count = packet.length := by omega
    rw [all, take_of_length_le (by omega)] at onward
    rw [if_pos complete, all]
    exact .inr (finish_whole small (same.trans length) onward)
  · rw [if_neg complete, if_pos (by omega)]
    exact .inl ⟨_, _, _, rfl, by omega, by omega, same.trans length, onward⟩

theorem next_header (buffers : ReadBuffers) (sendable : Sendable packet) :
    BlockingRead.next (.data (WritePacket.headBuffer packet))
      (.start buffers.headBuffer buffers.buffer) =
        BlockingRead.startBody packet.length buffers.buffer := by
  have length := length_headBuffer packet
  have stored : store buffers.headBuffer 0 (WritePacket.headBuffer packet) =
      WritePacket.headBuffer packet := by
    rw [store, length, Nat.zero_add, ← buffers.size, drop_length, take_zero, nil_append, append_nil]
  rw [BlockingRead.start, BlockingRead.next, stored, length, Nat.zero_add, if_pos rfl,
    ofLittleEndian_headBuffer sendable]

theorem blockingReads_of_headerFirst (fair : chunks.Fair) (first : chunks.HeaderFirst)
    (small : packet.length < 2 ^ 31) (buffers : ReadBuffers) (rest : List Byte) :
    BlockingReads chunks buffers (packetImage packet ++ rest) packet rest := by
  have sendable : Sendable packet := Nat.lt_trans small (by decide)
  obtain ⟨turn, size, moves, whole, earlier⟩ := first
  have quiet : ∀ before < turn, ∃ errno, errno.transient = true ∧
      chunks before = .interrupted errno := by
    intro before less
    obtain ⟨errno, failed⟩ := earlier before less
    exact ⟨errno, fair.transient _ _ failed, failed⟩
  let start := (BlockingRead.start buffers.headBuffer buffers.buffer, packetImage packet ++ rest)
  have called : drive blockingCall chunks start (turn + 1) =
      (BlockingRead.startBody packet.length buffers.buffer, packet ++ rest) := by
    rw [blocking_first_call quiet moves, Nat.min_eq_right whole, packetImage, append_assoc,
      ← length_headBuffer packet, take_left, drop_left, next_header buffers sendable]
  refine drive_readCall fair (BlockingReading packet rest) ?_ ?_ (fun result => ?_) rfl called
    (startBody_reading small buffers.buffer)
  · intro reader stream size reading positive
    exact reading.next_data small positive
  · rintro reader stream errno ⟨total, already, buffer, rfl, facts⟩ transient
    exact ⟨total, already, buffer, if_pos transient, facts⟩
  · cases result with
    | data | error => rfl

theorem finish_small {already : Nat} {returnedBuffer : List Byte} {result : Int}
    (returned : BlockingRead.finish already buffer = .returned result returnedBuffer) :
    returnedBuffer.length < 2 ^ 31 ∧ returnedBuffer.length = already := by
  rw [BlockingRead.finish] at returned
  split at returned
  · rename_i small
    cases returned
    rw [length_resize]
    exact ⟨small, rfl⟩
  · cases returned

theorem blocking_next_transient {errno : Errno} (transient : errno.transient = true)
    (reader : BlockingRead) : reader.next (.error errno) = reader := by
  cases reader with
  | header | body => exact if_pos transient
  | returned | thrown | faulted => rfl

theorem blocking_invariant (fair : chunks.Fair) (Inv : BlockingRead → List Byte → Prop)
    (data : ∀ reader stream size, Inv reader stream → 0 < size → let count := min size reader.wanted
      Inv (reader.next (.data (stream.take count))) (stream.drop count))
    {start : BlockingRead × List Byte} {first : Nat} (later : first ≤ turn) {reader : BlockingRead}
    (called : drive blockingCall chunks start first =
      (reader, stream)) (begins : Inv reader stream) {reached : BlockingRead} {rest : List Byte}
    (ended : drive blockingCall chunks start turn = (reached, rest)) : Inv reached rest := by
  have kept (turn : Nat) (state : BlockingRead × List Byte) (inv : Inv state.1 state.2) :
      Inv (blockingCall (chunks turn) state).1
        (blockingCall (chunks turn) state).2 := by
    have passing := fair.passing turn
    cases chunk : chunks turn with
    | atMost size =>
      rw [chunk] at passing
      exact data _ _ size inv passing
    | interrupted errno =>
      rw [chunk] at passing
      rw [blockingCall, readCall, blocking_next_transient passing]
      exact inv
  have started : Inv (drive blockingCall chunks start first).1
      (drive blockingCall chunks start first).2 := by
    rw [called]
    exact begins
  have holds := drive_invariant (fun state : BlockingRead × List Byte => Inv state.1 state.2) kept
    started later
  rw [ended] at holds
  exact holds

theorem blocking_returns_small (fair : chunks.Fair) (buffers : ReadBuffers) (stream : List Byte)
    {turns : Nat} {result : Int} {remains : List Byte} (returned : drive blockingCall chunks
      (.start buffers.headBuffer buffers.buffer, stream) turns =
        (.returned result buffer, remains)) : buffer.length < 2 ^ 31 := by
  have holds : ∀ result' buffer', BlockingRead.returned result buffer = .returned result' buffer' →
      buffer'.length < 2 ^ 31 := by
    refine blocking_invariant fair (fun reader _ => ∀ result buffer,
      reader = .returned result buffer → buffer.length < 2 ^ 31) ?_ (Nat.zero_le turns) rfl ?_
      returned
    · intro reader stream size inv _ count result buffer ended
      cases reader with
      | header received headBuffer held =>
        simp only [BlockingRead.next, BlockingRead.startBody] at ended
        split at ended
        · split at ended
          · exact (finish_small ended).1
          · cases ended
        · cases ended
      | body total already held =>
        simp only [BlockingRead.next] at ended
        split at ended
        · exact (finish_small ended).1
        · split at ended
          · exact (finish_small ended).1
          · split at ended
            · cases ended
            · cases ended
      | returned before held => exact inv result buffer ended
      | thrown | faulted => cases ended
    · rintro _ _ ⟨⟩
  exact holds result buffer rfl

section Misreading

variable {total : Nat} {top : Byte}

/-- The header was not read in one piece. Its last byte is what `head_buffer` held before, which is
not the last byte of the size of the packet. -/
def Misreading (size : Nat) (top : Byte) (reader : BlockingRead) (stream : List Byte) : Prop :=
  match reader with
  | .header received headBuffer _ =>
    0 < received ∧ (headerSize < received ∨
      received < headerSize ∧ headBuffer.length = headerSize ∧ headBuffer[3]? = some top ∧
        2 ^ 32 + headerSize ≤ stream.length + received)
  | .body total already buffer =>
    0 < total ∧ already + total = buffer.length ∧ total ≤ stream.length ∧ buffer.length ≠ size
  | .returned _ buffer => buffer.length ≠ size
  | .thrown | .faulted => True

theorem ofLittleEndian_top {bytes : List Byte} (length : bytes.length = headerSize)
    (last : bytes[3]? = some top) : ofLittleEndian bytes / 2 ^ 24 = top.toNat := by
  match bytes, length with
  | [first, second, third, fourth], _ =>
    have same : fourth = top := Option.some.inj last
    have low := first.toNat_lt
    have middle := second.toNat_lt
    have high := third.toNat_lt
    simp only [ofLittleEndian, same]
    omega

theorem getElem?_store {headBuffer bytes : List Byte} (short : bytes.length ≤ 3) :
    (store headBuffer 0 bytes)[3]? = headBuffer[3]? := by
  rw [store, take_zero, nil_append, List.getElem?_append_right short,
    List.getElem?_drop, Nat.zero_add, Nat.add_sub_cancel' short]

theorem length_store {headBuffer bytes : List Byte} (fits : bytes.length ≤ headBuffer.length) :
    (store headBuffer 0 bytes).length = headBuffer.length :=
  (@take_store headBuffer bytes 0 (by omega)).2

variable {stream : List Byte}

theorem finish_misreading {size already : Nat} {buffer : List Byte} (different : already ≠ size) :
    Misreading size top (BlockingRead.finish already buffer) stream := by
  rw [BlockingRead.finish]
  split
  · rw [Misreading, length_resize]
    exact different
  · trivial

theorem startBody_misreading {size : Nat} {buffer : List Byte} (different : total ≠ size)
    (enough : total ≤ stream.length) :
    Misreading size top (BlockingRead.startBody total buffer) stream := by
  rw [BlockingRead.startBody]
  by_cases empty : total = 0
  · rw [if_pos empty]
    exact finish_misreading (empty ▸ different)
  · rw [if_neg empty, Misreading, length_resize]
    exact ⟨Nat.pos_of_ne_zero empty, Nat.zero_add total, enough, different⟩

theorem Misreading.next_data {size : Nat} {reader : BlockingRead} {chunk : Nat}
    (different : top.toNat ≠ size / 2 ^ 24) (misreading : Misreading size top reader stream)
    (positive : 0 < chunk) : let count := min chunk reader.wanted
    Misreading size top (reader.next (.data (stream.take count))) (stream.drop count) := by
  cases reader with
  | header received headBuffer buffer =>
    obtain ⟨some, cases⟩ := misreading
    intro count
    have counts : count = min chunk headerSize := rfl
    have four : headerSize = 4 := rfl
    have taken : (stream.take count).length = min count stream.length := length_take
    have left : (stream.drop count).length = stream.length - count := length_drop
    rw [BlockingRead.next]
    rcases cases with past | ⟨short, length, last, long⟩
    · rw [if_neg (by omega)]
      exact ⟨by omega, .inl (by omega)⟩
    · by_cases complete : received + (stream.take count).length = headerSize
      · have stored := @length_store headBuffer (stream.take count)
          (by omega)
        have kept := @getElem?_store headBuffer (stream.take count)
          (by omega)
        have high := ofLittleEndian_top (stored.trans length) (kept.trans last)
        have fits := ofLittleEndian_lt (store headBuffer 0 (stream.take count))
        rw [stored, length] at fits
        rw [if_pos complete]
        refine startBody_misreading (fun same => different (high ▸ same ▸ rfl)) ?_
        have bound : 256 ^ headerSize = 2 ^ 32 := rfl
        omega
      · rw [if_neg complete]
        by_cases past : headerSize < received + (stream.take count).length
        · exact ⟨by omega, .inl past⟩
        · refine ⟨by omega, .inr ⟨by omega, ?_, ?_, by omega⟩⟩
          · rw [length_store (by omega), length]
          · rw [getElem?_store (by omega), last]
  | body total already buffer =>
    obtain ⟨wants, counters, enough, other⟩ := misreading
    intro count
    have counts : count = min chunk total := rfl
    have taken : (stream.take count).length = count := by
      rw [length_take]
      omega
    have left : (stream.drop count).length = stream.length - count := length_drop
    obtain ⟨-, stored⟩ := @take_store buffer (stream.take count) already (by omega)
    rw [BlockingRead.next, if_neg (by omega), taken]
    by_cases complete : total - count = 0
    · rw [if_pos complete]
      exact finish_misreading (by omega)
    · rw [if_neg complete]
      split
      · rw [Misreading, stored]
        exact ⟨by omega, by omega, by omega, other⟩
      · trivial
  | returned result buffer => exact misreading
  | thrown | faulted => trivial

end Misreading

theorem exists_length (size : Nat) : ∃ bytes : List Byte, bytes.length = size :=
  ⟨List.replicate size 0, length_replicate⟩

theorem blocking_misreads (fair : chunks.Fair) (packet : List Byte)
    (moves : chunks turn = .atMost size) (short : size < headerSize)
    (quiet : ∀ earlier < turn, ∃ errno, errno.transient = true ∧
      chunks earlier = .interrupted errno) :
    ∃ buffers packets, (∀ other ∈ packets, Sendable other) ∧
      ¬ BlockingReads chunks buffers ((packet :: packets).flatMap packetImage) packet
        (packets.flatMap packetImage) := by
  obtain ⟨top, different⟩ : ∃ top : Byte, top.toNat ≠ packet.length / 2 ^ 24 := by
    by_cases zero : packet.length / 2 ^ 24 = 0
    · exact ⟨1, by rw [zero]; decide⟩
    · exact ⟨0, fun same => zero same.symm⟩
  obtain ⟨long, length⟩ := exists_length (2 ^ 32 - 1)
  refine ⟨⟨[0, 0, 0, top], [], rfl⟩, [long], ?_, ?_⟩
  · intro other member
    rw [mem_singleton.mp member, Sendable, length]
    decide
  · rintro ⟨turns, returned⟩
    have four : headerSize = 4 := rfl
    have positive := fair.positive turn size moves
    have streamLength : 2 ^ 32 + headerSize ≤ (([packet, long].flatMap packetImage).length) := by
      simp only [flatMap_cons, flatMap_nil, packetImage, length_append, length_headBuffer, length]
      omega
    have taken : (([packet, long].flatMap packetImage).take (min size headerSize)).length =
        size := by
      rw [length_take]
      omega
    have left : (([packet, long].flatMap packetImage).drop (min size headerSize)).length =
        ([packet, long].flatMap packetImage).length - size := by
      rw [length_drop]
      omega
    rcases Nat.lt_or_ge turn turns with after | before
    · have called := blocking_first_call quiet moves [0, 0, 0, top] []
        ([packet, long].flatMap packetImage)
      rw [BlockingRead.start, BlockingRead.next, taken, if_neg (by omega)] at called
      have begins : Misreading packet.length top
          (.header (0 + size) (store [0, 0, 0, top] 0
            (([packet, long].flatMap packetImage).take (min size headerSize))) [])
          (([packet, long].flatMap packetImage).drop (min size headerSize)) := by
        refine ⟨by omega, .inr ⟨by omega, ?_, ?_, by omega⟩⟩
        · exact length_store (by rw [taken]; exact Nat.le_of_lt short)
        · rw [getElem?_store (by omega)]
          rfl
      have holds := blocking_invariant fair (Misreading packet.length top)
        (fun _ _ _ misreading positive => misreading.next_data different positive) after called
        begins returned
      exact holds rfl
    · rw [blocking_waits fun earlier less => quiet earlier (Nat.lt_of_lt_of_le less before)]
        at returned
      cases congrArg Prod.fst returned

theorem blockingReads_iff (fair : chunks.Fair) (packet : List Byte) :
    (∀ (buffers : ReadBuffers) (packets : List (List Byte)), (∀ other ∈ packets, Sendable other) →
      BlockingReads chunks buffers ((packet :: packets).flatMap packetImage) packet
        (packets.flatMap packetImage)) ↔
      chunks.HeaderFirst ∧ packet.length < 2 ^ 31 := by
  constructor
  · intro reads
    constructor
    · obtain ⟨turn, size, moves, positive, quiet⟩ := fair.exists_first
      refine ⟨turn, size, moves, ?_, fun earlier before => ?_⟩
      · by_contra short
        obtain ⟨buffers, packets, fit, misread⟩ :=
          blocking_misreads fair packet moves (Nat.lt_of_not_le short) quiet
        exact misread (reads buffers packets fit)
      · obtain ⟨errno, -, failed⟩ := quiet earlier before
        exact ⟨errno, failed⟩
    · obtain ⟨turns, returned⟩ := reads ⟨[0, 0, 0, 0], [], rfl⟩ [] (by rintro _ ⟨⟩)
      exact blocking_returns_small fair ⟨[0, 0, 0, 0], [], rfl⟩ _ returned
  · rintro ⟨first, small⟩ buffers packets fit
    rw [flatMap_cons]
    exact blockingReads_of_headerFirst fair first small buffers _

theorem not_blockingReadReturns (fair : chunks.Fair) (buffers : ReadBuffers)
    (short : stream.length < headerSize) : ¬ BlockingReadReturns chunks buffers stream := by
  rintro ⟨turns, result, buffer, remains, returned⟩
  have holds : ∃ received headBuffer held,
      BlockingRead.returned result buffer = .header received headBuffer held ∧
        received + remains.length < headerSize := by
    refine blocking_invariant fair (fun reader rest => ∃ received headBuffer held,
      reader = .header received headBuffer held ∧ received + rest.length < headerSize) ?_
      (Nat.zero_le turns) rfl ?_ returned
    · rintro reader rest size ⟨received, headBuffer, held, rfl, few⟩ positive count
      have taken : (rest.take count).length = min count rest.length := length_take
      have left : (rest.drop count).length = rest.length - count := length_drop
      rw [BlockingRead.next, if_neg (by omega)]
      exact ⟨_, _, _, rfl, by omega⟩
    · exact ⟨0, _, _, rfl, by omega⟩
  obtain ⟨received, headBuffer, held, same, -⟩ := holds
  cases same

end BlockingRead

end Bitdb.Net
