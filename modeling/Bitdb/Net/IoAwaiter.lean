import Bitdb.Base.Run
import Bitdb.Base.Split
import Bitdb.Codec.Overload

/-! Packets on a connection (`bitdb/net/io_awaiter.h` and `io_awaiter.cpp`). A coroutine goes from
one call of `read` or `write` to the next. An awaiter makes the call in `await_ready`, and if that
fails `await_resume` makes it again. Packets arrive as they were written, however the connection
cuts the stream. -/

set_option autoImplicit false

namespace Bitdb.Net

inductive Errno where
  | eintr
  | ewouldblock
  | eagain
  | other
  deriving DecidableEq, Repr

def Errno.transient : Errno → Bool
  | .other => false
  | _ => true

inductive IoResult where
  | count (size : Nat)
  | error (errno : Errno)
  deriving DecidableEq, Repr

/-- The counters of a loop over an awaiter, and whether the awaiter was suspended. -/
structure Transfer where
  remaining : Nat
  already : Nat
  resumed : Bool
  deriving DecidableEq, Repr

def Transfer.start (size : Nat) : Transfer := ⟨size, 0, false⟩

inductive Turn where
  | again (transfer : Transfer)
  | complete
  | failed
  deriving DecidableEq, Repr

/-- The body of the four loops. -/
def Transfer.turn (transfer : Transfer) : IoResult → Turn
  | .error errno =>
    if !transfer.resumed then .again { transfer with resumed := true }
    else if errno.transient then .again { transfer with resumed := false }
    else .failed
  | .count size =>
    if size = 0 then .failed
    else if transfer.remaining - size = 0 then .complete
    else .again ⟨transfer.remaining - size, transfer.already + size, false⟩

def headerSize : Nat := 4

inductive WritePacket where
  | header (transfer : Transfer) (buffer : List Byte)
  | body (transfer : Transfer) (buffer : List Byte)
  | returned (result : Bool)
  deriving DecidableEq, Repr

namespace WritePacket

def totalWriteSize (buffer : List Byte) : Nat := (UInt32.ofNat buffer.length).toNat

def headBuffer (buffer : List Byte) : List Byte := littleEndian headerSize (totalWriteSize buffer)

def start (buffer : List Byte) : WritePacket := .header (.start headerSize) buffer

def startBody (buffer : List Byte) : WritePacket :=
  if totalWriteSize buffer = 0 then .returned true
  else .body (.start (totalWriteSize buffer)) buffer

def offered : WritePacket → List Byte
  | .header transfer buffer =>
    ((headBuffer buffer).drop transfer.already).take transfer.remaining
  | .body transfer buffer => (buffer.drop transfer.already).take transfer.remaining
  | .returned _ => []

def next (result : IoResult) : WritePacket → WritePacket
  | .header transfer buffer =>
    match transfer.turn result with
    | .again transfer => .header transfer buffer
    | .complete => startBody buffer
    | .failed => .returned false
  | .body transfer buffer =>
    match transfer.turn result with
    | .again transfer => .body transfer buffer
    | .complete => .returned true
    | .failed => .returned false
  | .returned result => .returned result

end WritePacket

def packetImage (packet : List Byte) : List Byte := WritePacket.headBuffer packet ++ packet

/-- What `read` has stored; no bytes at the end of the stream. -/
inductive ReadResult where
  | data (bytes : List Byte)
  | error (errno : Errno)
  deriving DecidableEq, Repr

namespace ReadResult

def io : ReadResult → IoResult
  | .data bytes => .count bytes.length
  | .error errno => .error errno

def bytes : ReadResult → List Byte
  | .data bytes => bytes
  | .error _ => []

end ReadResult

inductive ReadPacket where
  | header (transfer : Transfer) (headBuffer buffer : List Byte)
  | body (transfer : Transfer) (buffer : List Byte)
  | returned (result : Bool) (buffer : List Byte)
  deriving DecidableEq, Repr

namespace ReadPacket

def store (buffer : List Byte) (offset : Nat) (bytes : List Byte) : List Byte :=
  buffer.take offset ++ bytes ++ buffer.drop (offset + bytes.length)

/-- `head_buffer` is not initialised, and `buffer` is the object of the caller. -/
def start (headBuffer buffer : List Byte) : ReadPacket :=
  .header (.start headerSize) headBuffer buffer

def startBody (totalReadSize : Nat) (buffer : List Byte) : ReadPacket :=
  if totalReadSize = 0 then .returned true (resize 0 buffer totalReadSize)
  else .body (.start totalReadSize) (resize 0 buffer totalReadSize)

def wanted : ReadPacket → Nat
  | .header transfer _ _ => transfer.remaining
  | .body transfer _ => transfer.remaining
  | .returned _ _ => 0

def next (result : ReadResult) : ReadPacket → ReadPacket
  | .header transfer headBuffer buffer =>
    let headBuffer := store headBuffer transfer.already result.bytes
    match transfer.turn result.io with
    | .again transfer => .header transfer headBuffer buffer
    | .complete => startBody (ofLittleEndian headBuffer) buffer
    | .failed => .returned false buffer
  | .body transfer buffer =>
    let buffer := store buffer transfer.already result.bytes
    match transfer.turn result.io with
    | .again transfer => .body transfer buffer
    | .complete => .returned true buffer
    | .failed => .returned false buffer
  | .returned result buffer => .returned result buffer

end ReadPacket

/-- What a caller of `AsyncReadPacket` has before the call: the uninitialised header and the
buffer it passes. -/
structure ReadBuffers where
  headBuffer : List Byte
  buffer : List Byte
  size : headBuffer.length = headerSize

/-- One direction of a connection. One end writes packets one after the other, and the other
end reads packets one after the other, as long as the calls return `true`. -/
structure Link where
  unsent : List (List Byte)
  writer : WritePacket
  pipe : List Byte
  reader : ReadPacket
  received : List (List Byte)

/-- A call of `write` or `read` on the socket. -/
inductive LinkEvent where
  | write (size : Nat)
  | writeError (errno : Errno)
  | read (size : Nat)
  | readError (errno : Errno)
  deriving DecidableEq, Repr

def LinkEvent.moves : LinkEvent → Bool
  | .write _ => true
  | .read _ => true
  | _ => false

namespace Link

def initial (packets : List (List Byte)) (buffers : ReadBuffers) : Link :=
  match packets with
  | [] => ⟨[], .returned true, [], .start buffers.headBuffer buffers.buffer, []⟩
  | packet :: packets =>
    ⟨packets, .start packet, [], .start buffers.headBuffer buffers.buffer, []⟩

def wrote (link : Link) (writer : WritePacket) : Link :=
  match writer, link.unsent with
  | .returned true, packet :: packets =>
    { link with writer := .start packet, unsent := packets }
  | writer, _ => { link with writer := writer }

def took (link : Link) (buffers : ReadBuffers) (reader : ReadPacket) : Link :=
  match reader with
  | .returned true buffer =>
    { link with
      reader := .start buffers.headBuffer buffers.buffer, received := link.received ++ [buffer] }
  | reader => { link with reader := reader }

/-- The socket may accept and deliver any number of the bytes it could, but at least one; and
it may let a call fail for a reason that passes. -/
def step (buffers : Link → ReadBuffers) (link : Link) : LinkEvent → Option Link
  | .write size =>
    if 0 < size ∧ size ≤ link.writer.offered.length then
      some ({ link with pipe := link.pipe ++ link.writer.offered.take size }.wrote
        (link.writer.next (.count size)))
    else none
  | .writeError errno =>
    if errno.transient then some (link.wrote (link.writer.next (.error errno))) else none
  | .read size =>
    if 0 < size ∧ size ≤ link.reader.wanted ∧ size ≤ link.pipe.length then
      some ({ link with pipe := link.pipe.drop size }.took (buffers link)
        (link.reader.next (.data (link.pipe.take size))))
    else none
  | .readError errno =>
    if errno.transient then some (link.took (buffers link) (link.reader.next (.error errno)))
    else none

def Step (buffers : Link → ReadBuffers) (link : Link) (event : LinkEvent) (reached : Link) : Prop :=
  link.step buffers event = some reached

end Link

open Base (Run PrefixFree)
open List ReadPacket

theorem Transfer.turn_count {transfer : Transfer} {size : Nat} (positive : 0 < size) :
    transfer.turn (.count size) = if transfer.remaining ≤ size then .complete
      else .again ⟨transfer.remaining - size, transfer.already + size, false⟩ := by
  rw [turn, if_neg (Nat.pos_iff_ne_zero.mp positive)]
  simp only [Nat.sub_eq_zero_iff_le]

theorem Transfer.turn_transient (transfer : Transfer) {errno : Errno}
    (transient : errno.transient = true) :
    transfer.turn (.error errno) = .again { transfer with resumed := !transfer.resumed } := by
  cases resumed : transfer.resumed with
  | false => rw [turn, resumed]; rfl
  | true => rw [turn, resumed, transient]; rfl

theorem Transfer.turn_error (transfer : Transfer) (errno : Errno) :
    (∃ resumed, transfer.turn (.error errno) = .again { transfer with resumed := resumed }) ∨
      transfer.turn (.error errno) = .failed ∧ errno.transient = false := by
  rw [turn]
  split
  · exact .inl ⟨true, rfl⟩
  · split
    · exact .inl ⟨false, rfl⟩
    next lasting => exact .inr ⟨rfl, eq_false_of_ne_true lasting⟩

def Sendable (packet : List Byte) : Prop := packet.length < 2 ^ 32

instance (packet : List Byte) : Decidable (Sendable packet) :=
  inferInstanceAs (Decidable (packet.length < 2 ^ 32))

theorem totalWriteSize_eq {packet : List Byte} (sendable : Sendable packet) :
    WritePacket.totalWriteSize packet = packet.length :=
  UInt32.toNat_ofNat_of_lt sendable

theorem length_headBuffer (packet : List Byte) :
    (WritePacket.headBuffer packet).length = headerSize :=
  length_littleEndian _ _

theorem packetImage_ne_nil (packet : List Byte) : packetImage packet ≠ [] := by
  intro empty
  have length := length_headBuffer packet
  rw [(append_eq_nil_iff.mp empty).1] at length
  cases length

theorem length_eq_of_headBuffer {first second : List Byte} (firstFits : Sendable first)
    (secondFits : Sendable second)
    (same : WritePacket.headBuffer first = WritePacket.headBuffer second) :
    first.length = second.length := by
  have decoded := congrArg ofLittleEndian same
  simp only [WritePacket.headBuffer, totalWriteSize_eq firstFits, totalWriteSize_eq secondFits,
    ofLittleEndian_littleEndian, headerSize] at decoded
  rw [Sendable] at firstFits secondFits
  omega

theorem packetImage_prefixFree : PrefixFree packetImage Sendable := by
  intro first second behindFirst behindSecond firstFits secondFits same
  rw [packetImage, packetImage, append_assoc, append_assoc] at same
  obtain ⟨headers, bodies⟩ := append_inj same
    ((length_headBuffer first).trans (length_headBuffer second).symm)
  exact append_inj bodies (length_eq_of_headBuffer firstFits secondFits headers)

namespace WritePacket

variable {packet : List Byte} {writer : WritePacket} {size : Nat}

/-- The bytes that `AsyncWritePacket` writes. -/
def image (packet : List Byte) : List Byte :=
  headBuffer packet ++ packet.take (totalWriteSize packet)

theorem image_eq (sendable : Sendable packet) : image packet = packetImage packet := by
  rw [image, totalWriteSize_eq sendable, take_length, packetImage]

theorem length_image (packet : List Byte) :
    (image packet).length = headerSize + totalWriteSize packet := by
  have fits : totalWriteSize packet ≤ packet.length := by
    rw [totalWriteSize, UInt32.toNat_ofNat']
    exact Nat.mod_le _ _
  rw [image, length_append, length_headBuffer, length_take, Nat.min_eq_left fits]

/-- How many of these bytes have been written. -/
def position : WritePacket → Nat
  | .header transfer _ => transfer.already
  | .body transfer _ => headerSize + transfer.already
  | .returned _ => 0

def Writes (packet : List Byte) : WritePacket → Prop
  | .header transfer buffer =>
    buffer = packet ∧ transfer.already + transfer.remaining = headerSize ∧ 0 < transfer.remaining
  | .body transfer buffer =>
    buffer = packet ∧ transfer.already + transfer.remaining = totalWriteSize packet ∧
      0 < transfer.remaining
  | .returned _ => False

theorem Writes.start (packet : List Byte) : (start packet).Writes packet :=
  ⟨rfl, rfl, Nat.zero_lt_succ 3⟩

section

variable (writes : writer.Writes packet)

include writes

theorem Writes.offers : 0 < writer.offered.length ∧
    writer.position + writer.offered.length ≤ (image packet).length ∧
    writer.offered = ((image packet).drop writer.position).take writer.offered.length := by
  have total := length_image packet
  have head := length_headBuffer packet
  cases writer with
  | header transfer buffer =>
    obtain ⟨rfl, counters, positive⟩ := writes
    have length : ((headBuffer buffer).drop transfer.already).length = transfer.remaining := by
      rw [length_drop]
      omega
    rw [offered, take_of_length_le (Nat.le_of_eq length), length, position, image,
      drop_append_of_le_length (by omega), take_left' length, ← image]
    exact ⟨positive, by omega, rfl⟩
  | body transfer buffer =>
    obtain ⟨rfl, counters, positive⟩ := writes
    have behind : (image buffer).drop (headerSize + transfer.already) =
        (body transfer buffer).offered := by
      rw [image, ← head, drop_length_add_append, drop_take, offered, ← counters,
        Nat.add_sub_cancel_left]
    have length := congrArg List.length behind
    rw [length_drop] at length
    rw [position, behind, take_length]
    exact ⟨by omega, by omega, rfl⟩
  | returned result => exact writes.elim

theorem Writes.offered_take (fewer : size ≤ writer.offered.length) :
    writer.offered.take size = ((image packet).drop writer.position).take size := by
  have taken := congrArg (List.take size) writes.offers.2.2
  rwa [take_take, Nat.min_eq_left fewer] at taken

theorem Writes.next_count (positive : 0 < size) (accepted : size ≤ writer.offered.length) :
    ((writer.next (.count size)).Writes packet ∧
      (writer.next (.count size)).position = writer.position + size) ∨
    writer.next (.count size) = .returned true ∧
      writer.position + size = (image packet).length := by
  rw [length_image]
  cases writer with
  | header transfer buffer =>
    obtain ⟨rfl, counters, more⟩ := writes
    have fewer : size ≤ transfer.remaining := accepted.trans (length_take_le _ _)
    simp only [next, Transfer.turn_count positive, position]
    by_cases complete : transfer.remaining ≤ size
    · rw [if_pos complete, startBody]
      by_cases empty : totalWriteSize buffer = 0
      · rw [if_pos empty]
        exact .inr ⟨rfl, by omega⟩
      · rw [if_neg empty]
        refine .inl ⟨⟨rfl, Nat.zero_add _, Nat.pos_of_ne_zero empty⟩, ?_⟩
        simp only [Transfer.start]
        omega
    · rw [if_neg complete]
      exact .inl ⟨⟨rfl, by simp only; omega, by simp only; omega⟩, rfl⟩
  | body transfer buffer =>
    obtain ⟨rfl, counters, more⟩ := writes
    have fewer : size ≤ transfer.remaining := accepted.trans (length_take_le _ _)
    simp only [next, Transfer.turn_count positive, position]
    by_cases complete : transfer.remaining ≤ size
    · rw [if_pos complete]
      exact .inr ⟨rfl, by omega⟩
    · rw [if_neg complete]
      exact .inl ⟨⟨rfl, by simp only; omega, by simp only; omega⟩, by simp only [Nat.add_assoc]⟩
  | returned result => exact writes.elim

theorem Writes.next_zero : writer.next (.count 0) = .returned false := by
  cases writer with
  | header | body => rfl
  | returned result => exact writes.elim

theorem Writes.next_error (errno : Errno) :
    ((writer.next (.error errno)).Writes packet ∧
      (writer.next (.error errno)).position = writer.position) ∨
    writer.next (.error errno) = .returned false ∧ errno.transient = false := by
  cases writer with
  | header transfer buffer | body transfer buffer =>
    rcases transfer.turn_error errno with ⟨resumed, again⟩ | ⟨failed, lasting⟩
    · simp only [next, again]
      exact .inl ⟨writes, rfl⟩
    · simp only [next, failed]
      exact .inr ⟨trivial, lasting⟩
  | returned result => exact writes.elim

theorem Writes.next_transient {errno : Errno} (transient : errno.transient = true) :
    (writer.next (.error errno)).Writes packet ∧
      (writer.next (.error errno)).position = writer.position := by
  refine (writes.next_error errno).resolve_right fun failed => ?_
  rw [transient] at failed
  cases failed.2

end

def left : WritePacket → List Byte
  | .header transfer buffer => (image buffer).drop transfer.already
  | .body transfer buffer => (image buffer).drop (headerSize + transfer.already)
  | .returned _ => []

theorem Writes.left_eq (writes : writer.Writes packet) :
    writer.left = (image packet).drop writer.position := by
  cases writer with
  | header transfer buffer | body transfer buffer =>
    obtain ⟨rfl, _⟩ := writes
    rfl
  | returned result => exact writes.elim

/-- A call that is on its way to return `true`. -/
def WellFormed (writer : WritePacket) : Prop :=
  writer = .returned true ∨ ∃ packet, Sendable packet ∧ writer.Writes packet

section

variable (wellFormed : writer.WellFormed)

include wellFormed

theorem WellFormed.next_count (positive : 0 < size) (accepted : size ≤ writer.offered.length) :
    (writer.next (.count size)).WellFormed ∧
      writer.left = writer.offered.take size ++ (writer.next (.count size)).left := by
  rcases wellFormed with rfl | ⟨packet, sendable, writes⟩
  · exact absurd accepted (Nat.not_le_of_gt positive)
  rw [writes.left_eq, writes.offered_take accepted]
  rcases writes.next_count positive accepted with ⟨goesOn, moved⟩ | ⟨returned, all⟩
  · refine ⟨.inr ⟨packet, sendable, goesOn⟩, ?_⟩
    rw [goesOn.left_eq, moved, ← drop_drop, take_append_drop]
  · refine ⟨.inl returned, ?_⟩
    rw [returned, left, append_nil, take_of_length_le]
    rw [length_drop]
    omega

theorem WellFormed.next_transient {errno : Errno} (transient : errno.transient = true) :
    (writer.next (.error errno)).WellFormed ∧ (writer.next (.error errno)).left = writer.left := by
  rcases wellFormed with rfl | ⟨packet, sendable, writes⟩
  · exact ⟨.inl rfl, rfl⟩
  · obtain ⟨goesOn, same⟩ := writes.next_transient transient
    exact ⟨.inr ⟨packet, sendable, goesOn⟩, by rw [goesOn.left_eq, writes.left_eq, same]⟩

theorem WellFormed.offers_or_returned : 0 < writer.offered.length ∨ writer = .returned true := by
  rcases wellFormed with returned | ⟨packet, _, writes⟩
  · exact .inr returned
  · exact .inl writes.offers.1

end

end WritePacket

namespace ReadPacket

def Waiting : ReadPacket → Prop
  | .header transfer headBuffer _ =>
    headBuffer.length = headerSize ∧ transfer.already + transfer.remaining = headerSize ∧
      0 < transfer.remaining
  | .body transfer buffer =>
    Sendable buffer ∧ transfer.already + transfer.remaining = buffer.length ∧ 0 < transfer.remaining
  | .returned _ _ => False

def got : ReadPacket → List Byte
  | .header transfer headBuffer _ => headBuffer.take transfer.already
  | .body transfer buffer => WritePacket.headBuffer buffer ++ buffer.take transfer.already
  | .returned _ _ => []

theorem waiting_start (buffers : ReadBuffers) : (start buffers.headBuffer buffers.buffer).Waiting :=
  ⟨buffers.size, rfl, Nat.zero_lt_succ 3⟩

theorem got_start (headBuffer buffer : List Byte) : (start headBuffer buffer).got = [] := rfl

theorem take_store {buffer bytes : List Byte} {offset : Nat}
    (inside : offset + bytes.length ≤ buffer.length) :
    (store buffer offset bytes).take (offset + bytes.length) = buffer.take offset ++ bytes ∧
      (store buffer offset bytes).length = buffer.length := by
  have front : (buffer.take offset ++ bytes).length = offset + bytes.length := by
    rw [length_append, length_take]
    omega
  refine ⟨?_, ?_⟩
  · rw [store, take_left' front]
  · rw [store, length_append, front, length_drop]
    omega

theorem startBody_spec {total : Nat} (fits : total < 2 ^ 32) (buffer : List Byte) :
    ((startBody total buffer).Waiting ∧
      (startBody total buffer).got = littleEndian headerSize total) ∨
    ∃ packet, startBody total buffer = .returned true packet ∧ Sendable packet ∧
      packetImage packet = littleEndian headerSize total := by
  have length := length_resize 0 buffer total
  have sendable : Sendable (resize 0 buffer total) := by
    rw [Sendable, length]
    exact fits
  have header : WritePacket.headBuffer (resize 0 buffer total) = littleEndian headerSize total := by
    rw [WritePacket.headBuffer, totalWriteSize_eq sendable, length]
  rw [startBody]
  by_cases empty : total = 0
  · rw [if_pos empty]
    refine .inr ⟨_, rfl, sendable, ?_⟩
    rw [packetImage, header, eq_nil_of_length_eq_zero (length.trans empty), append_nil]
  · rw [if_neg empty]
    refine .inl ⟨⟨sendable, ?_, Nat.pos_of_ne_zero empty⟩, ?_⟩
    · rw [length]
      exact Nat.zero_add total
    · rw [got, header]
      exact append_nil _

variable {reader : ReadPacket}

theorem next_data {bytes : List Byte} (waiting : reader.Waiting) (positive : 0 < bytes.length)
    (delivered : bytes.length ≤ reader.wanted) :
    ((reader.next (.data bytes)).Waiting ∧ (reader.next (.data bytes)).got = reader.got ++ bytes) ∨
      ∃ packet, reader.next (.data bytes) = .returned true packet ∧ Sendable packet ∧
        packetImage packet = reader.got ++ bytes := by
  cases reader with
  | header transfer headBuffer buffer =>
    obtain ⟨size, counters, _⟩ := waiting
    rw [wanted] at delivered
    obtain ⟨stored, length⟩ := @take_store headBuffer bytes transfer.already (by omega)
    simp only [next, ReadResult.io, ReadResult.bytes, Transfer.turn_count positive]
    by_cases complete : transfer.remaining ≤ bytes.length
    · have whole : store headBuffer transfer.already bytes =
          headBuffer.take transfer.already ++ bytes := by
        rw [← stored, take_of_length_le (by omega)]
      have fits := ofLittleEndian_lt (store headBuffer transfer.already bytes)
      have image := littleEndian_ofLittleEndian (store headBuffer transfer.already bytes)
      rw [length, size] at fits image
      have spec := startBody_spec fits buffer
      rw [image, whole] at spec
      rw [if_pos complete, got, whole]
      exact spec
    · rw [if_neg complete]
      refine .inl ⟨⟨length.trans size, ?_, ?_⟩, stored⟩
      · simp only
        omega
      · simp only
        omega
  | body transfer buffer =>
    obtain ⟨sendable, counters, _⟩ := waiting
    rw [wanted] at delivered
    obtain ⟨stored, length⟩ := @take_store buffer bytes transfer.already (by omega)
    have storedSendable : Sendable (store buffer transfer.already bytes) := by
      rw [Sendable, length]
      exact sendable
    have header : WritePacket.headBuffer (store buffer transfer.already bytes) =
        WritePacket.headBuffer buffer := by
      rw [WritePacket.headBuffer, WritePacket.headBuffer, WritePacket.totalWriteSize,
        WritePacket.totalWriteSize, length]
    simp only [next, ReadResult.io, ReadResult.bytes, Transfer.turn_count positive]
    by_cases complete : transfer.remaining ≤ bytes.length
    · have whole : store buffer transfer.already bytes = buffer.take transfer.already ++ bytes := by
        rw [← stored, take_of_length_le (by omega)]
      rw [if_pos complete]
      refine .inr ⟨_, rfl, storedSendable, ?_⟩
      rw [packetImage, header, got, whole, append_assoc]
    · rw [if_neg complete]
      refine .inl ⟨⟨storedSendable, ?_, ?_⟩, ?_⟩
      · simp only
        omega
      · simp only
        omega
      · rw [got, got, header, stored, append_assoc]
  | returned result buffer => exact waiting.elim

theorem Waiting.wanted_pos (waiting : reader.Waiting) : 0 < reader.wanted := by
  cases reader with
  | header | body => exact waiting.2.2
  | returned result buffer => exact waiting.elim

theorem store_nil (buffer : List Byte) (offset : Nat) : store buffer offset [] = buffer := by
  rw [store, append_nil, length_nil, Nat.add_zero, take_append_drop]

variable (waiting : reader.Waiting)

include waiting

theorem next_transient {errno : Errno} (transient : errno.transient = true) :
    (reader.next (.error errno)).Waiting ∧ (reader.next (.error errno)).got = reader.got := by
  cases reader with
  | header transfer headBuffer buffer | body transfer buffer =>
    simp only [next, ReadResult.io, ReadResult.bytes, transfer.turn_transient transient, store_nil]
    exact ⟨waiting, rfl⟩
  | returned result buffer => exact waiting.elim

theorem next_error (errno : Errno) :
    ((reader.next (.error errno)).Waiting ∧ (reader.next (.error errno)).got = reader.got) ∨
      ∃ buffer, reader.next (.error errno) = .returned false buffer := by
  cases reader with
  | header transfer headBuffer buffer | body transfer buffer =>
    rcases transfer.turn_error errno with ⟨resumed, again⟩ | ⟨failed, _⟩
    · simp only [next, ReadResult.io, ReadResult.bytes, again, store_nil]
      exact .inl ⟨waiting, rfl⟩
    · simp only [next, ReadResult.io, failed]
      exact .inr ⟨_, rfl⟩
  | returned result buffer => exact waiting.elim

theorem next_end : ∃ buffer, reader.next (.data []) = .returned false buffer := by
  cases reader with
  | header | body => exact ⟨_, rfl⟩
  | returned result buffer => exact waiting.elim

theorem got_ne_packetImage {packet behind : List Byte} (sendable : Sendable packet) :
    reader.got ≠ packetImage packet ++ behind := by
  intro same
  cases reader with
  | header transfer headBuffer buffer =>
    obtain ⟨size, counters, _⟩ := waiting
    have lengths := congrArg List.length same
    rw [got, packetImage, length_append, length_append, length_headBuffer, length_take] at lengths
    omega
  | body transfer buffer =>
    obtain ⟨bodySendable, counters, _⟩ := waiting
    rw [got, packetImage, append_assoc] at same
    obtain ⟨headers, bodies⟩ := append_inj same
      ((length_headBuffer _).trans (length_headBuffer _).symm)
    have lengths := length_eq_of_headBuffer bodySendable sendable headers
    have shorter := congrArg List.length bodies
    rw [length_take, length_append] at shorter
    omega
  | returned result buffer => exact waiting.elim

end ReadPacket

namespace Link

def remaining (link : Link) : List Byte := link.writer.left ++ link.unsent.flatMap packetImage

/-- The stream of the packets is in order: what was received, what the reading end has taken of
the next packet, what is under way, and what is still to be written. -/
structure Sound (packets : List (List Byte)) (link : Link) : Prop where
  writing : link.writer.WellFormed
  finished : ∀ result, link.writer = .returned result → link.unsent = []
  unsentFits : ∀ packet ∈ link.unsent, Sendable packet
  reading : link.reader.Waiting
  receivedFits : ∀ packet ∈ link.received, Sendable packet
  stream : link.received.flatMap packetImage ++
    (link.reader.got ++ (link.pipe ++ link.remaining)) = packets.flatMap packetImage

theorem sound_initial {packets : List (List Byte)} (fit : ∀ packet ∈ packets, Sendable packet)
    (buffers : ReadBuffers) : (initial packets buffers).Sound packets := by
  cases packets with
  | nil =>
    exact ⟨.inl rfl, fun _ _ => rfl, by rintro _ ⟨⟩, waiting_start buffers, by rintro _ ⟨⟩, rfl⟩
  | cons packet packets =>
    rw [forall_mem_cons] at fit
    exact ⟨.inr ⟨packet, fit.1, .start packet⟩, by rintro _ ⟨⟩, fit.2,
      waiting_start buffers, by rintro _ ⟨⟩,
      congrArg (· ++ _) (WritePacket.image_eq fit.1)⟩

variable {packets : List (List Byte)} {link reached : Link}

theorem stream_wrote (link : Link) {writer : WritePacket} (wellFormed : writer.WellFormed)
    (fit : ∀ packet ∈ link.unsent, Sendable packet) :
    (link.wrote writer).remaining = writer.left ++ link.unsent.flatMap packetImage ∧
      (link.wrote writer).pipe = link.pipe := by
  obtain ⟨unsent, oldWriter, pipe, reader, received⟩ := link
  rcases wellFormed with rfl | ⟨packet, _, writes⟩
  · cases unsent with
    | nil => exact ⟨rfl, rfl⟩
    | cons packet packets =>
      exact ⟨congrArg (· ++ _) (WritePacket.image_eq (fit packet mem_cons_self)), rfl⟩
  · cases writer with
    | header | body => exact ⟨rfl, rfl⟩
    | returned result => exact writes.elim

theorem Sound.wrote {pipe : List Byte} {writer : WritePacket} (sound : link.Sound packets)
    (wellFormed : writer.WellFormed)
    (same : pipe ++ (writer.left ++ link.unsent.flatMap packetImage) =
      link.pipe ++ link.remaining) : ({ link with pipe := pipe }.wrote writer).Sound packets := by
  have stream := sound.stream
  rw [← same, ← (stream_wrote { link with pipe := pipe } wellFormed sound.unsentFits).1] at stream
  obtain ⟨unsent, oldWriter, oldPipe, reader, received⟩ := link
  rcases wellFormed with rfl | ⟨packet, sendable, writes⟩
  · cases unsent with
    | nil =>
      exact ⟨.inl rfl, fun _ _ => rfl, sound.unsentFits, sound.reading, sound.receivedFits, stream⟩
    | cons packet packets =>
      have fit := forall_mem_cons.mp sound.unsentFits
      exact ⟨.inr ⟨packet, fit.1, .start packet⟩, by rintro _ ⟨⟩, fit.2, sound.reading,
        sound.receivedFits, stream⟩
  · cases writer with
    | header | body =>
      exact ⟨.inr ⟨packet, sendable, writes⟩, by rintro _ ⟨⟩, sound.unsentFits, sound.reading,
        sound.receivedFits, stream⟩
    | returned result => exact writes.elim

theorem Sound.took {pipe taken : List Byte} {reader : ReadPacket} (sound : link.Sound packets)
    (buffers : ReadBuffers) (split : link.pipe = taken ++ pipe)
    (read : (reader.Waiting ∧ reader.got = link.reader.got ++ taken) ∨
      ∃ packet, reader = .returned true packet ∧ Sendable packet ∧
        packetImage packet = link.reader.got ++ taken) :
    ({ link with pipe := pipe }.took buffers reader).Sound packets := by
  have stream := sound.stream
  rw [split, append_assoc taken] at stream
  rcases read with ⟨waiting, got⟩ | ⟨packet, rfl, sendable, image⟩
  · have going : { link with pipe := pipe }.took buffers reader =
        { link with pipe := pipe, reader := reader } := by
      cases reader with
      | returned result buffer => exact waiting.elim
      | _ => rfl
    rw [going]
    refine ⟨sound.writing, sound.finished, sound.unsentFits, waiting, sound.receivedFits, ?_⟩
    simp only [got, append_assoc]
    exact stream
  · refine ⟨sound.writing, sound.finished, sound.unsentFits, waiting_start buffers, ?_, ?_⟩
    · intro other member
      rcases mem_append.mp member with earlier | new
      · exact sound.receivedFits other earlier
      · rw [mem_singleton.mp new]
        exact sendable
    · simp only [Link.took, flatMap_append, flatMap_singleton, image, append_assoc,
        got_start, nil_append]
      exact stream

/-- The bytes that have still to be moved, once into the pipe and once out of it. -/
def pending (link : Link) : Nat := 2 * link.remaining.length + link.pipe.length

theorem pending_took (buffers : ReadBuffers) (reader : ReadPacket) :
    (link.took buffers reader).pending = link.pending := by
  cases reader with
  | header | body => rfl
  | returned result buffer =>
    cases result with
    | false | true => rfl

variable {buffers : Link → ReadBuffers}

section

variable (sound : link.Sound packets)

include sound

theorem Sound.step {event : LinkEvent} (step : link.Step buffers event reached) :
    reached.Sound packets ∧ reached.pending + (if event.moves then 1 else 0) ≤ link.pending := by
  cases event with
  | write size =>
    simp only [Step, Link.step] at step
    split at step
    next accepted =>
      cases step
      obtain ⟨wellFormed, left⟩ := sound.writing.next_count accepted.1 accepted.2
      have taken : (link.writer.offered.take size).length = size := by
        rw [length_take]
        omega
      have same : link.remaining = link.writer.offered.take size ++
          ((link.writer.next (.count size)).left ++ link.unsent.flatMap packetImage) := by
        rw [remaining, left, append_assoc]
      refine ⟨sound.wrote wellFormed (by rw [same, append_assoc]), ?_⟩
      obtain ⟨rest, pipe⟩ := stream_wrote
        { link with pipe := link.pipe ++ link.writer.offered.take size } wellFormed sound.unsentFits
      rw [pending, pending, rest, pipe, same]
      simp only [length_append, taken, LinkEvent.moves, ↓reduceIte]
      omega
    next => cases step
  | writeError errno =>
    simp only [Step, Link.step] at step
    split at step
    next transient =>
      cases step
      obtain ⟨wellFormed, left⟩ := sound.writing.next_transient transient
      refine ⟨sound.wrote wellFormed (by rw [remaining, left]), ?_⟩
      obtain ⟨rest, pipe⟩ := stream_wrote link wellFormed sound.unsentFits
      rw [pending, rest, pipe, left]
      exact Nat.le_refl _
    next => cases step
  | read size =>
    simp only [Step, Link.step] at step
    split at step
    next delivered =>
      cases step
      obtain ⟨positive, wanted, available⟩ := delivered
      have length : (link.pipe.take size).length = size := by
        rw [length_take]
        omega
      refine ⟨sound.took _ (take_append_drop size link.pipe).symm
        (next_data sound.reading (by omega) (by omega)), ?_⟩
      rw [pending_took]
      simp only [pending, remaining, length_drop, LinkEvent.moves, ↓reduceIte]
      omega
    next => cases step
  | readError errno =>
    simp only [Step, Link.step] at step
    split at step
    next transient =>
      cases step
      obtain ⟨waiting, got⟩ := next_transient sound.reading transient
      refine ⟨sound.took _ (nil_append link.pipe).symm (.inl ⟨waiting, ?_⟩), ?_⟩
      · rw [got, append_nil]
      · rw [pending_took]
        exact Nat.le_refl _
    next => cases step

theorem Sound.run {events : List LinkEvent} (run : Run (Step buffers) link events reached) :
    reached.Sound packets ∧ reached.pending + events.countP LinkEvent.moves ≤ link.pending := by
  induction run with
  | nil state => exact ⟨sound, Nat.le_refl _⟩
  | cons step later ih =>
    obtain ⟨middleSound, fewer⟩ := sound.step step
    obtain ⟨lastSound, moved⟩ := ih middleSound
    refine ⟨lastSound, ?_⟩
    rw [countP_cons]
    omega

theorem Sound.split (fit : ∀ packet ∈ packets, Sendable packet) :
    ∃ later, packets = link.received ++ later ∧
      link.reader.got ++ (link.pipe ++ link.remaining) = later.flatMap packetImage :=
  packetImage_prefixFree.split packetImage_ne_nil sound.receivedFits fit sound.stream

theorem Sound.received_of_stuck (fit : ∀ packet ∈ packets, Sendable packet)
    (stuck : ∀ event : LinkEvent, event.moves = true → link.step buffers event = none) :
    link.received = packets ∧ link.pipe = [] ∧ link.reader.got = [] ∧
      link.writer = .returned true := by
  have written : link.writer = .returned true := by
    refine sound.writing.offers_or_returned.resolve_left fun offers => ?_
    have blocked := stuck (.write 1) rfl
    rw [Link.step, if_pos ⟨Nat.one_pos, offers⟩] at blocked
    cases blocked
  have drained : link.pipe = [] := by
    by_contra nonempty
    have available := length_pos_of_ne_nil nonempty
    have blocked := stuck (.read 1) rfl
    rw [Link.step, if_pos ⟨Nat.one_pos, sound.reading.wanted_pos, available⟩] at blocked
    cases blocked
  obtain ⟨later, whole, rest⟩ := sound.split fit
  rw [drained, remaining, written, sound.finished true written, nil_append] at rest
  have rest : link.reader.got = later.flatMap packetImage := (append_nil _).symm.trans rest
  cases later with
  | nil =>
    rw [append_nil] at whole
    exact ⟨whole.symm, drained, rest, written⟩
  | cons packet later =>
    have sendable := fit packet (by rw [whole]; simp)
    exact absurd rest (got_ne_packetImage sound.reading sendable)

end

theorem pending_initial (fit : ∀ packet ∈ packets, Sendable packet) (buffers : ReadBuffers) :
    (initial packets buffers).pending = 2 * (packets.flatMap packetImage).length := by
  cases packets with
  | nil => rfl
  | cons packet packets =>
    have image := WritePacket.image_eq (fit packet mem_cons_self)
    exact congrArg (fun image => 2 * (image ++ packets.flatMap packetImage).length) image

/-- Packets arrive in order, whatever the socket does. Calls that move bytes come to an end, and
then all packets have arrived and the reading end has taken nothing else. -/
theorem packets_arrive (packets : List (List Byte))
    (fit : ∀ packet ∈ packets, packet.length < 2 ^ 32) (first : ReadBuffers)
    (buffers : Link → ReadBuffers) {events : List LinkEvent} {link : Link}
    (run : Run (Step buffers) (initial packets first) events link) :
    (∃ later, packets = link.received ++ later) ∧ link.writer ≠ .returned false ∧
      (∀ buffer, link.reader ≠ .returned false buffer) ∧
      events.countP LinkEvent.moves ≤ 2 * (packets.flatMap packetImage).length ∧
      ((∀ event : LinkEvent, event.moves = true → link.step buffers event = none) →
        link.received = packets ∧ link.pipe = [] ∧ link.reader.got = [] ∧
          link.writer = .returned true) := by
  obtain ⟨sound, moved⟩ := (sound_initial fit first).run run
  rw [pending_initial fit] at moved
  obtain ⟨later, whole, _⟩ := sound.split fit
  refine ⟨⟨later, whole⟩, ?_, ?_, by omega, sound.received_of_stuck fit⟩
  · intro failed
    have writing := sound.writing
    rw [failed] at writing
    rcases writing with returned | ⟨_, _, writes⟩
    · cases returned
    · exact writes
  · intro buffer failed
    have reading := sound.reading
    rw [failed] at reading
    exact reading

theorem packets_arrive_cut :
    let packets : List (List Byte) := [[104, 105], []]
    let buffers : ReadBuffers := ⟨[0, 0, 0, 0], [], rfl⟩
    let events : List LinkEvent :=
      [.write 3, .read 2, .writeError .eagain, .write 1, .readError .eintr, .read 2, .write 2,
        .write 4, .read 1, .read 1, .read 3, .read 1]
    ∃ link, Run (Step fun _ => buffers) (initial packets buffers) events link ∧
      link.received = packets ∧ events.countP LinkEvent.moves ≤ 20 := by
  intro packets buffers events
  have steps : ∀ (link : Link) event reached, link.step (fun _ => buffers) event = some reached →
        link.Step (fun _ => buffers) event reached := fun _ _ _ step => step
  obtain ⟨link, run, checked⟩ := Run.exists_of_foldlM steps (initial packets buffers) events
    (fun link => decide (link.received = packets)) (by decide +kernel)
  have arrive := packets_arrive packets (by decide) buffers (fun _ => buffers) run
  exact ⟨link, run, of_decide_eq_true checked, arrive.2.2.2.1⟩

end Link

end Bitdb.Net
