import Bitdb.Net.BlockingRpcClient

/-! When the blocking client frames packets like the coroutines. -/

set_option autoImplicit false

namespace Bitdb.Net

open Base (drive drive_settled)
open List BlockingWrite

theorem asyncWrites_iff {chunks : Chunks} (fair : chunks.Fair) (packet written : List Byte) :
    AsyncWrites chunks packet written ↔ written = WritePacket.image packet := by
  obtain ⟨turns, returned⟩ := @drive_writeCall _ _ WritePacket.offered WritePacket.next fair
    (fun writer position => writer.Writes packet ∧ position = writer.position) _
    (WritePacket.image packet)
    (by rintro writer _ ⟨writes, rfl⟩; exact writes.offers)
    (by
      rintro writer _ size ⟨writes, rfl⟩ positive accepted
      exact (writes.next_count positive accepted).imp_left fun next => ⟨next.1, next.2.symm⟩)
    (by
      rintro writer _ errno ⟨writes, rfl⟩ transient
      exact (writes.next_transient transient).imp_right Eq.symm)
    (fun _ => rfl) rfl (.start packet, []) 0 0 _ rfl (.inl ⟨.start packet, rfl⟩)
  have stays (result : Bool) (bytes : List Byte) (chunk : Chunk) :
      writeCall WritePacket.offered WritePacket.next chunk (.returned result, bytes) =
        (.returned result, bytes) := by
    cases chunk with
    | atMost size => simp [writeCall, WritePacket.offered, WritePacket.next]
    | interrupted errno => rfl
  constructor
  · rintro ⟨other, result, reached⟩
    exact congrArg Prod.snd (drive_settled (stays _ _) (stays _ _) reached returned)
  · rintro rfl
    exact ⟨turns, _, returned⟩

section BlockingWrite

variable {header packet : List Byte}

/-- After a part of the header. -/
def BlockingWriting (header packet : List Byte) : BlockingWrite → Nat → Prop
  | .body totalWriteSize alreadyWriteSize buffer, position =>
    buffer = packet ∧ alreadyWriteSize + totalWriteSize = packet.length ∧ 0 < totalWriteSize ∧
      position = header.length + alreadyWriteSize
  | _, _ => False

section

variable {writer : BlockingWrite} {position : Nat}
  (writing : BlockingWriting header packet writer position)

include writing

theorem BlockingWriting.offers : 0 < writer.offered.length ∧
    position + writer.offered.length ≤ (header ++ packet).length ∧
    writer.offered = ((header ++ packet).drop position).take writer.offered.length := by
  cases writer with
  | body totalWriteSize alreadyWriteSize buffer =>
    obtain ⟨rfl, counters, positive, rfl⟩ := writing
    have length : (buffer.drop alreadyWriteSize).length = totalWriteSize := by
      rw [length_drop]
      omega
    rw [offered, take_of_length_le (Nat.le_of_eq length),
      drop_length_add_append, take_length, length, length_append]
    exact ⟨positive, by omega, rfl⟩
  | header | returned => exact writing.elim

theorem BlockingWriting.next_count {size : Nat} (positive : 0 < size)
    (accepted : size ≤ writer.offered.length) :
    BlockingWriting header packet (writer.next (.count size)) (position + size) ∨
      writer.next (.count size) = .returned (UInt64.ofNat packet.length) ∧
        position + size = (header ++ packet).length := by
  cases writer with
  | body totalWriteSize alreadyWriteSize buffer =>
    obtain ⟨rfl, counters, more, rfl⟩ := writing
    have fewer : size ≤ totalWriteSize := accepted.trans (length_take_le _ _)
    rw [BlockingWrite.next, if_neg (by omega), length_append]
    by_cases complete : totalWriteSize - size = 0
    · have whole : alreadyWriteSize + size = buffer.length := by omega
      rw [if_pos complete, whole]
      exact .inr ⟨rfl, by omega⟩
    · rw [if_neg complete]
      exact .inl ⟨rfl, by omega, Nat.pos_of_ne_zero complete, by omega⟩
  | header | returned => exact writing.elim

theorem BlockingWriting.next_transient {errno : Errno} (transient : errno.transient = true) :
    BlockingWriting header packet (writer.next (.error errno)) position := by
  cases writer with
  | body totalWriteSize alreadyWriteSize buffer =>
    rw [BlockingWrite.next, if_pos transient]
    exact writing
  | header | returned => exact writing.elim

end

theorem blocking_startBody_writing (header packet : List Byte) :
    BlockingWriting header packet (startBody packet) header.length ∨
      startBody packet = .returned (UInt64.ofNat packet.length) ∧
        header.length = (header ++ packet).length := by
  rw [startBody, length_append]
  by_cases empty : packet.length = 0
  · rw [if_pos empty, empty]
    exact .inr ⟨rfl, rfl⟩
  · rw [if_neg empty]
    exact .inl ⟨rfl, Nat.zero_add _, Nat.pos_of_ne_zero empty, rfl⟩

def blockingImage (packet : List Byte) : Chunk → List Byte
  | .atMost size => (BlockingWrite.headBuffer packet).take size ++ packet
  | .interrupted _ => []

theorem blockingWrites_iff {chunks : Chunks} (fair : chunks.Fair) (packet written : List Byte) :
    BlockingWrites chunks packet written ↔ written = blockingImage packet (chunks 0) := by
  have some : ∃ turns result, drive (writeCall offered BlockingWrite.next) chunks
      (.start packet, []) turns = (.returned result, blockingImage packet (chunks 0)) := by
    have passing := fair.passing 0
    cases first : chunks 0 with
    | atMost size =>
      rw [first] at passing
      have count : min size (headBuffer packet).length ≠ 0 := by
        have positive : 0 < size := passing
        have length : (headBuffer packet).length = 4 := length_littleEndian _ _
        omega
      have called : drive (writeCall offered BlockingWrite.next) chunks
          (.start packet, []) 1 =
          (startBody packet, (blockingImage packet (.atMost size)).take
            ((headBuffer packet).take size).length) := by
        rw [drive, first, blockingImage, take_left]
        simp [drive, writeCall, start, offered, BlockingWrite.next, count]
      obtain ⟨turns, returned⟩ := drive_writeCall fair (BlockingWriting _ packet)
        (fun _ _ writing => writing.offers)
        (fun _ _ _ writing positive accepted => writing.next_count positive accepted)
        (fun _ _ _ writing transient => writing.next_transient transient)
        (fun result => by cases result <;> rfl) rfl called
        (blocking_startBody_writing _ packet)
      exact ⟨turns, _, returned⟩
    | interrupted errno =>
      refine ⟨1, -1, ?_⟩
      rw [drive, first]
      rfl
  obtain ⟨turns, result, returned⟩ := some
  have stays (result : UInt64) (bytes : List Byte) (chunk : Chunk) :
      writeCall offered BlockingWrite.next chunk (.returned result, bytes) =
        (.returned result, bytes) := by
    cases chunk with
    | atMost size => simp [writeCall, offered, BlockingWrite.next]
    | interrupted errno => rfl
  constructor
  · rintro ⟨other, result, reached⟩
    exact congrArg Prod.snd (drive_settled (stays _ _) (stays _ _) reached returned)
  · rintro rfl
    exact ⟨turns, result, returned⟩

end BlockingWrite

theorem blockingImage_eq_iff (packet : List Byte) (chunk : Chunk) :
    blockingImage packet chunk = WritePacket.image packet ↔
      (∃ size, chunk = .atMost size ∧ headerSize ≤ size) ∧ Sendable packet := by
  have header : (headBuffer packet).length = headerSize := length_littleEndian _ _
  have four : headerSize = 4 := rfl
  constructor
  · intro same
    have lengths := congrArg List.length same
    rw [WritePacket.length_image] at lengths
    cases chunk with
    | atMost size =>
      rw [blockingImage, length_append, length_take] at lengths
      have whole : WritePacket.totalWriteSize packet = packet.length := by
        by_contra cut
        have large : 2 ^ 32 ≤ packet.length := by
          by_contra small
          exact cut (totalWriteSize_eq (Nat.lt_of_not_le small))
        have below : WritePacket.totalWriteSize packet < 2 ^ 32 := UInt32.toNat_lt _
        have exact : WritePacket.totalWriteSize packet = packet.length % 2 ^ 32 := by
          rw [WritePacket.totalWriteSize, UInt32.toNat_ofNat']
        omega
      refine ⟨⟨size, rfl, by omega⟩, ?_⟩
      rw [Sendable, ← whole]
      exact UInt32.toNat_lt _
    | interrupted errno =>
      rw [blockingImage, length_nil] at lengths
      omega
  · rintro ⟨⟨size, rfl, large⟩, sendable⟩
    rw [blockingImage, WritePacket.image_eq sendable, packetImage, WritePacket.headBuffer,
      totalWriteSize_eq sendable, take_of_length_le (by omega)]
    rfl

/-- For reads and writes cut in any way, the blocking client agrees with the coroutines exactly
if its first calls move a whole header and an `int` holds the size of what it reads. It does not
return from a stream that ends inside a header. -/
theorem blocking_framing_iff {reads writes blockingReads blockingWrites : Chunks}
    (fairReads : reads.Fair) (fairWrites : writes.Fair) (fairBlockingReads : blockingReads.Fair)
    (fairBlockingWrites : blockingWrites.Fair) :
    (∀ packet, Sendable packet →
      ((∀ (asyncBuffers buffers : ReadBuffers) (packets : List (List Byte)),
        (∀ other ∈ packets, Sendable other) →
        ∃ delivered rest,
          AsyncReads reads asyncBuffers ((packet :: packets).flatMap packetImage) delivered rest ∧
          BlockingReads blockingReads buffers ((packet :: packets).flatMap packetImage) delivered
            rest) ↔
        blockingReads.HeaderFirst ∧ packet.length < 2 ^ 31)) ∧
    (∀ packet, (∃ bytes, AsyncWrites writes packet bytes ∧
        BlockingWrites blockingWrites packet bytes) ↔
      (∃ size, blockingWrites 0 = .atMost size ∧ headerSize ≤ size) ∧ Sendable packet) ∧
    (∀ (buffers : ReadBuffers) (stream : List Byte), stream.length < headerSize →
      ¬ BlockingReadReturns blockingReads buffers stream) := by
  refine ⟨fun packet sendable => ?_, fun packet => ?_, fun buffers stream short =>
    not_blockingReadReturns fairBlockingReads buffers short⟩
  · rw [← blockingReads_iff fairBlockingReads packet]
    constructor
    · intro agree buffers packets fit
      obtain ⟨delivered, rest, async, blocking⟩ := agree buffers buffers packets fit
      obtain ⟨rfl, rfl⟩ := (asyncReads_iff fairReads sendable buffers _ _ _).mp async
      exact blocking
    · intro blocking asyncBuffers buffers packets fit
      exact ⟨_, _, (asyncReads_iff fairReads sendable asyncBuffers _ _ _).mpr ⟨rfl, rfl⟩,
        blocking buffers packets fit⟩
  · simp only [asyncWrites_iff fairWrites, blockingWrites_iff fairBlockingWrites, exists_eq_left]
    rw [eq_comm]
    exact blockingImage_eq_iff packet _

theorem fair_atMost {sizes : Nat → Nat} (positive : ∀ turn, 0 < sizes turn) :
    Chunks.Fair fun turn => .atMost (sizes turn) where
  transient := by rintro _ _ ⟨⟩
  positive := by
    rintro turn size ⟨⟩
    exact positive turn
  again turn := ⟨turn, Nat.le_refl turn, _, rfl⟩

theorem blocking_framing_whole_headers :
    AsyncReads (fun _ => .atMost 3) ⟨[0, 0, 0, 0], [], rfl⟩ ([[7], []].flatMap packetImage) [7]
      [0, 0, 0, 0] ∧
    ∃ delivered rest,
      AsyncReads (fun _ => .atMost 3) ⟨[0, 0, 0, 0], [], rfl⟩ ([[7], []].flatMap packetImage)
        delivered rest ∧
      BlockingReads (fun _ => .atMost 4) ⟨[0, 0, 0, 0], [], rfl⟩ ([[7], []].flatMap packetImage)
        delivered rest := by
  have three := fair_atMost fun _ : Nat => Nat.zero_lt_succ 2
  have four := fair_atMost fun _ : Nat => Nat.zero_lt_succ 3
  refine ⟨⟨3, by decide⟩, ((blocking_framing_iff three three four four).1 [7] (by decide)).mpr
    ⟨⟨0, 4, rfl, by decide, by rintro _ ⟨⟩⟩, by decide⟩ _ _ [[]] (by decide)⟩

/-- A header in two pieces is stored over itself, and one in two pieces is written in half. -/
theorem blocking_framing_cut_header :
    let chunks : Chunks := fun turn => .atMost (if turn < 2 then 2 else 4)
    let buffers : ReadBuffers := ⟨[0, 0, 0, 0], [], rfl⟩
    AsyncReads chunks buffers ([[7], []].flatMap packetImage) [7] [0, 0, 0, 0] ∧
    BlockingReads chunks buffers ([[7], []].flatMap packetImage) [] [7, 0, 0, 0, 0] ∧
    AsyncWrites chunks [7] [1, 0, 0, 0, 7] ∧ BlockingWrites chunks [7] [1, 0, 7] ∧
    ¬ BlockingReadReturns chunks buffers [1, 0] := by
  refine ⟨⟨3, by decide⟩, ⟨2, by decide⟩, ⟨3, true, by decide⟩, ⟨2, 1, by decide⟩, ?_⟩
  refine not_blockingReadReturns (fair_atMost fun turn => ?_) _ (by decide)
  split
  · exact Nat.zero_lt_succ 1
  · exact Nat.zero_lt_succ 3

end Bitdb.Net
