import Bitdb.Data.DataFile

/-! Reading a file with any bytes. The sizes in a header are believed. -/

set_option autoImplicit false

namespace Bitdb

open List

def headerBuf (content : List Byte) (offset : Nat) : List Byte :=
  (content.drop offset).take maxLogRecordHeaderSize

section Read

variable {crc : Crc32c} {content : List Byte} {offset : Nat}

theorem readNBytes_headerBuf (inside : offset < content.length) :
    readNBytes content (if content.length < offset + maxLogRecordHeaderSize
      then content.length - offset else maxLogRecordHeaderSize) offset =
        headerBuf content offset := by
  rw [readNBytes, headerBuf]
  split
  · rw [take_of_length_le, take_of_length_le]
    · rw [length_drop]
      omega
    · rw [length_drop, maxTransfer]
      rw [maxLogRecordHeaderSize] at *
      omega
  · rfl

theorem headerBuf_ne_nil (inside : offset < content.length) : headerBuf content offset ≠ [] := by
  rw [headerBuf, Ne, take_eq_nil_iff, drop_eq_nil_iff, maxLogRecordHeaderSize]
  omega

/-- Everything that `ReadLogRecord` may come to inside a file, in the order of its tests. -/
inductive ReadsAs (crc : Crc32c) (content : List Byte) (offset : Nat) :
    Except Stop (LogRecord × Nat) → Prop where
  | short (few : (headerBuf content offset).length < crcSize) (status : Status) :
      ReadsAs crc content offset (.error (.failed status))
  | badHeader (enough : crcSize ≤ (headerBuf content offset).length) (fault : Fault)
      (decoded : decodeLogRecordHeader (.ofString (headerBuf content offset)) =
        .error (.faulted fault)) :
      ReadsAs crc content offset (.error (.faulted fault))
  | padding (header : LogRecordHeader) (headerSize : Nat)
      (begins : header.Begins headerSize (headerBuf content offset ++ [0]))
      (sizes : header.keySize = 0 ∧ header.valueSize = 0) (status : Status) :
      ReadsAs crc content offset (.error (.failed status))
  | badKeyValue (header : LogRecordHeader) (headerSize : Nat)
      (begins : header.Begins headerSize (headerBuf content offset ++ [0])) (stop : Stop)
      (read : readKeyValue content header (offset + headerSize) = .error stop) :
      ReadsAs crc content offset (.error stop)
  | tornHeader (header : LogRecordHeader) (headerSize : Nat)
      (begins : header.Begins headerSize (headerBuf content offset ++ [0])) (record : LogRecord)
      (read : readKeyValue content header (offset + headerSize) = .ok record)
      (torn : (headerBuf content offset).length < headerSize) :
      ReadsAs crc content offset (.error (.faulted .outOfBounds))
  | corrupt (header : LogRecordHeader) (headerSize : Nat)
      (begins : header.Begins headerSize (headerBuf content offset)) (record : LogRecord)
      (read : readKeyValue content header (offset + headerSize) = .ok record) (status : Status) :
      ReadsAs crc content offset (.error (.failed status))
  | found (header : LogRecordHeader) (headerSize : Nat)
      (begins : header.Begins headerSize (headerBuf content offset)) (record : LogRecord)
      (read : readKeyValue content header (offset + headerSize) = .ok record)
      (checked : getLogRecordCRC crc record ((headerBuf content offset).take headerSize) =
        header.crc) :
      ReadsAs crc content offset (.ok (record,
        (UInt32.ofNat headerSize + header.keySize + header.valueSize).toNat))

theorem readsAs_readLogRecord (crc : Crc32c) (inside : offset < content.length) :
    ReadsAs crc content offset (readLogRecord crc content offset) := by
  have notEmpty : ¬ content.length = 0 := by omega
  have notEnd : ¬ content.length = offset := by omega
  have notPast : ¬ content.length < offset := by omega
  have someBytes : (headerBuf content offset).isEmpty = false := by
    rw [isEmpty_eq_false_iff]
    exact headerBuf_ne_nil inside
  simp only [readLogRecord, notEmpty, notEnd, notPast, ↓reduceIte, readNBytes_headerBuf inside,
    someBytes, Bool.false_eq_true]
  by_cases few : (headerBuf content offset).length < crcSize
  · have decoded : decodeLogRecordHeader (.ofString (headerBuf content offset)) =
        .ok (⟨0, .unset, 0, 0⟩, 0) := if_pos few
    rw [decoded]
    exact .short few _
  · have enough := Nat.not_lt.mp few
    cases decoded : decodeLogRecordHeader (.ofString (headerBuf content offset)) with
    | error stop =>
      obtain ⟨fault, rfl⟩ := decodeLogRecordHeader_error decoded
      exact .badHeader enough fault decoded
    | ok pair =>
      obtain ⟨header, headerSize⟩ := pair
      have begins := ((decodeLogRecordHeader_ok_iff _ enough).mp decoded).2
      have positive := begins.size_le.1
      simp only [bind, Except.bind]
      rw [if_neg (by omega)]
      split
      · rename_i blank
        exact .padding header headerSize begins blank.2 _
      · cases read : readKeyValue content header (offset + headerSize) with
        | error stop => exact .badKeyValue header headerSize begins stop read
        | ok record =>
          simp only
          split
          · rename_i torn
            exact .tornHeader header headerSize begins record read torn
          · rename_i whole
            have strict := begins.of_append (Nat.not_lt.mp whole)
            split
            · rename_i checked
              exact .found header headerSize strict record read checked
            · exact .corrupt header headerSize strict record read _

def LogRecordHeader.kvSize (header : LogRecordHeader) : Nat :=
  (header.keySize + header.valueSize).toNat

theorem LogRecordHeader.kvSize_le (header : LogRecordHeader) :
    header.kvSize ≤ header.keySize.toNat + header.valueSize.toNat := by
  rw [kvSize, UInt32.toNat_add]
  exact Nat.mod_le _ _

theorem LogRecordHeader.length_readNBytes_le (header : LogRecordHeader) (content : List Byte)
    (start : Nat) : (readNBytes content header.kvSize start).length ≤
      header.keySize.toNat + header.valueSize.toNat := by
  have sum := header.kvSize_le
  rw [readNBytes, length_take]
  omega

variable {header : LogRecordHeader}

theorem LogRecordHeader.size_pos (present : ¬ (header.keySize = 0 ∧ header.valueSize = 0)) :
    0 < header.keySize.toNat ∨ 0 < header.valueSize.toNat := by
  by_contra absent
  refine present ⟨UInt32.toNat_inj.mp ?_, UInt32.toNat_inj.mp ?_⟩
  · rw [UInt32.toNat_zero]
    omega
  · rw [UInt32.toNat_zero]
    omega

/-- Key and value can be read without leaving the bytes that are there: there are none to
read, or the sum of their sizes passes the assertion and the read returns nothing or all of
them. -/
def LogRecordHeader.Readable (header : LogRecordHeader) (content : List Byte) (start : Nat) :
    Prop :=
  (header.keySize = 0 ∧ header.valueSize = 0) ∨ (header.kvSize < content.length ∧
      ((readNBytes content header.kvSize start).length = 0 ∨
        (readNBytes content header.kvSize start).length =
          header.keySize.toNat + header.valueSize.toNat))

theorem readKeyValue_cases (header : LogRecordHeader) (content : List Byte) (start : Nat) :
    ((header.keySize = 0 ∧ header.valueSize = 0) ∧
        readKeyValue content header start = .ok ⟨[], [], header.recordType⟩) ∨
      (¬ header.Readable content start ∧
        ∃ fault, readKeyValue content header start = .error (.faulted fault)) ∨
      (header.Readable content start ∧
        ∃ status, readKeyValue content header start = .error (.failed status)) ∨
      ((readNBytes content header.kvSize start).length =
          header.keySize.toNat + header.valueSize.toNat ∧ header.Readable content start ∧
        readKeyValue content header start =
          .ok ⟨(readNBytes content header.kvSize start).take header.keySize.toNat,
            ((readNBytes content header.kvSize start).drop header.keySize.toNat).take
              header.valueSize.toNat, header.recordType⟩) := by
  by_cases none_ : header.keySize = 0 ∧ header.valueSize = 0
  · refine .inl ⟨none_, ?_⟩
    rw [readKeyValue, if_neg (by simp [none_.1, none_.2])]
  · have most := header.length_readNBytes_le content start
    have tested : readKeyValue content header start =
        if header.kvSize < content.length then
          if (readNBytes content header.kvSize start).isEmpty then
            .error (.failed (.ioError "Data::ReadLogRecord" "kv pair size equals zero"))
          else if (readNBytes content header.kvSize start).length <
              header.keySize.toNat + header.valueSize.toNat then .error (.faulted .outOfBounds)
          else .ok ⟨(readNBytes content header.kvSize start).take header.keySize.toNat,
            ((readNBytes content header.kvSize start).drop header.keySize.toNat).take
              header.valueSize.toNat, header.recordType⟩
        else .error (.faulted .assertion) := if_pos (LogRecordHeader.size_pos none_)
    rw [tested]
    by_cases small : header.kvSize < content.length
    · rw [if_pos small]
      by_cases nothing : readNBytes content header.kvSize start = []
      · refine .inr (.inr (.inl ⟨.inr ⟨small, .inl ?_⟩, _, if_pos ?_⟩))
        · rw [nothing]
          rfl
        · rw [nothing]
          rfl
      · rw [if_neg (by simpa using nothing)]
        have bytes := length_pos_iff.mpr nothing
        split
        · rename_i few
          refine .inr (.inl ⟨?_, _, rfl⟩)
          rintro (absent | ⟨_, none_ | all⟩)
          · exact none_ absent
          · omega
          · omega
        · rename_i enough
          have all : (readNBytes content header.kvSize start).length =
            header.keySize.toNat + header.valueSize.toNat := by omega
          exact .inr (.inr (.inr ⟨all, .inr ⟨small, .inr all⟩, rfl⟩))
    · rw [if_neg small]
      refine .inr (.inl ⟨?_, _, rfl⟩)
      rintro (absent | ⟨fits, _⟩)
      · exact none_ absent
      · exact small fits

variable {record : LogRecord}

theorem readKeyValue_ok {start : Nat} (read : readKeyValue content header start = .ok record) :
    record.key = (content.drop start).take header.keySize.toNat ∧
      record.value = (content.drop (start + header.keySize.toNat)).take header.valueSize.toNat ∧
      (start ≤ content.length →
        start + header.keySize.toNat + header.valueSize.toNat ≤ content.length) ∧
      header.keySize.toNat + header.valueSize.toNat ≤ maxTransfer := by
  rcases readKeyValue_cases header content start with
    ⟨⟨noKey, noValue⟩, ran⟩ | ⟨_, _, ran⟩ | ⟨_, _, ran⟩ | ⟨all, _, ran⟩
  · rw [ran] at read
    cases read
    rw [noKey, noValue]
    simp
  · rw [ran] at read
    cases read
  · rw [ran] at read
    cases read
  · rw [ran] at read
    cases read
    have sum := header.kvSize_le
    have length := all
    rw [readNBytes, length_take, length_drop] at length
    have exact_ : min header.kvSize maxTransfer =
      header.keySize.toNat + header.valueSize.toNat := by omega
    have buffer : readNBytes content header.kvSize start =
        (content.drop start).take (header.keySize.toNat + header.valueSize.toNat) := by
      rw [readNBytes, exact_]
    refine ⟨?_, ?_, fun _ => by omega, by omega⟩
    · dsimp only
      rw [buffer, take_take, Nat.min_eq_left (Nat.le_add_right _ _)]
    · dsimp only
      rw [buffer, drop_take, take_take, drop_drop, Nat.add_sub_cancel_left, Nat.min_self]

theorem readKeyValue_defined_iff (header : LogRecordHeader) (content : List Byte) (start : Nat) :
    (∀ stop, readKeyValue content header start = .error stop → ∃ status, stop = .failed status) ↔
      header.Readable content start := by
  rcases readKeyValue_cases header content start with
    ⟨none_, ran⟩ | ⟨unreadable, fault, ran⟩ | ⟨readable, status, ran⟩ | ⟨_, readable, ran⟩
  · refine ⟨fun _ => .inl none_, fun _ stop failed => ?_⟩
    rw [ran] at failed
    cases failed
  · refine ⟨fun defined => ?_, fun readable => absurd readable unreadable⟩
    obtain ⟨status, impossible⟩ := defined _ ran
    cases impossible
  · refine ⟨fun _ => readable, fun _ stop failed => ?_⟩
    rw [ran] at failed
    exact ⟨status, (Except.error.inj failed).symm⟩
  · refine ⟨fun _ => readable, fun _ stop failed => ?_⟩
    rw [ran] at failed
    cases failed

theorem LogRecordHeader.Readable.of_ok {start : Nat}
    (read : readKeyValue content header start = .ok record) : header.Readable content start := by
  refine (readKeyValue_defined_iff header content start).mp fun stop failed => ?_
  rw [read] at failed
  cases failed

theorem LogRecordHeader.Readable.of_error {start : Nat} {stop : Stop}
    (read : readKeyValue content header start = .error stop)
    (defined : ∀ fault, stop ≠ .faulted fault) : header.Readable content start := by
  rcases readKeyValue_cases header content start with
    ⟨none_, _⟩ | ⟨_, fault, ran⟩ | ⟨readable, _⟩ | ⟨_, readable, _⟩
  · exact .inl none_
  · rw [ran] at read
    cases read
    exact absurd rfl (defined fault)
  · exact readable
  · exact readable

theorem headerBuf_length (content : List Byte) (offset : Nat) :
    (headerBuf content offset).length = min maxLogRecordHeaderSize (content.length - offset) := by
  rw [headerBuf, length_take, length_drop]

theorem readLogRecord_ok {size : Nat} (inside : offset < content.length)
    (read : readLogRecord crc content offset = .ok (record, size)) :
    ∃ (header : LogRecordHeader) (headerSize : Nat),
      header.Begins headerSize (headerBuf content offset) ∧
      size = headerSize + header.keySize.toNat + header.valueSize.toNat ∧
      record.value.length = header.valueSize.toNat ∧ offset + size ≤ content.length ∧
      crc.value (((content.drop offset).take size).drop crcSize) = header.crc := by
  have reads := readsAs_readLogRecord crc inside
  rw [read] at reads
  cases reads with
  | found header headerSize begins record readKv checked =>
    obtain ⟨key, value, whole, small⟩ := readKeyValue_ok readKv
    obtain ⟨large, fits⟩ := begins.size_le
    have buffer := headerBuf_length content offset
    have limit : (headerBuf content offset).length ≤ maxLogRecordHeaderSize := by omega
    have size : (UInt32.ofNat headerSize + header.keySize + header.valueSize).toNat =
        headerSize + header.keySize.toNat + header.valueSize.toNat := by
      rw [UInt32.toNat_add, UInt32.toNat_add, UInt32.toNat_ofNat']
      rw [maxTransfer] at small
      rw [maxLogRecordHeaderSize] at limit
      omega
    have ends := whole (by omega)
    have valueLength : record.value.length = header.valueSize.toNat := by
      rw [value, length_take, length_drop]
      omega
    refine ⟨header, headerSize, begins, size, valueLength, by omega, ?_⟩
    rw [size, ← checked, getLogRecordCRC, if_neg ?_, crc.extend_value, crc.extend_value]
    · congr 1
      have head : (headerBuf content offset).take headerSize =
          (content.drop offset).take headerSize := by
        rw [headerBuf, take_take, Nat.min_eq_left (by omega)]
      rw [head, key, value, Nat.add_assoc, take_add, take_add, drop_drop,
        drop_drop, drop_append_of_le_length, ← append_assoc]
      rw [length_take, length_drop, crcSize]
      omega
    · rw [List.isEmpty_iff, take_eq_nil_iff]
      rintro (nothing | nothing)
      · omega
      · rw [nothing] at fits
        rw [length_nil] at fits
        omega

theorem readLogRecord_torn {found : LogRecord} {count size : Nat} (keyed : record.key ≠ [])
    (short : record.key.length < 2 ^ 32) (front : List Byte) (some_ : 0 < count)
    (fewer : count < (encodeLogRecord crc record).length)
    (read : readLogRecord crc (front ++ (encodeLogRecord crc record).take count) front.length =
      .ok (found, size)) : found.value.length < record.value.length := by
  have total : (front ++ (encodeLogRecord crc record).take count).length =
      front.length + count := by
    rw [length_append, length_take, Nat.min_eq_left (Nat.le_of_lt fewer)]
  obtain ⟨header, headerSize, begins, recordSize, valueSize, ends, _⟩ :=
    readLogRecord_ok (by omega) read
  -- The header that was found is the one of the whole record.
  have whole : header.Begins headerSize (encodeLogRecord crc record) := by
    have more := begins.append (((encodeLogRecord crc record).take count).drop
      maxLogRecordHeaderSize ++ (encodeLogRecord crc record).drop count)
    rwa [headerBuf, drop_left, ← append_assoc, take_append_drop, take_append_drop] at more
  have head := LogRecordHeader.begins_head crc record (record.key ++ record.value)
  rw [← append_assoc, ← encodeLogRecord_eq keyed] at head
  obtain ⟨rfl, rfl⟩ := whole.unique head
  have keySize : (UInt32.ofNat record.key.length).toNat = record.key.length := by
    rw [UInt32.toNat_ofNat']
    exact Nat.mod_eq_of_lt short
  rw [encodeLogRecord_length keyed] at fewer
  simp only [LogRecordHeader.ofRecord, keySize] at valueSize recordSize
  omega

/-- Reading at an offset ends with a status or a record, uses only bytes that were read, and
finds only whole records with their checksum. -/
structure ReadSafe (crc : Crc32c) (content : List Byte) (offset : Nat) : Prop where
  ends : readLogRecord crc content offset ≠ .error .looping
  defined : ∀ fault, readLogRecord crc content offset ≠ .error (.faulted fault)
  header : ∀ fault, decodeLogRecordHeader
    ⟨headerBuf content offset, (headerBuf content offset).length⟩ ≠ .error (.faulted fault)
  whole : ∀ record size, readLogRecord crc content offset = .ok (record, size) → size ≠ 0 →
    offset + size ≤ content.length ∧ decodeFixed32 (content.drop offset) =
        some (crc.value (((content.drop offset).take size).drop crcSize))

/-- There are too few bytes for a checksum, or a whole header whose key and value can be
read. -/
def Intact (content : List Byte) (offset : Nat) : Prop :=
  (headerBuf content offset).length < crcSize ∨ ∃ (header : LogRecordHeader) (headerSize : Nat),
      header.Begins headerSize (headerBuf content offset) ∧
      header.Readable content (offset + headerSize)

theorem decodeFixed32_drop {value : UInt32}
    (decoded : decodeFixed32 (headerBuf content offset) = some value) :
    decodeFixed32 (content.drop offset) = some value := by
  have split := decodeFixed32_append decoded ((content.drop offset).drop maxLogRecordHeaderSize)
  rwa [headerBuf, take_append_drop] at split

theorem Intact.failed (intact : Intact content offset) (inside : offset < content.length)
    {stop : Stop} (stopped : readLogRecord crc content offset = .error stop) :
    ∃ status, stop = .failed status := by
  have reads := readsAs_readLogRecord crc inside
  rw [stopped] at reads
  -- A header that is found behind the end of the buffer too is the one inside of it.
  have strict {header : LogRecordHeader} {headerSize : Nat}
      (begins : header.Begins headerSize (headerBuf content offset ++ [0])) :
      headerSize ≤ (headerBuf content offset).length ∧
        header.Readable content (offset + headerSize) := by
    rcases intact with few | ⟨other, otherSize, beginsOther, readable⟩
    · have large := begins.size_le
      rw [length_append, length_singleton] at large
      rw [crcSize] at few
      omega
    · obtain ⟨rfl, rfl⟩ := begins.unique (beginsOther.append [0])
      exact ⟨beginsOther.size_le.2, readable⟩
  cases reads with
  | short few status => exact ⟨status, rfl⟩
  | badHeader enough fault decoded =>
    rcases intact with few | ⟨header, headerSize, begins, _⟩
    · exact absurd few (Nat.not_lt.mpr enough)
    · have more := begins.crcSize_lt
      have succeeds := (decodeLogRecordHeader_ok_iff (.ofString (headerBuf content offset))
        enough).mpr ⟨more, begins.append [0]⟩
      rw [succeeds] at decoded
      cases decoded
  | padding header headerSize begins sizes status => exact ⟨status, rfl⟩
  | badKeyValue header headerSize begins stop read =>
    exact (readKeyValue_defined_iff header content _).mpr (strict begins).2 stop read
  | tornHeader header headerSize begins record read torn =>
    exact absurd (strict begins).1 (Nat.not_le.mpr torn)
  | corrupt header headerSize begins record read status => exact ⟨status, rfl⟩

theorem ReadSafe.intact (inside : offset < content.length) (safe : ReadSafe crc content offset) :
    Intact content offset := by
  by_cases few : (headerBuf content offset).length < crcSize
  · exact .inl few
  · have enough := Nat.not_lt.mp few
    cases decoded : decodeLogRecordHeader
        ⟨headerBuf content offset, (headerBuf content offset).length⟩ with
    | error stop =>
      obtain ⟨fault, rfl⟩ := decodeLogRecordHeader_error decoded
      exact absurd decoded (safe.header fault)
    | ok pair =>
      obtain ⟨header, headerSize⟩ := pair
      have begins := ((decodeLogRecordHeader_ok_iff _ enough).mp decoded).2
      refine .inr ⟨header, headerSize, begins, ?_⟩
      have reads := readsAs_readLogRecord crc inside
      have defined := safe.defined
      generalize readLogRecord crc content offset = outcome at reads defined
      have same {other : LogRecordHeader} {otherSize : Nat}
          (also : other.Begins otherSize (headerBuf content offset ++ [0]))
          (readable : other.Readable content (offset + otherSize)) :
          header.Readable content (offset + headerSize) := by
        obtain ⟨rfl, rfl⟩ := also.unique (begins.append [0])
        exact readable
      cases reads with
      | short few status => exact absurd few (Nat.not_lt.mpr enough)
      | badHeader _ fault _ => exact absurd rfl (defined fault)
      | padding other otherSize also sizes status => exact same also (.inl sizes)
      | badKeyValue other otherSize also stop read =>
        exact same also (.of_error read fun fault impossible =>
          defined fault (congrArg Except.error impossible))
      | tornHeader other otherSize also record read torn => exact absurd rfl (defined _)
      | corrupt other otherSize also record read status =>
        exact same (also.append [0]) (.of_ok read)
      | found other otherSize also record read checked =>
        exact same (also.append [0]) (.of_ok read)

end Read

end Bitdb
