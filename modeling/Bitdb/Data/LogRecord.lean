import Bitdb.Status
import Bitdb.Utils.Bytes
import Bitdb.Utils.Crc32c
import Mathlib.Data.UInt

/-! Log records, their positions and their byte format (`bitdb/data/log_record.h`
and `log_record.cpp`):

    crc (4) | type (1) | key size (varint) | value size (varint) | key | value

The header of an encoded record can be read back from any buffer that begins with it. A key
survives the transaction id in front of it as long as the id fits the buffer it is written through.
-/

set_option autoImplicit false

namespace Bitdb

structure LogRecordPst where
  fid : Nat
  offset : Nat
  deriving DecidableEq, Repr

/-- The one-byte tag of a record. The enumeration has a fixed underlying type, so it
can hold every byte: `unset` is the zero left by an initialiser that omits the type,
and `other` are the bytes from four on, which no writer produces. -/
inductive LogRecordType where
  | unset
  | normal
  | deleted
  | txnFinished
  | other (code : Fin 252)
  deriving DecidableEq, Repr

namespace LogRecordType

def toByte : LogRecordType → Byte
  | .unset => 0
  | .normal => 1
  | .deleted => 2
  | .txnFinished => 3
  | .other code => UInt8.ofNat (code.val + 4)

def ofByte (byte : Byte) : LogRecordType :=
  match byte.toNat with
  | 0 => .unset
  | 1 => .normal
  | 2 => .deleted
  | 3 => .txnFinished
  | code + 4 => .other (Fin.ofNat 252 code)

end LogRecordType

structure LogRecord where
  key : List Byte
  value : List Byte
  type : LogRecordType
  deriving DecidableEq, Repr

def LogRecord.blank : LogRecord := ⟨[], [], .unset⟩

structure LogRecordHeader where
  crc : UInt32
  recordType : LogRecordType
  keySize : UInt32
  valueSize : UInt32
  deriving DecidableEq, Repr

def crcSize : Nat := 4

def logRecordTypeSize : Nat := 1

def maxLogRecordHeaderSize : Nat := 5 * 2 + 5

/-- What the checksum covers: everything after the checksum itself. -/
def logRecordBody (record : LogRecord) : List Byte :=
  record.type.toByte :: (encodeVarint32 (UInt32.ofNat record.key.length) ++
      encodeVarint32 (UInt32.ofNat record.value.length) ++ record.key ++ record.value)

/-- A record without a key has no encoding. -/
def encodeLogRecord (crc : Crc32c) (record : LogRecord) : List Byte :=
  if record.key.isEmpty then []
  else encodeFixed32 (crc.value (logRecordBody record)) ++ logRecordBody record

/-- Read the variable-length header at the front of `bytes`, with its length. Fewer
than four bytes give an empty header of length zero. -/
def decodeLogRecordHeader (bytes : Bytes) : Except Stop (LogRecordHeader × Nat) :=
  if bytes.size < crcSize then .ok (⟨0, .unset, 0, 0⟩, 0)
  else
    match decodeFixed32 bytes.memory with
    | none => .error (.faulted .outOfBounds)
    | some crc =>
      -- `Bytes::operator[]` asserts that the index is below the size.
      if bytes.size ≤ crcSize then .error (.faulted .assertion)
      else
        match bytes.memory[crcSize]? with
        | none => .error (.faulted .outOfBounds)
        | some typeByte =>
          let headerIdx := crcSize + logRecordTypeSize
          match decodeVarint32 (bytes.memory.drop headerIdx) with
          | none => .error (.faulted .outOfBounds)
          | some (keySize, keyLength) =>
            match decodeVarint32 (bytes.memory.drop (headerIdx + keyLength)) with
            | none => .error (.faulted .outOfBounds)
            | some (valueSize, valueLength) =>
              .ok (⟨crc, .ofByte typeByte, keySize, valueSize⟩, headerIdx + keyLength + valueLength)

def getLogRecordCRC (crc : Crc32c) (record : LogRecord) (header : List Byte) : UInt32 :=
  if header.isEmpty then 0
  else
    crc.extend (crc.extend (crc.value (header.drop crcSize)) record.key) record.value

/-- The position goes through a local buffer of `K_MAX_VARINT32_LEN +
K_MAX_VARINT64_LEN` bytes; a longer encoding would overrun it. -/
def encodeLogRecordPosition (pst : LogRecordPst) : Except Stop (List Byte) :=
  let encoded := encodeVarint32 (UInt32.ofNat pst.fid) ++ encodeVarint64 (UInt64.ofNat pst.offset)
  if maxVarint32Len + maxVarint64Len < encoded.length then .error (.faulted .outOfBounds)
  else .ok encoded

def decodeLogRecordPosition (bytes : Bytes) : Except Stop LogRecordPst :=
  match decodeVarint32 bytes.memory with
  | none => .error (.faulted .outOfBounds)
  | some (fid, length) =>
    match decodeVarint64 (bytes.memory.drop length) with
    | none => .error (.faulted .outOfBounds)
    | some (offset, _) => .ok ⟨fid.toNat, offset.toNat⟩

structure TxnRecord where
  logRecord : LogRecord
  pst : LogRecordPst
  deriving DecidableEq, Repr

def nonTxnId : UInt64 := 0

def txnFinishedKey : List Byte := ascii "Txn-finished"

/-- The id goes through a local buffer of `K_MAX_VARINT32_LEN` bytes, and the key is
appended as a C string. -/
def encodeLogRecordWithTxnID (key : Bytes) (txnId : UInt64) : Except Stop (List Byte) :=
  let encoded := encodeVarint64 txnId
  if maxVarint32Len < encoded.length then .error (.faulted .outOfBounds)
  else .ok (encoded ++ key.cString)

/-- The key without its id, and the id. `RemovePrefix` asserts that the id ended
inside the key. -/
def decodeLogRecordWithTxnID (key : Bytes) : Except Stop (List Byte × UInt64) :=
  match decodeVarint64 key.memory with
  | none => .error (.faulted .outOfBounds)
  | some (txnId, length) =>
    if length ≤ key.size then
      .ok ((key.memory.drop length).take (key.size - length), txnId)
    else .error (.faulted .assertion)

open List

theorem LogRecordType.ofByte_toByte (type : LogRecordType) : ofByte type.toByte = type := by
  cases type with
  | unset | normal | deleted | txnFinished => rfl
  | other code =>
    revert code
    decide +kernel

def logRecordSizes (record : LogRecord) : List Byte :=
  encodeVarint32 (UInt32.ofNat record.key.length) ++
    encodeVarint32 (UInt32.ofNat record.value.length)

def logRecordHead (crc : Crc32c) (record : LogRecord) : List Byte :=
  encodeFixed32 (crc.value (logRecordBody record)) ++ (record.type.toByte :: logRecordSizes record)

theorem logRecordBody_eq (record : LogRecord) :
    logRecordBody record =
      (record.type.toByte :: logRecordSizes record) ++ record.key ++ record.value := by
  simp [logRecordBody, logRecordSizes]

variable {record : LogRecord}

theorem encodeLogRecord_eq {crc : Crc32c} (keyed : record.key ≠ []) :
    encodeLogRecord crc record = logRecordHead crc record ++ record.key ++ record.value := by
  have nonempty : record.key.isEmpty = false := by simpa using keyed
  rw [encodeLogRecord, nonempty, logRecordHead, logRecordBody_eq]
  simp

theorem logRecordHead_length (crc : Crc32c) (record : LogRecord) :
    (logRecordHead crc record).length = 5 + (logRecordSizes record).length := by
  simp only [logRecordHead, length_append, encodeFixed32_length, length_cons]
  omega

theorem logRecordHead_length_le (crc : Crc32c) (record : LogRecord) :
    (logRecordHead crc record).length ≤ maxLogRecordHeaderSize := by
  have keyBound := encodeVarint32_length_le (UInt32.ofNat record.key.length)
  have valueBound := encodeVarint32_length_le (UInt32.ofNat record.value.length)
  rw [logRecordHead_length, logRecordSizes, length_append, maxLogRecordHeaderSize]
  omega

theorem logRecordHead_length_pos (crc : Crc32c) (record : LogRecord) :
    6 < (logRecordHead crc record).length := by
  have keyBound := encodeVarint32_length_pos (UInt32.ofNat record.key.length)
  have valueBound := encodeVarint32_length_pos (UInt32.ofNat record.value.length)
  rw [logRecordHead_length, logRecordSizes, length_append]
  omega

theorem encodeLogRecord_length {crc : Crc32c} (keyed : record.key ≠ []) :
    (encodeLogRecord crc record).length =
      (logRecordHead crc record).length + record.key.length + record.value.length := by
  rw [encodeLogRecord_eq keyed, length_append, length_append]

theorem encodeLogRecord_length_pos {crc : Crc32c} (keyed : record.key ≠ []) :
    6 < (encodeLogRecord crc record).length := by
  have head := logRecordHead_length_pos crc record
  rw [encodeLogRecord_length keyed]
  omega

def LogRecordHeader.ofRecord (crc : Crc32c) (record : LogRecord) : LogRecordHeader :=
  ⟨crc.value (logRecordBody record), record.type, UInt32.ofNat record.key.length,
    UInt32.ofNat record.value.length⟩

structure LogRecordHeader.Begins (header : LogRecordHeader) (headerSize : Nat)
    (bytes : List Byte) : Prop where
  crc : decodeFixed32 bytes = some header.crc
  recordType : bytes[crcSize]?.map .ofByte = some header.recordType
  sizes : ∃ keyLength valueLength,
    decodeVarint32 (bytes.drop (crcSize + logRecordTypeSize)) = some (header.keySize, keyLength) ∧
    decodeVarint32 (bytes.drop (crcSize + logRecordTypeSize + keyLength)) =
      some (header.valueSize, valueLength) ∧
    headerSize = crcSize + logRecordTypeSize + keyLength + valueLength

namespace LogRecordHeader.Begins

variable {header : LogRecordHeader} {headerSize : Nat} {bytes : List Byte}

section

variable (begins : header.Begins headerSize bytes)

include begins

theorem size_le : 7 ≤ headerSize ∧ headerSize ≤ bytes.length := by
  obtain ⟨keyLength, valueLength, keySize, valueSize, rfl⟩ := begins.sizes
  have key := decodeVarintLoop_length keySize
  have value := decodeVarintLoop_length valueSize
  rw [length_drop] at key value
  rw [crcSize, logRecordTypeSize] at *
  omega

theorem crcSize_lt : crcSize < bytes.length := by
  have bounds := begins.size_le
  rw [crcSize]
  omega

theorem append (more : List Byte) : header.Begins headerSize (bytes ++ more) := by
  have bounds := begins.size_le
  obtain ⟨crc, recordType, keyLength, valueLength, keySize, valueSize, rfl⟩ := begins
  have key := decodeVarintLoop_length keySize
  have value := decodeVarintLoop_length valueSize
  rw [length_drop] at key value
  rw [crcSize, logRecordTypeSize] at *
  refine ⟨decodeFixed32_append crc more, ?_, keyLength, valueLength, ?_, ?_, rfl⟩
  · rw [crcSize, List.getElem?_append_left (by omega)]
    exact recordType
  · rw [crcSize, logRecordTypeSize, drop_append_of_le_length (by omega)]
    exact decodeVarintLoop_append keySize more
  · rw [crcSize, logRecordTypeSize, drop_append_of_le_length (by omega)]
    exact decodeVarintLoop_append valueSize more

end

theorem of_append {more : List Byte} (begins : header.Begins headerSize (bytes ++ more))
    (inside : headerSize ≤ bytes.length) : header.Begins headerSize bytes := by
  obtain ⟨crc, recordType, keyLength, valueLength, keySize, valueSize, rfl⟩ := begins
  have value := decodeVarintLoop_length valueSize
  rw [crcSize, logRecordTypeSize] at *
  refine ⟨decodeFixed32_of_append crc (by omega), ?_, keyLength, valueLength, ?_, ?_, rfl⟩
  · rw [crcSize, List.getElem?_append_left (by omega)] at *
    exact recordType
  · rw [drop_append_of_le_length (by omega)] at keySize
    exact decodeVarintLoop_of_append keySize
      (by rw [length_drop, crcSize, logRecordTypeSize]; omega)
  · rw [drop_append_of_le_length (by omega)] at valueSize
    exact decodeVarintLoop_of_append valueSize
      (by rw [length_drop, crcSize, logRecordTypeSize]; omega)

theorem unique {other : LogRecordHeader} {otherSize : Nat} (begins : header.Begins headerSize bytes)
    (also : other.Begins otherSize bytes) : header = other ∧ headerSize = otherSize := by
  obtain ⟨crc, recordType, keyLength, valueLength, keySize, valueSize, rfl⟩ := begins
  obtain ⟨crc', recordType', keyLength', valueLength', keySize', valueSize', rfl⟩ := also
  obtain ⟨sameKey, rfl⟩ := Prod.mk.inj (Option.some.inj (keySize.symm.trans keySize'))
  obtain ⟨sameValue, rfl⟩ := Prod.mk.inj (Option.some.inj (valueSize.symm.trans valueSize'))
  refine ⟨?_, rfl⟩
  cases header
  cases other
  congr 1
  · exact Option.some.inj (crc.symm.trans crc')
  · exact Option.some.inj (recordType.symm.trans recordType')

end LogRecordHeader.Begins

theorem decodeLogRecordHeader_ok_iff (bytes : Bytes) (enough : crcSize ≤ bytes.size)
    {header : LogRecordHeader} {headerSize : Nat} :
    decodeLogRecordHeader bytes = .ok (header, headerSize) ↔
      crcSize < bytes.size ∧ header.Begins headerSize bytes.memory := by
  rw [decodeLogRecordHeader, if_neg (Nat.not_lt.mpr enough)]
  constructor
  · intro decoded
    split at decoded
    · cases decoded
    · rename_i crc readCrc
      split at decoded
      · cases decoded
      · rename_i more
        split at decoded
        · cases decoded
        · rename_i typeByte readType
          dsimp only at decoded
          split at decoded
          · cases decoded
          · rename_i keySize keyLength readKey
            split at decoded
            · cases decoded
            · rename_i valueSize valueLength readValue
              cases decoded
              exact ⟨Nat.not_le.mp more, readCrc, by rw [readType]; rfl, keyLength, valueLength,
                readKey, readValue, rfl⟩
  · rintro ⟨more, crc, recordType, keyLength, valueLength, keySize, valueSize, rfl⟩
    obtain ⟨typeByte, readType, type⟩ := Option.map_eq_some_iff.mp recordType
    rw [crc]
    simp only [Nat.not_le.mpr more, ↓reduceIte, readType, keySize, valueSize, type]

theorem LogRecordHeader.begins_head (crc : Crc32c) (record : LogRecord) (tail : List Byte) :
    (LogRecordHeader.ofRecord crc record).Begins (logRecordHead crc record).length
      (logRecordHead crc record ++ tail) := by
  have layout : logRecordHead crc record ++ tail =
      encodeFixed32 (crc.value (logRecordBody record)) ++ (record.type.toByte ::
        (encodeVarint32 (UInt32.ofNat record.key.length) ++
          (encodeVarint32 (UInt32.ofNat record.value.length) ++ tail))) := by
    simp [logRecordHead, logRecordSizes]
  have atKey : (logRecordHead crc record ++ tail).drop (crcSize + logRecordTypeSize) =
      encodeVarint32 (UInt32.ofNat record.key.length) ++
        (encodeVarint32 (UInt32.ofNat record.value.length) ++ tail) := by
    rw [layout, ← drop_drop, drop_left' (by simp [crcSize])]
    rfl
  refine ⟨?_, ?_, (encodeVarint32 (UInt32.ofNat record.key.length)).length,
    (encodeVarint32 (UInt32.ofNat record.value.length)).length, ?_, ?_, ?_⟩
  · rw [layout]
    exact decodeFixed32_encodeFixed32 _ _
  · rw [layout, List.getElem?_append_right (by simp [crcSize])]
    simp [crcSize, LogRecordType.ofByte_toByte, ofRecord]
  · rw [atKey]
    exact decodeVarint32_encodeVarint32 _ _
  · rw [← drop_drop, atKey, drop_left]
    exact decodeVarint32_encodeVarint32 _ _
  · rw [logRecordHead_length, logRecordSizes, length_append, crcSize, logRecordTypeSize]
    omega

theorem decodeLogRecordHeader_head (crc : Crc32c) (record : LogRecord) (tail : List Byte) :
    decodeLogRecordHeader (.ofString (logRecordHead crc record ++ tail)) =
      .ok (.ofRecord crc record, (logRecordHead crc record).length) := by
  have begins := LogRecordHeader.begins_head crc record tail
  exact (decodeLogRecordHeader_ok_iff (.ofString (logRecordHead crc record ++ tail))
    (Nat.le_of_lt begins.crcSize_lt)).mpr ⟨begins.crcSize_lt, begins.append [0]⟩

theorem decodeLogRecordHeader_error {bytes : Bytes} {stop : Stop}
    (failed : decodeLogRecordHeader bytes = .error stop) : ∃ fault, stop = .faulted fault := by
  rw [decodeLogRecordHeader] at failed
  split at failed
  · cases failed
  · split at failed
    · exact ⟨_, (Except.error.inj failed).symm⟩
    · split at failed
      · exact ⟨_, (Except.error.inj failed).symm⟩
      · split at failed
        · exact ⟨_, (Except.error.inj failed).symm⟩
        · dsimp only at failed
          split at failed
          · exact ⟨_, (Except.error.inj failed).symm⟩
          · split at failed
            · exact ⟨_, (Except.error.inj failed).symm⟩
            · cases failed

theorem getLogRecordCRC_head (crc : Crc32c) (record : LogRecord) :
    getLogRecordCRC crc record (logRecordHead crc record) = crc.value (logRecordBody record) := by
  have nonempty : (logRecordHead crc record).isEmpty = false := by
    have positive := logRecordHead_length_pos crc record
    cases head : logRecordHead crc record with
    | nil => simp [head] at positive
    | cons byte rest => rfl
  have dropped : (logRecordHead crc record).drop crcSize =
      record.type.toByte :: logRecordSizes record := by
    rw [logRecordHead, drop_left' (by simp [crcSize])]
  rw [getLogRecordCRC, nonempty, dropped, logRecordBody_eq]
  simp only [Bool.false_eq_true, ↓reduceIte, crc.extend_value]

theorem decodeLogRecordPosition_encode {pst : LogRecordPst} (fid : pst.fid < 2 ^ 32)
    (offset : pst.offset < 2 ^ 31) :
    ∃ encoded, encodeLogRecordPosition pst = .ok encoded ∧
      decodeLogRecordPosition (.ofString encoded) = .ok pst ∧ encoded.length ≤ 10 := by
  have offsetNat : (UInt64.ofNat pst.offset).toNat = pst.offset := by
    rw [UInt64.toNat_ofNat']
    omega
  have fidNat : (UInt32.ofNat pst.fid).toNat = pst.fid := by
    rw [UInt32.toNat_ofNat']
    omega
  have fidLength := encodeVarint32_length_le (UInt32.ofNat pst.fid)
  have offsetLength : (encodeVarint64 (UInt64.ofNat pst.offset)).length ≤ 5 :=
    encodeVarintLoop_length_le (by omega) (by decide)
  have total : (encodeVarint32 (UInt32.ofNat pst.fid) ++
      encodeVarint64 (UInt64.ofNat pst.offset)).length ≤ 10 := by
    rw [length_append]
    omega
  have fits : ¬ maxVarint32Len + maxVarint64Len < (encodeVarint32 (UInt32.ofNat pst.fid) ++
      encodeVarint64 (UInt64.ofNat pst.offset)).length := by
    rw [maxVarint32Len, maxVarint64Len]
    omega
  refine ⟨_, by simp only [encodeLogRecordPosition, fits, ↓reduceIte], ?_, total⟩
  have second := decodeVarint64_encodeVarint64 (show (UInt64.ofNat pst.offset).toNat < 2 ^ 31 by
    omega) [0]
  simp only [decodeLogRecordPosition, Bytes.ofString, append_assoc,
    decodeVarint32_encodeVarint32, drop_left, second, fidNat, offsetNat]

/-- 64-bit varints, and with them the offsets of positions, are read back below 2^31 and nowhere
above, whatever bytes follow them. -/
theorem varint64_round_trips_iff (value : UInt64) (suffix : List Byte) (fid : UInt32) :
    (decodeVarint64 (encodeVarint64 value ++ suffix) =
        some (value, (encodeVarint64 value).length) ↔ value.toNat < 2 ^ 31) ∧
      ((encodeLogRecordPosition ⟨fid.toNat, value.toNat⟩ >>= fun encoded =>
          decodeLogRecordPosition (.ofString encoded)) = .ok ⟨fid.toNat, value.toNat⟩ ↔
        value.toNat < 2 ^ 31) := by
  refine ⟨⟨decodeVarint64_encodeVarint64_small, fun small =>
    decodeVarint64_encodeVarint64 small suffix⟩, ?_, ?_⟩
  · intro ran
    rw [encodeLogRecordPosition, UInt32.ofNat_toNat, UInt64.ofNat_toNat] at ran
    split at ran
    · cases ran
    · change decodeLogRecordPosition (.ofString _) = _ at ran
      rw [decodeLogRecordPosition, Bytes.ofString, append_assoc,
        decodeVarint32_encodeVarint32] at ran
      simp only [drop_left] at ran
      split at ran
      · cases ran
      · rename_i offset length decoded
        have same : offset = value := UInt64.toNat_inj.mp (by simpa using ran)
        exact decodeVarint64_encodeVarint64_small (same ▸ decoded)
  · intro small
    obtain ⟨encoded, written, decoded, -⟩ := decodeLogRecordPosition_encode
      (show (⟨fid.toNat, value.toNat⟩ : LogRecordPst).fid < 2 ^ 32 from fid.toNat_lt) small
    rw [written]
    exact decoded

theorem varint64_sign_extended :
    decodeVarint64 (encodeVarint64 0x80000000) = some (0xFFFFFFFF80000000, 5) ∧
      (encodeLogRecordPosition ⟨0, 0x80000000⟩ >>= fun encoded =>
        decodeLogRecordPosition (.ofString encoded)) = .ok ⟨0, 0xFFFFFFFF80000000⟩ := by
  decide +kernel

theorem encodeLogRecordWithTxnID_small (key : Bytes) {txnId : UInt64}
    (small : txnId.toNat < 2 ^ 28) :
    encodeLogRecordWithTxnID key txnId = .ok (encodeVarint64 txnId ++ key.cString) := by
  have length : (encodeVarint64 txnId).length ≤ 4 :=
    encodeVarintLoop_length_le (by omega) (by decide)
  have fits : ¬ maxVarint32Len < (encodeVarint64 txnId).length := by
    rw [maxVarint32Len]
    omega
  simp only [encodeLogRecordWithTxnID, fits, ↓reduceIte]

theorem encodeLogRecordWithTxnID_large (key : Bytes) {txnId : UInt64}
    (large : ¬ txnId.toNat < 2 ^ 28) :
    encodeLogRecordWithTxnID key txnId = .error (.faulted .outOfBounds) := by
  have length : (encodeVarintLoop 10 (2 ^ 28)).length ≤ (encodeVarint64 txnId).length :=
    encodeVarintLoop_length_mono 10 (Nat.not_lt.mp large)
  have past : maxVarint32Len < (encodeVarint64 txnId).length :=
    Nat.lt_of_lt_of_le (by decide) length
  simp only [encodeLogRecordWithTxnID, past, ↓reduceIte]

theorem decodeLogRecordWithTxnID_encode (key : List Byte) {txnId : UInt64}
    (small : txnId.toNat < 2 ^ 28) :
    decodeLogRecordWithTxnID (.ofString (encodeVarint64 txnId ++ key)) = .ok (key, txnId) := by
  have decoded := decodeVarint64_encodeVarint64 (show txnId.toNat < 2 ^ 31 by omega) (key ++ [0])
  have inside : (encodeVarint64 txnId).length ≤ (encodeVarint64 txnId ++ key).length := by
    rw [List.length_append]
    omega
  have rest : (encodeVarint64 txnId ++ key).length - (encodeVarint64 txnId).length =
      key.length := by
    rw [List.length_append]
    omega
  simp only [decodeLogRecordWithTxnID, Bytes.ofString, List.append_assoc, decoded, inside,
    ↓reduceIte, List.drop_left, rest, List.take_left]

/-- When the local buffers of the three encoders are large enough: always for the header of a
record, and for ids and positions up to the sizes given here. -/
theorem encode_buffers_fit_iff (crc : Crc32c) (record : LogRecord) (txnId : UInt64)
    (fid : UInt32) (offset : UInt64) :
    ((encodeVarint64 txnId).length ≤ maxVarint32Len ↔ txnId.toNat < 2 ^ 28) ∧
      ((encodeVarint32 fid ++ encodeVarint64 offset).length ≤ maxVarint32Len + maxVarint64Len ↔
        fid.toNat < 2 ^ 14 ∨ fid.toNat < 2 ^ 21 ∧ offset.toNat < 2 ^ 63 ∨
          fid.toNat < 2 ^ 28 ∧ offset.toNat < 2 ^ 56 ∨ offset.toNat < 2 ^ 49) ∧
      (logRecordHead crc record).length ≤ maxLogRecordHeaderSize := by
  refine ⟨?_, ?_, logRecordHead_length_le crc record⟩
  · exact encodeVarint64_length_le_iff txnId (by decide)
  · have fidLength (groups : Nat) := @encodeVarint32_length_le_iff (groups + 1) fid (by omega)
    have offsetLength (groups : Nat) := @encodeVarint64_length_le_iff (groups + 1) offset (by omega)
    have fid2 := fidLength 1
    have fid3 := fidLength 2
    have fid4 := fidLength 3
    have fid5 := encodeVarint32_length_le fid
    have offset7 := offsetLength 6
    have offset8 := offsetLength 7
    have offset9 := offsetLength 8
    have offset10 := (offsetLength 9).mpr (by have := offset.toNat_lt; omega)
    rw [List.length_append, maxVarint32Len, maxVarint64Len]
    omega

theorem encode_buffers_overrun :
    maxVarint32Len < (encodeVarint64 (2 ^ 28)).length ∧ maxVarint32Len + maxVarint64Len <
        (encodeVarint32 (2 ^ 28) ++ encodeVarint64 (2 ^ 49)).length := by
  decide +kernel

end Bitdb
