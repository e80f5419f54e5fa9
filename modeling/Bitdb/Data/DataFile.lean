import Bitdb.Data.LogRecord
import Bitdb.Io.FileSystem

/-! Data files (`bitdb/data/data_file.h` and `data_file.cpp`). Reading depends only on the bytes of
the file, so it is a function of them. Reading undoes writing, whatever stands before and after a
record. -/

set_option autoImplicit false

namespace Bitdb

open Base Program

def mergedLogRecordKey : List Byte := ascii "merged"

structure DataFile where
  fileId : Nat
  writeOff : Nat
  handle : Handle
  deriving DecidableEq, Repr

/-- `ReadNBytes`: at most `n` bytes from `offset`, fewer at the end of the file or
past what one call transfers. -/
def readNBytes (content : List Byte) (n offset : Nat) : List Byte :=
  (content.drop offset).take (min n maxTransfer)

/-- The key and value part of `ReadLogRecord`, read behind a decoded header. The
sizes are 32-bit and their sum wraps around; an iterator past the bytes that were
read has no defined value. -/
def readKeyValue (content : List Byte) (header : LogRecordHeader) (start : Nat) :
    Except Stop LogRecord :=
  if 0 < header.keySize.toNat ∨ 0 < header.valueSize.toNat then
    let kvSize := (header.keySize + header.valueSize).toNat
    if kvSize < content.length then
      let kvBuf := readNBytes content kvSize start
      if kvBuf.isEmpty then
        .error (.failed (.ioError "Data::ReadLogRecord" "kv pair size equals zero"))
      else if kvBuf.length < header.keySize.toNat + header.valueSize.toNat then
        .error (.faulted .outOfBounds)
      else
        .ok ⟨kvBuf.take header.keySize.toNat,
          (kvBuf.drop header.keySize.toNat).take header.valueSize.toNat,
          header.recordType⟩
    else .error (.faulted .assertion)
  else .ok ⟨[], [], header.recordType⟩

/-- The record at `offset` and its size, which is zero exactly at the end of the
file. -/
def readLogRecord (crc : Crc32c) (content : List Byte) (offset : Nat) :
    Except Stop (LogRecord × Nat) :=
  let fileSize := content.length
  if fileSize = 0 then
    .error (.failed (.ioError "Data::ReadLogRecord" "file size equals zero."))
  else if fileSize = offset then .ok (.blank, 0)
  -- `file_size - offset` wraps around and the local buffer gets a negative length.
  else if fileSize < offset then .error (.faulted .outOfBounds)
  else do
    -- A record is written whole, so a clipped read still holds the whole header.
    let tryReadHeaderSize :=
      if fileSize < offset + maxLogRecordHeaderSize then fileSize - offset
      else maxLogRecordHeaderSize
    let headerBuf := readNBytes content tryReadHeaderSize offset
    if headerBuf.isEmpty then
      .error (.failed (.ioError "Data::ReadLogRecord" "header equals zero."))
    else
      let (header, headerSize) ← decodeLogRecordHeader (.ofString headerBuf)
      if headerSize = 0 then
        .error (.failed (.ioError "Data::ReadLogRecord" "io EOF"))
      else if header.crc = 0 ∧ header.keySize = 0 ∧ header.valueSize = 0 then
        .error (.failed (.ioError "Data::ReadLogRecord" "io EOF"))
      else
        let recordSize := UInt32.ofNat headerSize + header.keySize + header.valueSize
        let record ← readKeyValue content header (offset + headerSize)
        if headerBuf.length < headerSize then .error (.faulted .outOfBounds)
        else if getLogRecordCRC crc record (headerBuf.take headerSize) = header.crc then
          .ok (record, recordSize.toNat)
        else
          .error (.failed (.corruption "DataFile::ReadLogRecord"
            "invalid crc value, log record maybe corrupted."))

namespace DataFile

def readLogRecordAt (crc : Crc32c) (file : DataFile) (offset : Nat) : Io (LogRecord × Nat) := do
  let world ← read
  ofExcept (readLogRecord crc (world.fs.content file.handle) offset)

/-- A short transfer is not noticed; it only moves the write offset less far. -/
def write (file : DataFile) (bytes : List Byte) : Io DataFile := do
  let size ← fileWrite file.handle bytes
  if size < 0 then stop (.failed (.ioError "DataFile::Write" "write datafile failed."))
  else return { file with writeOff := file.writeOff + size.toNat }

def sync (file : DataFile) : Io Unit := do
  let res ← fileSync file.handle
  if res < 0 then stop (.failed (.ioError "DataFile::Sync()" "sync failed."))
  else return ()

def newDataFile (handle : Handle) (fileId : Nat) : Io DataFile := do
  openFile handle
  return ⟨fileId, 0, handle⟩

def openDataFile (level fileId : Nat) : Io DataFile := newDataFile ⟨level, .data fileId⟩ fileId

def openHintFile (level : Nat) : Io DataFile := newDataFile ⟨level, .hintIndex⟩ 0

def openMergedFile (level : Nat) : Io DataFile := newDataFile ⟨level, .merged⟩ 0

end DataFile

def getMergenceDirectory (level : Nat) : Nat := level + 1

/-- A hint entry maps the key to the position of its record in the merged files. -/
def writeHintRecord (crc : Crc32c) (hintFile : DataFile) (key : Bytes) (pst : LogRecordPst) :
    Io DataFile := do
  let value ← ofExcept (encodeLogRecordPosition pst)
  hintFile.write (encodeLogRecord crc ⟨key.cString, value, .unset⟩)

open List DataFile UInt32

/-- A record that one write transfers whole and that can be told from padding. -/
structure LogRecord.Storable (crc : Crc32c) (record : LogRecord) : Prop where
  keyed : record.key ≠ []
  bounded : (encodeLogRecord crc record).length ≤ maxTransfer

section Read

variable {crc : Crc32c} {record : LogRecord} (storable : record.Storable crc)

include storable

theorem LogRecord.Storable.sizes : record.key.length + record.value.length + 7 ≤ maxTransfer := by
  have head := logRecordHead_length_pos crc record
  have bounded := storable.bounded
  rw [encodeLogRecord_length storable.keyed] at bounded
  omega

theorem LogRecord.Storable.keySize_toNat :
    (UInt32.ofNat record.key.length).toNat = record.key.length := by
  have sizes := storable.sizes
  rw [toNat_ofNat', maxTransfer] at *
  omega

theorem LogRecord.Storable.valueSize_toNat :
    (UInt32.ofNat record.value.length).toNat = record.value.length := by
  have sizes := storable.sizes
  rw [toNat_ofNat', maxTransfer] at *
  omega

theorem LogRecord.Storable.kvSize_toNat :
    (UInt32.ofNat record.key.length + UInt32.ofNat record.value.length).toNat =
      record.key.length + record.value.length := by
  have sizes := storable.sizes
  rw [UInt32.toNat_add, storable.keySize_toNat, storable.valueSize_toNat]
  rw [maxTransfer] at sizes
  omega

theorem LogRecord.Storable.length_le {other : LogRecord} (keyed : other.key ≠ [])
    (keys : other.key.length ≤ record.key.length)
    (values : other.value.length ≤ record.value.length) :
    (encodeLogRecord crc other).length ≤ (encodeLogRecord crc record).length := by
  have sizes := storable.sizes
  have keySize := encodeVarint32_length_mono
    (show (UInt32.ofNat other.key.length).toNat ≤ (UInt32.ofNat record.key.length).toNat by
      rw [toNat_ofNat', toNat_ofNat']
      rw [maxTransfer] at sizes
      omega)
  have valueSize := encodeVarint32_length_mono
    (show (UInt32.ofNat other.value.length).toNat ≤ (UInt32.ofNat record.value.length).toNat by
      rw [toNat_ofNat', toNat_ofNat']
      rw [maxTransfer] at sizes
      omega)
  rw [encodeLogRecord_length storable.keyed, logRecordHead_length, logRecordSizes, length_append,
    encodeLogRecord_length keyed, logRecordHead_length, logRecordSizes, length_append]
  omega

theorem LogRecord.Storable.of_shorter {other : LogRecord} (keyed : other.key ≠ [])
    (keys : other.key.length ≤ record.key.length)
    (values : other.value.length ≤ record.value.length) : other.Storable crc :=
  ⟨keyed, (storable.length_le keyed keys values).trans storable.bounded⟩

theorem readNBytes_header (front back : List Byte) :
    ∃ tail, readNBytes (front ++ encodeLogRecord crc record ++ back)
        (if (front ++ encodeLogRecord crc record ++ back).length <
            front.length + maxLogRecordHeaderSize
          then (front ++ encodeLogRecord crc record ++ back).length - front.length
          else maxLogRecordHeaderSize) front.length =
      logRecordHead crc record ++ tail := by
  have headBound := logRecordHead_length_le crc record
  have after : (front ++ encodeLogRecord crc record ++ back).drop front.length =
      logRecordHead crc record ++ (record.key ++ record.value ++ back) := by
    rw [append_assoc, drop_left, encodeLogRecord_eq storable.keyed]
    simp only [append_assoc]
  have room : (logRecordHead crc record).length ≤
      (front ++ encodeLogRecord crc record ++ back).length - front.length := by
    rw [length_append, length_append, encodeLogRecord_length storable.keyed]
    omega
  rw [readNBytes, after, take_append]
  refine ⟨_, congrArg (· ++ _) (take_of_length_le ?_)⟩
  rw [maxTransfer]
  rw [maxLogRecordHeaderSize] at *
  split <;> omega

theorem readKeyValue_at (front back : List Byte) :
    readKeyValue (front ++ encodeLogRecord crc record ++ back) (.ofRecord crc record)
      (front.length + (logRecordHead crc record).length) = .ok record := by
  have headPositive := logRecordHead_length_pos crc record
  have keyPositive : 0 < record.key.length := length_pos_iff.mpr storable.keyed
  have sizes := storable.sizes
  have after : (front ++ encodeLogRecord crc record ++ back).drop
      (front.length + (logRecordHead crc record).length) = record.key ++ record.value ++ back := by
    rw [← drop_drop, append_assoc, drop_left, encodeLogRecord_eq storable.keyed]
    simp only [append_assoc, drop_left]
  have buffer : readNBytes (front ++ encodeLogRecord crc record ++ back)
      (record.key.length + record.value.length)
        (front.length + (logRecordHead crc record).length) = record.key ++ record.value := by
    rw [readNBytes, after, Nat.min_eq_left (by omega), ← length_append, take_left]
  have inside : record.key.length + record.value.length <
      (front ++ encodeLogRecord crc record ++ back).length := by
    rw [length_append, length_append, encodeLogRecord_length storable.keyed]
    omega
  simp only [readKeyValue, LogRecordHeader.ofRecord, storable.kvSize_toNat, storable.keySize_toNat,
    storable.valueSize_toNat, keyPositive, true_or, ↓reduceIte, inside, buffer]
  simp [storable.keyed]

theorem readLogRecord_at (front back : List Byte) :
    readLogRecord crc (front ++ encodeLogRecord crc record ++ back) front.length =
      .ok (record, (encodeLogRecord crc record).length) := by
  have recordPositive : 6 < (encodeLogRecord crc record).length :=
    encodeLogRecord_length_pos storable.keyed
  have total : (front ++ encodeLogRecord crc record ++ back).length =
      front.length + (encodeLogRecord crc record).length + back.length := by
    rw [length_append, length_append]
  obtain ⟨tail, buffer⟩ := readNBytes_header storable front back
  have headPositive := logRecordHead_length_pos crc record
  have bufferNonempty : (logRecordHead crc record ++ tail).isEmpty = false := by
    cases head : logRecordHead crc record with
    | nil => simp [head] at headPositive
    | cons byte rest => rfl
  have notEmpty : ¬ (front ++ encodeLogRecord crc record ++ back).length = 0 := by omega
  have notEnd : ¬ (front ++ encodeLogRecord crc record ++ back).length = front.length := by omega
  have notPast : ¬ (front ++ encodeLogRecord crc record ++ back).length < front.length := by omega
  have headNonzero : ¬ (logRecordHead crc record).length = 0 := by omega
  have keyNonzero : ¬ UInt32.ofNat record.key.length = 0 := by
    intro zero
    have length := storable.keySize_toNat
    rw [zero] at length
    exact storable.keyed (eq_nil_of_length_eq_zero length.symm)
  have wholeHeader : ¬ (logRecordHead crc record ++ tail).length <
      (logRecordHead crc record).length := by
    rw [length_append]
    omega
  have size : (UInt32.ofNat (logRecordHead crc record).length +
      UInt32.ofNat record.key.length + UInt32.ofNat record.value.length).toNat =
        (encodeLogRecord crc record).length := by
    have bounded := storable.bounded
    have headBound := logRecordHead_length_le crc record
    rw [encodeLogRecord_length storable.keyed] at bounded ⊢
    rw [UInt32.toNat_add, UInt32.toNat_add, storable.keySize_toNat, storable.valueSize_toNat,
      toNat_ofNat']
    rw [maxTransfer] at bounded
    omega
  simp only [readLogRecord, notEmpty, notEnd, notPast, ↓reduceIte, buffer, bufferNonempty,
    decodeLogRecordHeader_head, bind, Except.bind, headNonzero, LogRecordHeader.ofRecord,
    Bool.false_eq_true, keyNonzero, false_and, and_false]
  have kv := readKeyValue_at storable front back
  simp only [LogRecordHeader.ofRecord] at kv
  simp only [kv, wholeHeader, ↓reduceIte, take_left, getLogRecordCRC_head, size]

end Read

theorem readLogRecord_end (crc : Crc32c) {content : List Byte} (nonempty : content ≠ []) :
    readLogRecord crc content content.length = .ok (.blank, 0) := by
  simp [readLogRecord, nonempty]

theorem readLogRecord_empty (crc : Crc32c) (offset : Nat) :
    readLogRecord crc [] offset =
      .error (.failed (.ioError "Data::ReadLogRecord" "file size equals zero.")) := by
  simp [readLogRecord]

def fileBytes (crc : Crc32c) (records : List LogRecord) : List Byte :=
  records.flatMap (encodeLogRecord crc)

@[simp] theorem fileBytes_nil (crc : Crc32c) : fileBytes crc [] = [] := rfl

@[simp] theorem fileBytes_cons (crc : Crc32c) (record : LogRecord) (records : List LogRecord) :
    fileBytes crc (record :: records) = encodeLogRecord crc record ++ fileBytes crc records := rfl

@[simp] theorem fileBytes_append (crc : Crc32c) (front back : List LogRecord) :
    fileBytes crc (front ++ back) = fileBytes crc front ++ fileBytes crc back :=
  flatMap_append

section

variable {records : List LogRecord} (keyed : ∀ record ∈ records, record.key ≠ [])

include keyed

theorem fileBytes_ne_nil {crc : Crc32c} (nonempty : records ≠ []) : fileBytes crc records ≠ [] := by
  cases records with
  | nil => exact absurd rfl nonempty
  | cons record records =>
    have positive : 6 < (encodeLogRecord crc record).length :=
      encodeLogRecord_length_pos (keyed record (by simp))
    intro missing
    rw [fileBytes_cons] at missing
    rw [(append_eq_nil_iff.mp missing).1] at positive
    simp at positive

theorem length_le_fileBytes {crc : Crc32c} : records.length ≤ (fileBytes crc records).length := by
  induction records with
  | nil => simp
  | cons record records ih =>
    have positive : 6 < (encodeLogRecord crc record).length :=
      encodeLogRecord_length_pos (keyed record (by simp))
    have rest := ih fun later member => keyed later (by simp [member])
    rw [fileBytes_cons, length_cons, length_append]
    omega

end

def writeRecords (crc : Crc32c) (file : DataFile) : List LogRecord → Io DataFile
  | [] => pure file
  | record :: rest => do
      let written ← file.write (encodeLogRecord crc record)
      writeRecords crc written rest

/-- Read records from `offset` until the size is zero, advancing by each size. -/
def readRecords (crc : Crc32c) (content : List Byte) :
    Nat → Nat → Except Stop (List (LogRecord × Nat))
  | 0, _ => .error .looping
  | fuel + 1, offset => do
      let (record, size) ← readLogRecord crc content offset
      if size = 0 then .ok []
      else
        let rest ← readRecords crc content fuel (offset + size)
        .ok ((record, size) :: rest)

theorem readRecords_fileBytes {crc : Crc32c} (front rest : List LogRecord) (fuel : Nat)
    (storable : ∀ record ∈ rest, record.Storable crc)
    (nonempty : fileBytes crc (front ++ rest) ≠ []) (enough : rest.length < fuel) :
    readRecords crc (fileBytes crc (front ++ rest)) fuel (fileBytes crc front).length =
      .ok (rest.map fun record => (record, (encodeLogRecord crc record).length)) := by
  induction rest generalizing front fuel with
  | nil =>
    obtain ⟨fuel, rfl⟩ : ∃ more, fuel = more + 1 := ⟨fuel - 1, by omega⟩
    simp only [append_nil] at nonempty ⊢
    simp [readRecords, readLogRecord_end crc nonempty, bind, Except.bind]
  | cons record rest ih =>
    obtain ⟨fuel, rfl⟩ : ∃ more, fuel = more + 1 := ⟨fuel - 1, by omega⟩
    have here := storable record (by simp)
    have positive : 6 < (encodeLogRecord crc record).length := encodeLogRecord_length_pos here.keyed
    have nonzero : ¬ (encodeLogRecord crc record).length = 0 := by omega
    have found := readLogRecord_at here (fileBytes crc front) (fileBytes crc rest)
    have content : fileBytes crc (front ++ record :: rest) =
        fileBytes crc front ++ encodeLogRecord crc record ++ fileBytes crc rest := by simp
    have next := ih (front ++ [record]) fuel (fun later member => storable later (by simp [member]))
      (by simpa using nonempty) (by simpa using enough)
    simp only [append_assoc, cons_append, nil_append] at next
    have advanced : (fileBytes crc (front ++ [record])).length =
        (fileBytes crc front).length + (encodeLogRecord crc record).length := by simp
    rw [advanced] at next
    rw [readRecords, content, found, ← content]
    simp only [bind, Except.bind, nonzero, ↓reduceIte, next, map_cons]

section Write

variable {crc : Crc32c} {world : World} {file : DataFile}

theorem DataFile.run_write_done {rest : World} {old : List Byte} (bytes : List Byte)
    (next : nextOutcome.run world = (.ok .done, rest))
    (found : rest.fs.content? file.handle = some old) :
    (file.write bytes).run world =
      (.ok { file with writeOff := file.writeOff + (bytes.take maxTransfer).length },
        rest.written file.handle (old ++ bytes.take maxTransfer) bytes) := by
  have written : (fileWrite file.handle bytes).run world = _ := run_fileWrite_done next found
  have notNegative : ¬ ((min bytes.length maxTransfer : Nat) : Int) < 0 := by omega
  have count : (bytes.take maxTransfer).length = min bytes.length maxTransfer := by
    rw [length_take, Nat.min_comm]
  rw [write, run_bind_ok written, if_neg notNegative, Int.toNat_natCast, count]
  rfl

theorem DataFile.run_write {old : List Byte} (bytes : List Byte) (reliable : world.script = [])
    (found : world.fs.content? file.handle = some old) :
    (file.write bytes).run world =
      (.ok { file with writeOff := file.writeOff + (bytes.take maxTransfer).length },
        world.written file.handle (old ++ bytes.take maxTransfer) bytes) :=
  run_write_done bytes (run_nextOutcome reliable) found

theorem DataFile.run_sync (reliable : world.script = []) :
    file.sync.run world = (.ok (), world) := by
  simp [sync, run_bind_ok (run_fileSync reliable file.handle)]

theorem run_writeRecords (world : World) (file : DataFile) (records : List LogRecord)
    (old : List Byte) (reliable : world.script = [])
    (found : world.fs.content? file.handle = some old)
    (storable : ∀ record ∈ records, record.Storable crc) :
    ∃ reached, (writeRecords crc file records).run world =
        (.ok { file with writeOff := file.writeOff + (fileBytes crc records).length }, reached) ∧
      reached.fs.content? file.handle = some (old ++ fileBytes crc records) := by
  induction records generalizing world file old with
  | nil =>
    refine ⟨world, by simp [writeRecords], ?_⟩
    simpa using found
  | cons record records ih =>
    have here := storable record (by simp)
    have written := run_write (encodeLogRecord crc record) reliable found
    rw [take_of_length_le here.bounded] at written
    obtain ⟨reached, ran, content⟩ := ih
      (world.written file.handle (old ++ encodeLogRecord crc record) (encodeLogRecord crc record))
      { file with writeOff := file.writeOff + (encodeLogRecord crc record).length }
      (old ++ encodeLogRecord crc record) reliable
      (Fs.content?_put_same (Fs.dir?_isSome_of_content? found))
      (fun later member => storable later (by simp [member]))
    refine ⟨reached, ?_, ?_⟩
    · rw [writeRecords, run_bind_ok written, ran]
      simp [Nat.add_assoc]
    · simpa using content

end Write

end Bitdb
