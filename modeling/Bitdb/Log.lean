import Bitdb.Db

/-! The log behind a database: what its data files hold, as records instead of bytes. A record
longer than one write transfers is kept only in part. -/

set_option autoImplicit false

namespace Bitdb

open List

def writtenBytes (crc : Crc32c) (record : LogRecord) : List Byte :=
  (encodeLogRecord crc record).take maxTransfer

def logBytes (crc : Crc32c) (records : List LogRecord) : List Byte :=
  records.flatMap (writtenBytes crc)

@[simp] theorem logBytes_nil (crc : Crc32c) : logBytes crc [] = [] := rfl

@[simp] theorem logBytes_cons (crc : Crc32c) (record : LogRecord) (records : List LogRecord) :
    logBytes crc (record :: records) = writtenBytes crc record ++ logBytes crc records := rfl

@[simp] theorem logBytes_append (crc : Crc32c) (front back : List LogRecord) :
    logBytes crc (front ++ back) = logBytes crc front ++ logBytes crc back :=
  flatMap_append

theorem LogRecord.Storable.writtenBytes_eq {crc : Crc32c} {record : LogRecord}
    (storable : record.Storable crc) : writtenBytes crc record = encodeLogRecord crc record :=
  take_of_length_le storable.bounded

theorem logBytes_eq_fileBytes {crc : Crc32c} {records : List LogRecord}
    (storable : ∀ record ∈ records, record.Storable crc) :
    logBytes crc records = fileBytes crc records := by
  induction records with
  | nil => rfl
  | cons record records ih =>
    have rest := ih fun later member => storable later (by simp [member])
    rw [logBytes_cons, fileBytes_cons, (storable record (by simp)).writtenBytes_eq, rest]

structure FileLog where
  fileId : Nat
  records : List LogRecord

/-- The files a database has closed, and the one it writes to. -/
structure Log where
  older : List FileLog
  active : Option FileLog

abbrev Located := LogRecordPst × LogRecord

def Located.write (crc : Crc32c) (level : Nat) (found : Located) : Handle × List Byte :=
  (⟨level, .data found.1.fid⟩, encodeLogRecord crc found.2)

def located (crc : Crc32c) (fileId : Nat) : Nat → List LogRecord → List Located
  | _, [] => []
  | offset, record :: rest =>
    (⟨fileId, offset⟩, record) ::
      located crc fileId (offset + (writtenBytes crc record).length) rest

theorem located_append (crc : Crc32c) (fileId offset : Nat) (front back : List LogRecord) :
    located crc fileId offset (front ++ back) = located crc fileId offset front ++
        located crc fileId (offset + (logBytes crc front).length) back := by
  induction front generalizing offset with
  | nil => rfl
  | cons record front ih =>
    rw [cons_append, located, located, ih, logBytes_cons, length_append, Nat.add_assoc]
    rfl

theorem located_records (crc : Crc32c) (fileId offset : Nat) (records : List LogRecord) :
    (located crc fileId offset records).map Prod.snd = records := by
  induction records generalizing offset with
  | nil => rfl
  | cons record rest ih => rw [located, map_cons, ih]

section

variable {crc : Crc32c} {fileId offset : Nat} {found : Located} {records : List LogRecord}
  (member : found ∈ located crc fileId offset records)

include member

theorem located_split :
    ∃ front back, records = front ++ found.2 :: back ∧
      found.1 = ⟨fileId, offset + (logBytes crc front).length⟩ := by
  induction records generalizing offset with
  | nil => cases member
  | cons record records ih =>
    rw [located, mem_cons] at member
    rcases member with rfl | later
    · exact ⟨[], records, rfl, rfl⟩
    · obtain ⟨front, back, split, position⟩ := ih later
      refine ⟨record :: front, back, by rw [split, cons_append], ?_⟩
      rw [position, logBytes_cons, length_append, Nat.add_assoc]

theorem fid_of_mem_located : found.1.fid = fileId := by
  obtain ⟨_, _, _, position⟩ := located_split member
  rw [position]

end

def LogRecordPst.Before (left right : LogRecordPst) : Prop :=
  left.fid < right.fid ∨ (left.fid = right.fid ∧ left.offset < right.offset)

theorem LogRecordPst.Before.ne {left right : LogRecordPst} (before : left.Before right) :
    left ≠ right := by
  rintro rfl
  rcases before with less | ⟨_, less⟩
  · exact Nat.lt_irrefl _ less
  · exact Nat.lt_irrefl _ less

theorem writtenBytes_length_pos (crc : Crc32c) {record : LogRecord} (keyed : record.key ≠ []) :
    0 < (writtenBytes crc record).length := by
  have positive : 6 < (encodeLogRecord crc record).length := encodeLogRecord_length_pos keyed
  rw [writtenBytes, length_take, maxTransfer]
  omega

theorem located_pairwise (crc : Crc32c) (fileId offset : Nat) {records : List LogRecord}
    (keyed : ∀ record ∈ records, record.key ≠ []) :
    (located crc fileId offset records).Pairwise fun left right => left.1.Before right.1 := by
  induction records generalizing offset with
  | nil => exact List.Pairwise.nil
  | cons record records ih =>
    refine List.Pairwise.cons ?_ (ih _ fun other member => keyed other (mem_cons_of_mem _ member))
    intro found member
    obtain ⟨front, back, _, position⟩ := located_split member
    have positive := writtenBytes_length_pos crc (keyed record mem_cons_self)
    rw [position]
    exact .inr ⟨rfl, by simp only; omega⟩

namespace FileLog

def located (crc : Crc32c) (file : FileLog) : List Located :=
  Bitdb.located crc file.fileId 0 file.records

theorem mem_located (crc : Crc32c) (file : FileLog) {record : LogRecord}
    (member : record ∈ file.records) : ∃ pst, (pst, record) ∈ file.located crc := by
  obtain ⟨front, back, split⟩ := append_of_mem member
  refine ⟨⟨file.fileId, 0 + (logBytes crc front).length⟩, ?_⟩
  rw [located, split, located_append, Bitdb.located]
  simp

def size (crc : Crc32c) (file : FileLog) : Nat := (logBytes crc file.records).length

def handle (level : Nat) (file : FileLog) : Handle := ⟨level, .data file.fileId⟩

def opened (crc : Crc32c) (level : Nat) (file : FileLog) : DataFile :=
  ⟨file.fileId, file.size crc, file.handle level⟩

end FileLog

/-- Every file of the first list is the beginning of a file of the second. -/
def Within (lower upper : List FileLog) : Prop :=
  ∀ file ∈ lower, ∃ whole ∈ upper, whole.fileId = file.fileId ∧ file.records <+: whole.records

theorem Within.of_subset {lower upper : List FileLog} (subset : ∀ file ∈ lower, file ∈ upper) :
    Within lower upper :=
  fun file member => ⟨file, subset file member, rfl, prefix_rfl⟩

theorem Within.refl (files : List FileLog) : Within files files :=
  .of_subset fun _ member => member

theorem Within.trans {lower middle upper : List FileLog} (first : Within lower middle)
    (second : Within middle upper) : Within lower upper := by
  intro file member
  obtain ⟨between, inside, id, begins⟩ := first file member
  obtain ⟨whole, last, id', begins'⟩ := second between inside
  exact ⟨whole, last, id'.trans id, begins.trans begins'⟩

theorem Within.last (older : List FileLog) {file grown : FileLog} (id : grown.fileId = file.fileId)
    (begins : file.records <+: grown.records) : Within (older ++ [file]) (older ++ [grown]) := by
  intro other member
  rcases mem_append.mp member with before | newest
  · exact ⟨other, mem_append_left _ before, rfl, prefix_rfl⟩
  · obtain rfl := mem_singleton.mp newest
    exact ⟨grown, by simp, id, begins⟩

namespace Log

def empty : Log := ⟨[], none⟩

def files (log : Log) : List FileLog := log.older ++ log.active.toList

def records (crc : Crc32c) (log : Log) : List Located := log.files.flatMap (·.located crc)

def current (log : Log) : FileLog := log.active.getD ⟨0, []⟩

def Fits (crc : Crc32c) (limit : Nat) (log : Log) (record : LogRecord) : Prop :=
  log.current.size crc + (encodeLogRecord crc record).length ≤ limit

instance (crc : Crc32c) (limit : Nat) (log : Log) (record : LogRecord) :
    Decidable (log.Fits crc limit record) := inferInstanceAs (Decidable (_ ≤ _))

def append (crc : Crc32c) (limit : Nat) (log : Log) (record : LogRecord) : Log :=
  if log.Fits crc limit record then
    ⟨log.older, some ⟨log.current.fileId, log.current.records ++ [record]⟩⟩
  else ⟨log.older ++ [log.current], some ⟨log.current.fileId + 1, [record]⟩⟩

theorem within_current (log : Log) : Within log.files (log.older ++ [log.current]) := by
  refine .of_subset fun file member => ?_
  cases active : log.active with
  | none =>
    have older : file ∈ log.older := by simpa [files, active] using member
    exact mem_append_left _ older
  | some last => simpa [files, current, active] using member

theorem within_append (crc : Crc32c) (limit : Nat) (log : Log) (record : LogRecord) :
    Within (log.older ++ [log.current]) (log.append crc limit record).files := by
  rw [append]
  split
  · exact Within.last log.older rfl (prefix_append _ _)
  · exact .of_subset fun file member => mem_append_left _ member

def place (crc : Crc32c) (limit : Nat) (log : Log) (record : LogRecord) : LogRecordPst :=
  if log.Fits crc limit record then ⟨log.current.fileId, log.current.size crc⟩
  else ⟨log.current.fileId + 1, 0⟩

variable {log : Log}

theorem records_pairwise {crc : Crc32c}
    (ascending : log.files.Pairwise fun left right => left.fileId < right.fileId)
    (keyed : ∀ found ∈ log.records crc, found.2.key ≠ []) :
    (log.records crc).Pairwise fun left right => left.1.Before right.1 := by
  refine pairwise_flatMap.mpr ⟨?_, ascending.imp ?_⟩
  · intro file inside
    refine located_pairwise crc file.fileId 0 fun record member => ?_
    obtain ⟨pst, found⟩ := file.mem_located crc member
    exact keyed _ (mem_flatMap.mpr ⟨file, inside, found⟩)
  · intro earlier later less left here right there
    obtain ⟨_, _, _, first⟩ := located_split here
    obtain ⟨_, _, _, second⟩ := located_split there
    rw [first, second]
    exact .inl less

theorem eq_of_position {crc : Crc32c} {left right : Located}
    (ordered : (log.records crc).Pairwise fun left right => left.1.Before right.1)
    (here : left ∈ log.records crc) (there : right ∈ log.records crc) (same : left.1 = right.1) :
    left = right := by
  have distinct : ((log.records crc).map Prod.fst).Nodup :=
    pairwise_map.mpr (ordered.imp LogRecordPst.Before.ne)
  exact inj_on_of_nodup_map distinct here there same

theorem files_active {last : FileLog} (active : log.active = some last) :
    log.files = log.older ++ [last] := by
  rw [files, active]
  rfl

theorem mem_files_active {last : FileLog} (active : log.active = some last) : last ∈ log.files := by
  simp [files_active active]

theorem files_unstarted (started : log.active = none → log.older = [])
    (unstarted : log.active = none) : log.files = [] := by
  rw [files, started unstarted, unstarted]
  rfl

theorem active_of_mem {file : FileLog} (started : log.active = none → log.older = [])
    (inside : file ∈ log.files) : ∃ last, log.active = some last := by
  cases active : log.active with
  | none =>
    rw [files_unstarted started active] at inside
    cases inside
  | some last => exact ⟨last, rfl⟩

/-- The log that has room for a record: the file it goes to exists. -/
def room (crc : Crc32c) (limit : Nat) (log : Log) (record : LogRecord) : Log :=
  if log.Fits crc limit record then ⟨log.older, some log.current⟩
  else ⟨log.older ++ [log.current], some ⟨log.current.fileId + 1, []⟩⟩

def appendAll (crc : Crc32c) (limit : Nat) (log : Log) (records : List LogRecord) : Log :=
  records.foldl (append crc limit) log

def locate (crc : Crc32c) (limit : Nat) : Log → List LogRecord → List Located
  | _, [] => []
  | log, record :: rest =>
    (log.place crc limit record, record) :: locate crc limit (log.append crc limit record) rest

section

variable (crc : Crc32c)

include crc

theorem files_located_current (log : Log) :
    log.records crc = log.older.flatMap (·.located crc) ++ log.current.located crc := by
  cases active : log.active with
  | none => simp [records, files, current, active, FileLog.located, located]
  | some file => simp [records, files, current, active]

section

variable (limit : Nat)

include limit

theorem records_room (log : Log) (record : LogRecord) :
    (log.room crc limit record).records crc = log.records crc := by
  rw [files_located_current crc log]
  by_cases fits : log.Fits crc limit record
  · simp only [room, fits, ↓reduceIte]
    simp [records, files]
  · simp only [room, fits, ↓reduceIte]
    simp [records, files, FileLog.located, located]

theorem exists_room (log : Log) (record : LogRecord) :
    ∃ last, (log.room crc limit record).active = some last ∧
      log.place crc limit record = ⟨last.fileId, last.size crc⟩ ∧
      log.append crc limit record =
        ⟨(log.room crc limit record).older, some ⟨last.fileId, last.records ++ [record]⟩⟩ := by
  rw [room, place, append]
  split
  · exact ⟨log.current, rfl, rfl, rfl⟩
  · exact ⟨⟨log.current.fileId + 1, []⟩, rfl, rfl, rfl⟩

theorem records_append (log : Log) (record : LogRecord) :
    (log.append crc limit record).records crc =
      log.records crc ++ [(log.place crc limit record, record)] := by
  rw [files_located_current crc log]
  by_cases fits : log.Fits crc limit record
  · simp only [append, place, fits, ↓reduceIte]
    simp [records, files, FileLog.located, located_append, located, FileLog.size]
  · simp only [append, place, fits, ↓reduceIte]
    simp [records, files, FileLog.located, located]

theorem appendAll_append (log : Log) (front back : List LogRecord) :
    log.appendAll crc limit (front ++ back) =
      (log.appendAll crc limit front).appendAll crc limit back :=
  foldl_append

theorem within_appendAll (log : Log) (records : List LogRecord) :
    Within log.files (log.appendAll crc limit records).files := by
  induction records generalizing log with
  | nil => exact .refl _
  | cons record rest ih =>
    exact (log.within_current.trans (log.within_append crc limit record)).trans
      (ih (log.append crc limit record))

theorem records_appendAll (log : Log) (records : List LogRecord) :
    (log.appendAll crc limit records).records crc =
      log.records crc ++ log.locate crc limit records := by
  induction records generalizing log with
  | nil => simp [appendAll, locate]
  | cons record rest ih =>
    have later := ih (log.append crc limit record)
    rw [records_append, append_assoc] at later
    exact later

theorem locate_append (log : Log) (front back : List LogRecord) :
    log.locate crc limit (front ++ back) =
      log.locate crc limit front ++ (log.appendAll crc limit front).locate crc limit back := by
  induction front generalizing log with
  | nil => rfl
  | cons record front ih =>
    rw [cons_append, locate, locate, ih, cons_append]
    rfl

theorem locate_records (log : Log) (records : List LogRecord) :
    (log.locate crc limit records).map Prod.snd = records := by
  induction records generalizing log with
  | nil => rfl
  | cons record rest ih => rw [locate, map_cons, ih]

end

end

end Log

end Bitdb
