import Bitdb.Base.Faults
import Bitdb.Data.DamageProperties
import Bitdb.MergeOutputProperties

/-! `Put` when the write transfers only some of the bytes. The count is added to the write offset
and otherwise forgotten. -/

set_option autoImplicit false

namespace Bitdb

open Base Program List DataFile

/-- The world when each of the next calls transfers only `count` bytes, if it is a write. -/
def World.short (count calls : Nat) (world : World) : World :=
  { world with script := List.replicate calls (.short count) }

def Session.short (count calls : Nat) (session : Session) : Session :=
  { session with world := session.world.short count calls }

/-- Every data file with bytes in it can be read record by record to its end. -/
def Fs.ReadsThrough (crc : Crc32c) (level : Nat) (fs : Fs) : Prop :=
  ∀ fileId content, fs.content? ⟨level, .data fileId⟩ = some content → content ≠ [] →
    ∃ found, readRecords crc content (content.length + 1) 0 = .ok found

section Calls

variable {α : Type} {count : Nat} {world : World}

theorem run_nextOutcome_short (calls : Nat) :
    nextOutcome.run (world.short count (calls + 1)) = (.ok (.short count), world.short count calls) :=
  rfl

theorem spends_call {call : Io α} {outcome : Except Stop α} {after : World}
    (ran : call.run world = (outcome, after))
    (short : ∀ calls, call.run (world.short count (calls + 1)) =
      (outcome, after.short count calls)) : Spends (World.short count) 1 call world := by
  intro calls
  rw [ran]
  exact ⟨calls, Nat.le_refl _, short calls⟩

theorem spends_openDataFile {level fileId : Nat} (reliable : world.script = [])
    (missing : world.fs.content? ⟨level, .data fileId⟩ = none) :
    Spends (World.short count) 1 (openDataFile level fileId) world := by
  refine spends_call (run_bind_ok (run_openFile_new reliable missing)) fun calls => ?_
  have created : (openFile ⟨level, .data fileId⟩).run (world.short count (calls + 1)) =
      (.ok (), (world.changed (world.fs.put ⟨level, .data fileId⟩ [])).short count calls) := by
    have absent : (world.short count calls).fs.content? ⟨level, .data fileId⟩ = none := missing
    rw [openFile, run_bind_ok (run_nextOutcome_short calls), run_read_bind, absent]
    rfl
  exact run_bind_ok created

theorem DataFile.run_write_short {file : DataFile} {old bytes : List Byte} (calls : Nat)
    (found : world.fs.content? file.handle = some old)
    (most : count ≤ min bytes.length maxTransfer) :
    (file.write bytes).run (world.short count (calls + 1)) =
      (.ok { file with writeOff := file.writeOff + count },
        (world.written file.handle (old ++ bytes.take count) bytes).short count calls) := by
  have found' : (world.short count calls).fs.content? file.handle = some old := found
  have written : (fileWrite file.handle bytes).run (world.short count (calls + 1)) =
      (.ok (count : Int),
        (world.written file.handle (old ++ bytes.take count) bytes).short count calls) := by
    rw [fileWrite, run_bind_ok (run_nextOutcome_short calls)]
    simp [transfer, modifyFs, found', World.written, Nat.min_eq_left most]
    rfl
  have notNegative : ¬ (count : Int) < 0 := by omega
  rw [write, run_bind_ok written, if_neg notNegative, Int.toNat_natCast]
  rfl

end Calls

def withPart (crc : Crc32c) (active : FileLog) (record : LogRecord) (count : Nat)
    (session : Session) : Session :=
  let handle := active.handle session.db.options.dirPath.level
  { db := { session.db with
      activeFile := some ⟨active.fileId, active.size crc + count, handle⟩ }
    world := session.world.written handle
      (logBytes crc active.records ++ (encodeLogRecord crc record).take count)
      (encodeLogRecord crc record) }

section Append

variable {env : Platform} {session : Session} {log : Log} {count : Nat}

theorem spends_io {α : Type} {call : Io α} {most : Nat}
    (spends : Spends (World.short count) most call session.world) :
    Spends (Session.short count) most (io call) session :=
  spends.focus (fun _ => rfl) fun _ _ _ => rfl

theorem spends_newActiveDataFile (reliable : session.world.script = [])
    (missing : session.world.fs.content? ⟨session.level, .data session.db.nextFileId⟩ = none) :
    Spends (Session.short count) 1 newActiveDataFile session := by
  refine Spends.bind 0 1 (.steady fun _ => rfl) ?_
  rintro _ _ ⟨⟩
  exact Spends.bind 1 0 (spends_io (spends_openDataFile reliable missing))
    fun _ _ _ => .steady fun _ => rfl

theorem Attached.spends_ensureActive (attached : Attached env session log) :
    Spends (Session.short count) 1 ensureActive session := by
  refine Spends.bind 0 1 (.steady fun _ => rfl) ?_
  rintro _ _ ⟨⟩
  split
  · exact spends_newActiveDataFile attached.reliable (attached.stored.missing attached.fresh)
  · exact .steady fun _ => rfl

theorem spends_derefActive {file : DataFile} (active : session.db.activeFile = some file) :
    Spends (Session.short count) 0 derefActive session := by
  refine .steady fun calls => ?_
  have same : (session.short count calls).db.activeFile = some file := active
  rw [run_derefActive active, run_derefActive same]

variable (attached : Attached env session log)

include attached

theorem Attached.spends_makeRoom (size : Nat) :
    Spends (Session.short count) 3 (makeRoom size) session := by
  obtain ⟨middle, started, attached', _⟩ := attached.run_ensureActive
  refine Spends.bind 1 2 attached.spends_ensureActive ?_
  intro _ reached ran
  cases started.symm.trans ran
  refine Spends.bind 0 2 (spends_derefActive attached'.active) ?_
  intro active reached ran
  cases (run_derefActive attached'.active).symm.trans ran
  refine Spends.bind 0 2 (.steady fun _ => rfl) ?_
  rintro _ _ ⟨⟩
  split
  · refine Spends.bind 1 1 (spends_io (spends_call (run_sync attached'.reliable) fun _ => rfl)) ?_
    intro _ reached ran
    cases (run_io (run_sync attached'.reliable)).symm.trans ran
    refine Spends.bind 0 1 (.steady fun _ => rfl) ?_
    rintro _ _ ⟨⟩
    exact spends_newActiveDataFile attached'.reliable (attached'.stored.missing attached'.fresh)
  · exact .steady fun _ => rfl

theorem Attached.run_writeActive_short {last : FileLog} {record : LogRecord} {calls : Nat}
    (active : log.active = some last)
    (most : count ≤ min (encodeLogRecord env.crc record).length maxTransfer) (enough : 2 ≤ calls) :
    ∃ rest, (writeActive (encodeLogRecord env.crc record)).run (session.short count calls) =
      (.ok ⟨last.fileId, last.size env.crc⟩,
        (withPart env.crc last record count session).short count rest) := by
  obtain ⟨rest, rfl⟩ : ∃ rest, calls = rest + 1 + 1 := ⟨calls - 2, by omega⟩
  have pointed : (session.short count (rest + 1 + 1)).db.activeFile =
      some (last.opened env.crc session.level) := attached.pointed active
  have found : session.world.fs.content?
      (last.opened env.crc session.level).handle =
        some (logBytes env.crc last.records) := attached.content_active active
  have writing : (io ((last.opened env.crc session.level).write
      (encodeLogRecord env.crc record))).run (session.short count (rest + 1 + 1)) = _ :=
    run_io (run_write_short (rest + 1) found most)
  rw [writeActive, run_bind_ok (run_derefActive pointed), run_bind_ok writing, run_modifyDb_bind,
    run_readDb_bind]
  by_cases flush : session.db.options.isSyncWrite
  · simp only [Session.short, flush, ↓reduceIte]
    exact ⟨rest, rfl⟩
  · simp only [Session.short, flush]
    exact ⟨rest + 1, rfl⟩

theorem Attached.run_put_short {key : Bytes} (nonempty : key.empty = false) (value : Bytes)
    (most : count ≤ min (encodeLogRecord env.crc (putRecord key value)).length maxTransfer) :
    ∃ middle last rest,
      Attached env middle
        (log.room env.crc session.limit (putRecord key value)) ∧
      (log.room env.crc session.limit (putRecord key value)).active = some last ∧
      AppendFrame session middle ∧
      (put env key value).run (session.short count 5) =
        (.ok .ok, ((withPart env.crc last (putRecord key value) count middle).withIndex
          (session.db.index.insert key.cString ⟨last.fileId, last.size env.crc⟩)).short
            count rest) := by
  obtain ⟨middle, ran, attached', frame, _⟩ := attached.run_makeRoom (putRecord key value)
  obtain ⟨last, active, _⟩ := log.exists_room env.crc session.limit (putRecord key value)
  obtain ⟨calls, enough, room⟩ :=
    attached.spends_makeRoom (encodeLogRecord env.crc (putRecord key value)).length 2
  rw [ran] at room
  obtain ⟨rest, written⟩ := attached'.run_writeActive_short active most enough
  have appended : (appendLogRecord env (putRecord key value)).run (session.short count 5) = _ :=
    (run_bind_ok room).trans written
  refine ⟨middle, last, rest, attached', active, frame, ?_⟩
  simp only [put, nonempty, Bool.false_eq_true, ↓reduceIte,
    encodeLogRecordWithTxnID_small key zero_small, run_ofExcept_ok_bind]
  rw [← frame.index]
  exact (run_bind_ok appended).trans rfl

end Append

section Read

variable {env : Platform} {session : Session} {log : Log} {last : FileLog}

theorem run_getValue_ok_iff {pst : LogRecordPst} {file : DataFile} {value : List Byte}
    (pointed : (dataFilePtr pst.fid).run session = (.ok (some file), session)) (key : Bytes) :
    ((getValueByLogRecordPst env pst key true).run session).1 = .ok value ↔
      ∃ record size, readLogRecord env.crc (session.world.fs.content file.handle) pst.offset =
        .ok (record, size) ∧ record.type ≠ .deleted ∧ record.value = value := by
  have read : (io (file.readLogRecordAt env.crc pst.offset)).run session =
      (readLogRecord env.crc (session.world.fs.content file.handle) pst.offset, session) := by
    refine run_io ?_
    rw [readLogRecordAt, run_read_bind, run_ofExcept]
  rw [getValueByLogRecordPst, run_bind_ok pointed]
  cases found : readLogRecord env.crc (session.world.fs.content file.handle) pst.offset with
  | error stop =>
    rw [found] at read
    simp [run_bind_error read]
  | ok pair =>
    obtain ⟨record, size⟩ := pair
    rw [found] at read
    by_cases deleted : record.type = .deleted
    · simp [run_bind_ok read, deleted]
    · simp [run_bind_ok read, deleted]

theorem run_get_indexed {key : Bytes} {pst : LogRecordPst} (nonempty : key.empty = false)
    (indexed : session.db.index.lookup key.cString = some pst) :
    (get env key true).run session = (getValueByLogRecordPst env pst key true).run session := by
  simp only [get, nonempty, Bool.false_eq_true, ↓reduceIte, run_readDb_bind, Indexer.get, indexed]

theorem run_get_unindexed {key : Bytes} (nonempty : key.empty = false)
    (missing : session.db.index.lookup key.cString = none) :
    (get env key true).run session = (.error (.failed (.notFound "index"
      ("index of key " ++ text key.toString ++ " not_found"))), session) := by
  simp only [get, nonempty, Bool.false_eq_true, ↓reduceIte, run_readDb_bind, Indexer.get, missing]
  rfl

/-- The object holds the same files, but there are more bytes behind the last record. -/
structure Trails (crc : Crc32c) (session : Session) (last : FileLog) (extra : List Byte)
    (reached : Session) : Prop where
  active : ∃ writeOff, reached.db.activeFile =
    some ⟨last.fileId, writeOff, last.handle session.db.options.dirPath.level⟩
  older : reached.db.olderFiles = session.db.olderFiles
  fs : reached.world.fs = session.world.fs.put (last.handle session.db.options.dirPath.level)
    (logBytes crc last.records ++ extra)

variable {extra : List Byte} {reached : Session} {live : List Byte → Option Slot}

section

variable (trails : Trails env.crc session last extra reached)

include trails

section

variable (attached : Attached env session log)

include attached

theorem Trails.content_last :
    reached.world.fs.content (last.handle session.level) =
      logBytes env.crc last.records ++ extra := by
  rw [trails.fs]
  exact Fs.content_of_content? (Fs.content?_put_same attached.stored.present)

theorem Trails.content {file : FileLog} (active : log.active = some last)
    (inside : file ∈ log.files) :
    ∃ more, reached.world.fs.content (file.handle session.level) =
      logBytes env.crc file.records ++ more := by
  have stored := attached.stored.content file inside
  rw [Log.files_active active] at inside
  rcases mem_append.mp inside with older | newest
  · have different := (Nat.ne_of_lt (attached.older_lt active file older)).symm
    refine ⟨[], ?_⟩
    rw [trails.fs, append_nil]
    exact Fs.content_of_content? ((Fs.content?_put_ne (FileLog.handle_ne different)).trans stored)
  · have same : file = last := by simpa using newest
    subst same
    exact ⟨extra, trails.content_last attached⟩

theorem Trails.run_dataFilePtr {file : FileLog} (active : log.active = some last)
    (inside : file ∈ log.files) :
    ∃ writeOff, (dataFilePtr file.fileId).run reached =
      (.ok (some ⟨file.fileId, writeOff, file.handle session.level⟩), reached) := by
  obtain ⟨writeOff, pointed⟩ := trails.active
  have table := attached.older
  rw [← trails.older] at table
  rw [Log.files_active active] at inside
  exact Bitdb.run_dataFilePtr pointed table inside

theorem Trails.getValue_located {found : Located} (active : log.active = some last)
    (whole : log.Whole env.crc) (member : found ∈ log.records env.crc)
    (kept : found.2.type ≠ .deleted) (key : Bytes) :
    ((getValueByLogRecordPst env found.1 key true).run reached).1 = .ok found.2.value := by
  obtain ⟨file, inside, here⟩ := mem_flatMap.mp member
  obtain ⟨more, content⟩ := trails.content attached active inside
  obtain ⟨fid, read⟩ := file.read_located (whole.storable inside) here more
  obtain ⟨writeOff, pointed⟩ := trails.run_dataFilePtr attached active inside
  rw [← fid] at pointed
  rw [← content] at read
  exact (run_getValue_ok_iff pointed key).mpr ⟨_, _, read, kept, rfl⟩

end

theorem Trails.get_other {key other : Bytes} {pst : LogRecordPst}
    (serves : Serves env session log live) (active : log.active = some last)
    (index : reached.db.index = session.db.index.insert key.cString pst)
    (different : other.cString ≠ key.cString) :
    ((get env other true).run reached).1 = ((get env other true).run session).1 := by
  cases empty : other.empty with
  | true => rw [run_get_empty empty, run_get_empty empty]
  | false =>
    have lookup : reached.db.index.lookup other.cString = (live other.cString).map (·.pst) := by
      rw [index, AList.lookup_insert_ne different, serves.shows]
    rw [serves.run_get empty]
    cases here : live other.cString with
    | none =>
      rw [here] at lookup
      rw [run_get_unindexed empty lookup]
    | some slot =>
      rw [here] at lookup
      obtain ⟨found, member, position, value, kept⟩ := serves.carried _ slot here
      rw [run_get_indexed empty lookup]
      have got := trails.getValue_located serves.attached active serves.whole member kept other
      rw [position, value] at got
      exact got

end

theorem readRecords_whole {crc : Crc32c} {records : List LogRecord}
    (storable : ∀ record ∈ records, record.Storable crc) (nonempty : fileBytes crc records ≠ []) :
    ∃ found, readRecords crc (fileBytes crc records) ((fileBytes crc records).length + 1) 0 =
      .ok found := by
  have enough : records.length < (fileBytes crc records).length + 1 :=
    Nat.lt_succ_of_le (length_le_fileBytes fun record member => (storable record member).keyed)
  have read := readRecords_fileBytes [] records ((fileBytes crc records).length + 1) storable
    nonempty enough
  exact ⟨_, read⟩

theorem Trails.readsThrough {records : List LogRecord}
    (trails : Trails env.crc session last extra reached) (attached : Attached env session log)
    (whole : log.Whole env.crc) (storable : ∀ record ∈ records, record.Storable env.crc)
    (bytes : logBytes env.crc last.records ++ extra = fileBytes env.crc records) :
    reached.world.fs.ReadsThrough env.crc session.level := by
  intro fileId content found nonempty
  by_cases same : fileId = last.fileId
  · subst same
    have content' := Fs.content_of_content? found
    rw [show (⟨_, .data last.fileId⟩ : Handle) = last.handle session.level
      from rfl, trails.content_last attached, bytes] at content'
    subst content'
    exact readRecords_whole storable nonempty
  · have elsewhere : last.handle session.level ≠ ⟨session.level, .data fileId⟩ :=
      FileLog.handle_ne (show last.fileId ≠ (⟨fileId, []⟩ : FileLog).fileId from Ne.symm same)
    rw [trails.fs, Fs.content?_put_ne elsewhere] at found
    obtain ⟨file, inside, rfl⟩ := attached.stored.only fileId (by rw [found]; rfl)
    cases found.symm.trans (attached.stored.content file inside)
    rw [logBytes_eq_fileBytes (whole.storable inside)] at nonempty ⊢
    exact readRecords_whole (whole.storable inside) nonempty

theorem Trails.get_key_iff {key : Bytes} {value : List Byte}
    (trails : Trails env.crc session last extra reached) (attached : Attached env session log)
    (active : log.active = some last) (nonempty : key.empty = false)
    (indexed : reached.db.index.lookup key.cString = some ⟨last.fileId, last.size env.crc⟩) :
    ((get env key true).run reached).1 = .ok value ↔
      ∃ record size, readLogRecord env.crc (logBytes env.crc last.records ++ extra)
        (logBytes env.crc last.records).length = .ok (record, size) ∧
          record.type ≠ .deleted ∧ record.value = value := by
  obtain ⟨writeOff, pointed⟩ := trails.run_dataFilePtr attached active (Log.mem_files_active active)
  rw [run_get_indexed nonempty indexed, run_getValue_ok_iff pointed key,
    trails.content_last attached, FileLog.size]

theorem Attached.room_nonempty_iff {record : LogRecord} (attached : Attached env session log)
    (active : (log.room env.crc session.limit record).active = some last) :
    logBytes env.crc last.records ≠ [] ↔
      ∃ file, session.db.activeFile = some file ∧ 0 < file.writeOff ∧
        file.writeOff + (encodeLogRecord env.crc record).length ≤ session.limit := by
  have pointed := attached.active
  rw [Log.room] at active
  by_cases fits : log.Fits env.crc session.limit record
  · rw [if_pos fits] at active
    cases active
    cases present : log.active with
    | none =>
      rw [present] at pointed
      simp [Log.current, present, pointed]
    | some file =>
      rw [Log.Fits, Log.current, present] at fits
      rw [present] at pointed
      have same : log.current = file := by rw [Log.current, present]; rfl
      rw [same, ← length_pos_iff]
      constructor
      · intro positive
        exact ⟨_, pointed, positive, fits⟩
      · rintro ⟨other, found, positive, _⟩
        cases pointed.symm.trans found
        exact positive
  · rw [if_neg fits] at active
    cases active
    refine ⟨fun nonempty => absurd rfl nonempty, ?_⟩
    rintro ⟨file, found, positive, small⟩
    cases present : log.active with
    | none =>
      rw [present, found] at pointed
      cases pointed
    | some last =>
      rw [present, found] at pointed
      cases pointed
      refine absurd ?_ fits
      rw [Log.Fits, Log.current, present]
      exact small

end Read

/-- What an acknowledged `Put` promises: the value is returned, the other keys are as they
were, and the log can be read to its end. -/
structure PutHolds (env : Platform) (before : Session) (key value : Bytes) (after : Session) :
    Prop where
  stored : ((get env key true).run after).1 = .ok value.cString
  others : ∀ other : Bytes, other.cString ≠ key.cString →
    ((get env other true).run after).1 = ((get env other true).run before).1
  readable : after.world.fs.ReadsThrough env.crc before.db.options.dirPath.level

/-- The short count does no harm: there is nothing to write, all is written, or nothing is
written of an empty value for which the end of a file is taken. -/
def HarmlessCount (env : Platform) (session : Session) (key value : Bytes) (count : Nat) : Prop :=
  key.empty = true ∨ count = (encodeLogRecord env.crc (putRecord key value)).length ∨
    (count = 0 ∧ value.cString = [] ∧ ∃ file, session.db.activeFile = some file ∧
      0 < file.writeOff ∧
      file.writeOff + (encodeLogRecord env.crc (putRecord key value)).length ≤
        session.db.options.dataFileSize)

section Put

variable {env : Platform} {session : Session} {log : Log} {live : List Byte → Option Slot}
  {log' : Log} {count : Nat}

theorem Serves.room {middle : Session} {record : LogRecord} (serves : Serves env session log live)
    (attached : Attached env middle
      (log.room env.crc session.limit record)) (frame : AppendFrame session middle) :
    Serves env middle (log.room env.crc session.limit record) live := by
  refine ⟨attached, ?_, ?_, ?_⟩
  · intro found member
    rw [Log.records_room] at member
    exact serves.whole found member
  · rw [frame.index]
    exact serves.shows
  · intro key slot here
    rw [Log.records_room]
    exact serves.carried key slot here

theorem putRecord_keyed (key value : Bytes) : (putRecord key value).key ≠ [] := by
  intro empty
  have positive := encodeVarint64_length_pos nonTxnId
  rw [(append_eq_nil_iff.mp empty).1] at positive
  cases positive

/-- `Put` has written the first bytes of its record behind the records of the active file. -/
structure PartPut (env : Platform) (session : Session) (key value : Bytes) (count : Nat)
    (last : FileLog) (reached : Session) : Prop where
  ran : (put env key value).run (session.short count 5) = (.ok .ok, reached)
  storable : ∀ record ∈ last.records, record.Storable env.crc
  room : logBytes env.crc last.records ≠ [] ↔
    ∃ file, session.db.activeFile = some file ∧ 0 < file.writeOff ∧
      file.writeOff + (encodeLogRecord env.crc (putRecord key value)).length ≤
        session.db.options.dataFileSize
  get : ∀ found, ((get env key true).run reached).1 = .ok found ↔
    ∃ record size, readLogRecord env.crc (logBytes env.crc last.records ++
      (encodeLogRecord env.crc (putRecord key value)).take count)
        (logBytes env.crc last.records).length = .ok (record, size) ∧
          record.type ≠ .deleted ∧ record.value = found
  others : ∀ other : Bytes, other.cString ≠ key.cString →
    ((Bitdb.get env other true).run reached).1 = ((Bitdb.get env other true).run session).1
  readable : ∀ records : List LogRecord, (∀ record ∈ records, record.Storable env.crc) →
    logBytes env.crc last.records ++
      (encodeLogRecord env.crc (putRecord key value)).take count = fileBytes env.crc records →
        reached.world.fs.ReadsThrough env.crc session.db.options.dirPath.level

theorem Serves.run_put_short {key : Bytes} (serves : Serves env session log live)
    (nonempty : key.empty = false) (value : Bytes)
    (most : count ≤ min (encodeLogRecord env.crc (putRecord key value)).length maxTransfer) :
    ∃ last reached, PartPut env session key value count last reached := by
  obtain ⟨middle, last, rest, attached, active, frame, ran⟩ :=
    serves.attached.run_put_short nonempty value most
  have trails : Trails env.crc middle last ((encodeLogRecord env.crc (putRecord key value)).take
      count) (((withPart env.crc last (putRecord key value) count middle).withIndex
        (session.db.index.insert key.cString ⟨last.fileId, last.size env.crc⟩)).short count rest) :=
    ⟨⟨_, rfl⟩, rfl, rfl⟩
  have served := serves.room attached frame
  refine ⟨last, _, ran, served.whole.storable (Log.mem_files_active active),
    serves.attached.room_nonempty_iff active, fun found => ?_, fun other different => ?_,
    fun records storable bytes => ?_⟩
  · exact trails.get_key_iff attached active nonempty (AList.lookup_insert _)
  · have index := congrArg (AList.insert key.cString
      (⟨last.fileId, last.size env.crc⟩ : LogRecordPst)) frame.index.symm
    rw [trails.get_other served active index different]
    exact served.same_get serves rfl
  · rw [← frame.options]
    exact trails.readsThrough attached served.whole storable bytes

section Part

variable {key value : Bytes} {last : FileLog} {reached : Session}

theorem PartPut.holds_whole (put : PartPut env session key value count last reached)
    (most : count ≤ maxTransfer)
    (all : count = (encodeLogRecord env.crc (putRecord key value)).length) :
    PutHolds env session key value reached := by
  have storable : (putRecord key value).Storable env.crc := ⟨putRecord_keyed key value, by omega⟩
  have whole : (encodeLogRecord env.crc (putRecord key value)).take count =
      encodeLogRecord env.crc (putRecord key value) := by
    rw [all, take_length]
  have read := readLogRecord_at storable (logBytes env.crc last.records) []
  rw [append_nil, ← whole] at read
  refine ⟨(put.get _).mpr ⟨_, _, read, by simp [putRecord], rfl⟩, put.others,
    put.readable (last.records ++ [putRecord key value]) ?_ ?_⟩
  · intro record member
    rcases mem_append.mp member with old | new
    · exact put.storable record old
    · rw [mem_singleton.mp new]
      exact storable
  · rw [whole, logBytes_eq_fileBytes put.storable]
    simp

theorem PartPut.holds_nothing (put : PartPut env session key value 0 last reached)
    (noValue : value.cString = []) (behind : logBytes env.crc last.records ≠ []) :
    PutHolds env session key value reached := by
  have read := readLogRecord_end env.crc behind
  refine ⟨(put.get _).mpr ⟨.blank, 0, ?_, by simp [LogRecord.blank], ?_⟩, put.others,
    put.readable last.records put.storable ?_⟩
  · rw [take_zero, append_nil]
    exact read
  · rw [noValue]
    rfl
  · rw [take_zero, append_nil]
    exact logBytes_eq_fileBytes put.storable

theorem PartPut.of_get (put : PartPut env session key value count last reached)
    (short : (putRecord key value).key.length < 2 ^ 32)
    (most : count ≤ (encodeLogRecord env.crc (putRecord key value)).length)
    (got : ((Bitdb.get env key true).run reached).1 = .ok value.cString) :
    count = (encodeLogRecord env.crc (putRecord key value)).length ∨
      (count = 0 ∧ value.cString = [] ∧ logBytes env.crc last.records ≠ []) := by
  obtain ⟨found, size, read, _, same⟩ := (put.get _).mp got
  rcases Nat.eq_zero_or_pos count with nothing | some_
  · subst nothing
    refine .inr ⟨rfl, ?_⟩
    rw [take_zero, append_nil] at read
    by_cases bytes : logBytes env.crc last.records = []
    · rw [bytes, readLogRecord_empty] at read
      cases read
    · rw [readLogRecord_end env.crc bytes] at read
      cases read
      exact ⟨same.symm, bytes⟩
  · refine .inl (Nat.le_antisymm most (Nat.not_lt.mp fun fewer => ?_))
    have less := readLogRecord_torn (putRecord_keyed key value) short _ some_ fewer read
    rw [same] at less
    exact Nat.lt_irrefl _ less

end Part

end Put

end Bitdb
