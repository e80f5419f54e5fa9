import Bitdb.Log

/-! What `AppendLogRecord` does to the log. A database is attached to a log when its file table and
the disk both say what the log says. -/

set_option autoImplicit false

namespace Bitdb

open Base List Program DataFile Log

/-- The directory of an open database. -/
abbrev Session.level (session : Session) : Nat := session.db.options.dirPath.level

/-- The size beyond which it begins a new data file. -/
abbrev Session.limit (session : Session) : Nat := session.db.options.dataFileSize

section Primitives

variable {α β : Type} {session : Session}

@[simp] theorem run_readDb_bind (next : DB → Method β) :
    (readDb >>= next).run session = (next session.db).run session := rfl

@[simp] theorem run_modifyDb (change : DB → DB) :
    (modifyDb change).run session = (.ok (), { session with db := change session.db }) := rfl

@[simp] theorem run_modifyDb_bind (change : DB → DB) (next : Unit → Method β) :
    (modifyDb change >>= next).run session =
      (next ()).run { session with db := change session.db } := rfl

theorem run_io {call : Io α} {outcome : Except Stop α} {world : World}
    (ran : call.run session.world = (outcome, world)) :
    (io call).run session = (outcome, { session with world }) :=
  run_focus ran

theorem run_io_bind {call : Io α} {value : α} {world : World} {next : α → Method β}
    (ran : call.run session.world = (.ok value, world)) :
    (io call >>= next).run session = (next value).run { session with world } :=
  run_bind_ok (run_io ran)

theorem run_derefActive {file : DataFile} (active : session.db.activeFile = some file) :
    derefActive.run session = (.ok file, session) := by
  simp [derefActive, active]

theorem run_derefActive_none (unstarted : session.db.activeFile = none) :
    derefActive.run session = (.error (.faulted .nullPointer), session) := by
  simp [derefActive, unstarted]

theorem run_checkTrue_bind {σ : Type} {state : σ} {expression function debug : String} {line : Nat}
    {next : Unit → Program σ Stop β} :
    (checkTrue true expression line function debug >>= next).run state = (next ()).run state := rfl

end Primitives

structure FilesStored (crc : Crc32c) (fs : Fs) (level : Nat) (files : List FileLog) : Prop where
  present : (fs.dir? level).isSome
  ascending : files.Pairwise fun left right => left.fileId < right.fileId
  content : ∀ file ∈ files, fs.content? (file.handle level) = some (logBytes crc file.records)
  only : ∀ fileId, (fs.content? ⟨level, .data fileId⟩).isSome → ∃ file ∈ files, file.fileId = fileId

/-- A database object whose file table and disk agree with the log. The write offset
of an older file is never used again, so it is left open, and the table may hold null
pointers besides. -/
structure Attached (env : Platform) (session : Session) (log : Log) : Prop where
  reliable : session.world.script = []
  stored : FilesStored env.crc session.world.fs session.db.options.dirPath.level log.files
  started : log.active = none → log.older = []
  active : session.db.activeFile =
    log.active.map (·.opened env.crc session.db.options.dirPath.level)
  older : ∀ file ∈ log.older, ∃ writeOff, session.db.olderFiles.lookup file.fileId =
    some (some ⟨file.fileId, writeOff, file.handle session.db.options.dirPath.level⟩)
  olderOnly : ∀ fileId file, session.db.olderFiles.lookup fileId = some (some file) →
    ∃ other ∈ log.older, other.fileId = fileId
  next : session.db.nextFileId = match log.active with
    | none => 0
    | some file => file.fileId + 1

/-- What a call that only appends leaves alone: the settings of the object, the null
pointers of its table, the directories and every file that is not a data file of its
own. -/
structure CallFrame (before after : Session) : Prop where
  options : after.db.options = before.db.options
  fileIds : after.db.fileIds = before.db.fileIds
  txnId : after.db.txnId = before.db.txnId
  isMerging : after.db.isMerging = before.db.isMerging
  nulls : ∀ fileId, after.db.olderFiles.lookup fileId = some none →
    before.db.olderFiles.lookup fileId = some none
  levels : after.world.fs.dirs.length = before.world.fs.dirs.length
  others : ∀ handle : Handle,
    (handle.level ≠ before.db.options.dirPath.level ∨ ∀ fileId, handle.name ≠ .data fileId) →
      after.world.fs.content? handle = before.world.fs.content? handle

structure AppendFrame (before after : Session) : Prop extends CallFrame before after where
  index : after.db.index = before.db.index

theorem CallFrame.level {before after : Session} (frame : CallFrame before after) :
    after.level = before.level :=
  congrArg (·.dirPath.level) frame.options

theorem AppendFrame.refl (session : Session) : AppendFrame session session :=
  ⟨⟨rfl, rfl, rfl, rfl, fun _ found => found, rfl, fun _ _ => rfl⟩, rfl⟩

theorem CallFrame.trans {first second third : Session} (front : CallFrame first second)
    (back : CallFrame second third) : CallFrame first third where
  options := back.options.trans front.options
  fileIds := back.fileIds.trans front.fileIds
  txnId := back.txnId.trans front.txnId
  isMerging := back.isMerging.trans front.isMerging
  nulls := fun fileId found => front.nulls fileId (back.nulls fileId found)
  levels := back.levels.trans front.levels
  others := by
    intro handle outside
    have outside' := outside
    rw [← front.options] at outside'
    exact (back.others handle outside').trans (front.others handle outside)

theorem AppendFrame.trans {first second third : Session} (front : AppendFrame first second)
    (back : AppendFrame second third) : AppendFrame first third :=
  ⟨front.toCallFrame.trans back.toCallFrame, back.index.trans front.index⟩

def Session.withIndex (session : Session) (index : Indexer) : Session :=
  { session with db := { session.db with index } }

theorem AppendFrame.withIndex {before after : Session} (frame : AppendFrame before after)
    (index : Indexer) : CallFrame before (after.withIndex index) :=
  ⟨frame.options, frame.fileIds, frame.txnId, frame.isMerging, frame.nulls, frame.levels,
    frame.others⟩

theorem FileLog.handle_ne {level : Nat} {left right : FileLog}
    (different : left.fileId ≠ right.fileId) : left.handle level ≠ right.handle level := by
  intro same
  injection same with _ names
  injection names with ids
  exact different ids

namespace FilesStored

variable {crc : Crc32c} {fs : Fs} {level : Nat} {files : List FileLog}

section

variable (stored : FilesStored crc fs level files)

include stored

theorem of_same {fs' : Fs} (present : (fs'.dir? level).isSome)
    (same : ∀ fileId, fs'.content? ⟨level, .data fileId⟩ = fs.content? ⟨level, .data fileId⟩) :
    FilesStored crc fs' level files where
  present := present
  ascending := stored.ascending
  content := fun file member => (same file.fileId).trans (stored.content file member)
  only := by
    intro fileId found
    rw [same] at found
    exact stored.only fileId found

variable {fileId : Nat}

theorem replace {older : List FileLog} (kept : older.Sublist files)
    (rest : ∀ file ∈ files, file ∈ older ∨ file.fileId = fileId)
    (below : ∀ file ∈ older, file.fileId < fileId) (records : List LogRecord) :
    FilesStored crc (fs.put ⟨level, .data fileId⟩ (logBytes crc records)) level
      (older ++ [⟨fileId, records⟩]) where
  present := by
    rw [Fs.dir?_put_isSome]
    exact stored.present
  ascending := by
    refine pairwise_append.mpr ⟨stored.ascending.sublist kept, pairwise_singleton _ _, ?_⟩
    intro file member last same
    rw [mem_singleton.mp same]
    exact below file member
  content := by
    intro file member
    rcases mem_append.mp member with before | newest
    · have different : (⟨fileId, records⟩ : FileLog).fileId ≠ file.fileId :=
        (Nat.ne_of_lt (below file before)).symm
      exact (Fs.content?_put_ne (FileLog.handle_ne different)).trans
        (stored.content file (kept.subset before))
    · rw [mem_singleton.mp newest]
      exact Fs.content?_put_same stored.present
  only := by
    intro other found
    by_cases same : other = fileId
    · exact ⟨⟨fileId, records⟩, by simp, same.symm⟩
    · have different : (⟨level, .data fileId⟩ : Handle) ≠ ⟨level, .data other⟩ := by
        simpa using Ne.symm same
      rw [Fs.content?_put_ne different] at found
      obtain ⟨file, member, id⟩ := stored.only other found
      rcases rest file member with before | newest
      · exact ⟨file, mem_append_left _ before, id⟩
      · exact absurd (id.symm.trans newest) same

variable (fresh : ∀ file ∈ files, file.fileId < fileId)

include fresh

theorem missing : fs.content? ⟨level, .data fileId⟩ = none := by
  by_contra found
  obtain ⟨file, member, same⟩ := stored.only fileId (Option.isSome_iff_ne_none.mpr found)
  have less := fresh file member
  omega

theorem create :
    FilesStored crc (fs.put ⟨level, .data fileId⟩ []) level (files ++ [⟨fileId, []⟩]) :=
  stored.replace (Sublist.refl _) (fun _ => .inl) fresh []

end

theorem extend {older : List FileLog} {last : FileLog}
    (stored : FilesStored crc fs level (older ++ [last])) (record : LogRecord) :
    FilesStored crc
      (fs.put (last.handle level) (logBytes crc last.records ++ writtenBytes crc record)) level
      (older ++ [⟨last.fileId, last.records ++ [record]⟩]) := by
  have bytes : logBytes crc last.records ++ writtenBytes crc record =
      logBytes crc (last.records ++ [record]) := by simp [logBytes_append]
  rw [bytes]
  refine stored.replace (sublist_append_left _ _) ?_ ?_ _
  · intro file member
    exact (mem_append.mp member).imp id (fun newest => by rw [mem_singleton.mp newest])
  · intro file before
    exact (pairwise_append.mp stored.ascending).2.2 file before last (by simp)

end FilesStored

/-- Data files on the way of a call that appends `records` to the log: they lie between
those before and after the call, and hold the log after the first so many records. -/
structure Partway (crc : Crc32c) (limit : Nat) (log : Log) (records : List LogRecord)
    (files : List FileLog) : Prop where
  lower : Within log.files files
  upper : Within files (log.appendAll crc limit records).files
  front : ∃ front, front <+: records ∧
    files.flatMap (·.located crc) = (log.appendAll crc limit front).records crc

namespace Log

variable (crc : Crc32c) (limit : Nat) (log : Log)

theorem partway_current (record : LogRecord) :
    Partway crc limit log [record] (log.older ++ [log.current]) := by
  refine ⟨log.within_current, log.within_append crc limit record, [], nil_prefix, ?_⟩
  rw [flatMap_append, flatMap_singleton]
  exact (log.files_located_current crc).symm

theorem partway_rotated {record : LogRecord} (full : ¬ log.Fits crc limit record) :
    Partway crc limit log [record]
      (log.older ++ [log.current] ++ [⟨log.current.fileId + 1, []⟩]) := by
  refine ⟨log.within_current.trans (.of_subset fun file member => mem_append_left _ member),
    ?_, [], nil_prefix, ?_⟩
  · have appended : log.appendAll crc limit [record] =
        ⟨log.older ++ [log.current], some ⟨log.current.fileId + 1, [record]⟩⟩ := if_neg full
    rw [appended]
    exact Within.last (log.older ++ [log.current]) rfl nil_prefix
  · rw [flatMap_append, flatMap_append, flatMap_singleton,
      ← log.files_located_current crc, flatMap_singleton]
    exact append_nil _

theorem partway_room (record : LogRecord) :
    Partway crc limit log [record] (log.room crc limit record).files := by
  rw [room]
  split
  · exact log.partway_current crc limit record
  · rename_i full
    exact log.partway_rotated crc limit full

end Log

namespace Partway

variable {crc : Crc32c} {limit : Nat} {log : Log} {first second : List LogRecord}
  {files : List FileLog}

theorem more (partway : Partway crc limit log first files) (second : List LogRecord) :
    Partway crc limit log (first ++ second) files := by
  obtain ⟨front, begins, located⟩ := partway.front
  refine ⟨partway.lower, ?_, front, begins.trans (prefix_append _ _), located⟩
  rw [appendAll_append]
  exact partway.upper.trans (within_appendAll _ _ _ _)

theorem after (partway : Partway crc limit (log.appendAll crc limit first) second files) :
    Partway crc limit log (first ++ second) files := by
  obtain ⟨front, begins, located⟩ := partway.front
  refine ⟨(within_appendAll _ _ _ _).trans partway.lower, ?_, first ++ front,
    prefix_append_right_inj first |>.mpr begins, ?_⟩
  · rw [appendAll_append]
    exact partway.upper
  · rw [appendAll_append]
    exact located

theorem begins (partway : Partway crc limit log first files) :
    files.flatMap (·.located crc) <+: (log.appendAll crc limit first).records crc := by
  obtain ⟨front, ⟨back, rfl⟩, located⟩ := partway.front
  rw [located, appendAll_append, records_appendAll _ _ _ back]
  exact prefix_append _ _

end Partway

structure Between (crc : Crc32c) (level limit : Nat) (before : Fs) (log : Log)
    (records : List LogRecord) (disk : Fs) : Prop where
  stored : ∃ files, FilesStored crc disk level files ∧ Partway crc limit log records files
  levels : disk.dirs.length = before.dirs.length
  others : ∀ handle : Handle, (handle.level ≠ level ∨ ∀ fileId, handle.name ≠ .data fileId) →
    disk.content? handle = before.content? handle

section Append

variable {env : Platform} {session : Session} {log : Log}

def withNextFile (session : Session) : Session :=
  let handle : Handle := ⟨session.db.options.dirPath.level, .data session.db.nextFileId⟩
  { db := { session.db with
      nextFileId := session.db.nextFileId + 1
      activeFile := some ⟨session.db.nextFileId, 0, handle⟩ }
    world := session.world.changed (session.world.fs.put handle []) }

def withOlder (active : DataFile) (session : Session) : Session :=
  { session with
    db := { session.db with
      olderFiles := session.db.olderFiles.insert active.fileId (some active)
      activeFile := none } }

def withRecord (crc : Crc32c) (active : FileLog) (record : LogRecord) (session : Session) :
    Session :=
  let handle := active.handle session.db.options.dirPath.level
  { db := { session.db with
      activeFile := some (FileLog.opened crc session.db.options.dirPath.level
        ⟨active.fileId, active.records ++ [record]⟩) }
    world := session.world.written handle (logBytes crc active.records ++ writtenBytes crc record)
      (encodeLogRecord crc record) }

theorem run_newActiveDataFile (reliable : session.world.script = [])
    (missing : session.world.fs.content? ⟨session.level, .data session.db.nextFileId⟩ = none) :
    newActiveDataFile.run session = (.ok (), withNextFile session) := by
  have opened : (openDataFile session.level session.db.nextFileId).run session.world = _ :=
    run_bind_ok (run_openFile_new reliable missing)
  rw [newActiveDataFile, run_readDb_bind, run_io_bind opened, run_modifyDb]
  rfl

theorem withNextFile_frame (session : Session) : AppendFrame session (withNextFile session) where
  options := rfl
  fileIds := rfl
  txnId := rfl
  isMerging := rfl
  nulls := fun _ found => found
  index := rfl
  levels := Fs.dirs_length_put _ _
  others := by
    intro handle outside
    apply Fs.content?_put_ne
    rintro rfl
    rcases outside with level | name
    · exact level rfl
    · exact name _ rfl

theorem withOlder_frame (active : DataFile) (session : Session) :
    AppendFrame session (withOlder active session) where
  options := rfl
  fileIds := rfl
  txnId := rfl
  isMerging := rfl
  nulls := by
    intro fileId found
    by_cases same : fileId = active.fileId
    · subst same
      simp [withOlder] at found
    · exact (AList.lookup_insert_ne same).symm.trans found
  index := rfl
  levels := rfl
  others := fun _ _ => rfl

theorem withRecord_frame (crc : Crc32c) (active : FileLog) (record : LogRecord)
    (session : Session) : AppendFrame session (withRecord crc active record session) where
  options := rfl
  fileIds := rfl
  txnId := rfl
  isMerging := rfl
  nulls := fun _ found => found
  index := rfl
  levels := Fs.dirs_length_put _ _
  others := by
    intro handle outside
    apply Fs.content?_put_ne
    rintro rfl
    rcases outside with level | name
    · exact level rfl
    · exact name _ rfl

section Active

variable {last : FileLog} (attached : Attached env session log)
  (active : log.active = some last)

include attached active

theorem Attached.pointed : session.db.activeFile = some (last.opened env.crc session.level) := by
  rw [attached.active, active]
  rfl

theorem Attached.nextFileId_eq : session.db.nextFileId = last.fileId + 1 := by
  have next := attached.next
  rwa [active] at next

theorem Attached.stored_active :
    FilesStored env.crc session.world.fs session.level (log.older ++ [last]) := by
  rw [← files_active active]
  exact attached.stored

theorem Attached.content_active :
    session.world.fs.content? (last.handle session.level) = some (logBytes env.crc last.records) :=
  attached.stored.content last (mem_files_active active)

theorem Attached.older_lt : ∀ file ∈ log.older, file.fileId < last.fileId := by
  obtain ⟨_, _, below⟩ := pairwise_append.mp (attached.stored_active active).ascending
  exact fun file older => below file older last (by simp)

theorem Attached.le_active : ∀ file ∈ log.files, file.fileId ≤ last.fileId := by
  intro file inside
  rw [files_active active] at inside
  rcases mem_append.mp inside with older | newest
  · exact Nat.le_of_lt (attached.older_lt active file older)
  · rw [mem_singleton.mp newest]

end Active

variable {records : List LogRecord}

theorem Between.mono {crc : Crc32c} {level limit : Nat} {before disk : Fs} {log log' : Log}
    {records' : List LogRecord} (between : Between crc level limit before log records disk)
    (weaker : ∀ files, Partway crc limit log records files →
      Partway crc limit log' records' files) :
    Between crc level limit before log' records' disk := by
  obtain ⟨files, stored, partway⟩ := between.stored
  exact ⟨⟨files, stored, weaker files partway⟩, between.levels, between.others⟩

/-- What more records do to the database: each is added to the log with one write, and
nothing else is touched. -/
structure Appended (env : Platform) (session : Session) (log : Log) (records : List LogRecord)
    (reached : Session) : Prop where
  attached : Attached env reached (log.appendAll env.crc session.db.options.dataFileSize records)
  frame : AppendFrame session reached
  trace : reached.world.trace = session.world.trace ++
    (log.locate env.crc session.db.options.dataFileSize records).map
      (Located.write env.crc session.db.options.dirPath.level)
  passes : Passes (Between env.crc session.db.options.dirPath.level
    session.db.options.dataFileSize session.world.fs log records) session.world reached.world

structure Stored (env : Platform) (session : Session) (log : Log) (records : List LogRecord)
    (reached : Session) : Prop where
  frame : CallFrame session reached
  trace : reached.world.trace = session.world.trace ++
    (log.locate env.crc session.db.options.dataFileSize records).map
      (Located.write env.crc session.db.options.dirPath.level)
  passes : Passes (Between env.crc session.db.options.dirPath.level
    session.db.options.dataFileSize session.world.fs log records) session.world reached.world

theorem Appended.stored {reached : Session} (appended : Appended env session log records reached)
    (index : Indexer) : Stored env session log records (reached.withIndex index) :=
  ⟨appended.frame.withIndex index, appended.trace, appended.passes⟩

theorem Between.before {crc : Crc32c} {limit : Nat} {middle : Session} {disk : Fs}
    (between : Between crc session.level limit middle.world.fs log records disk)
    (frame : CallFrame session middle) :
    Between crc session.level limit session.world.fs log records disk :=
  ⟨between.stored, between.levels.trans frame.levels,
    fun handle outside => (between.others handle outside).trans (frame.others handle outside)⟩

section

variable (attached : Attached env session log)

include attached

theorem Attached.fresh : ∀ file ∈ log.files, file.fileId < session.db.nextFileId := by
  intro file member
  obtain ⟨last, active⟩ := active_of_mem attached.started member
  rw [attached.nextFileId_eq active]
  exact Nat.lt_succ_of_le (attached.le_active active file member)

theorem Attached.start (unstarted : log.active = none) :
    Attached env (withNextFile session) ⟨[], some ⟨0, []⟩⟩ := by
  have next : session.db.nextFileId = 0 := by
    have next := attached.next
    rw [unstarted] at next
    exact next
  have files := files_unstarted attached.started unstarted
  have stored := attached.stored.create attached.fresh
  rw [files, next] at stored
  refine ⟨attached.reliable, ?_, ?_, ?_, ?_, ?_, ?_⟩
  · simp only [withNextFile, next]
    exact stored
  · intro missing
    cases missing
  · simp only [withNextFile, next]
    rfl
  · intro file member
    cases member
  · intro fileId file found
    obtain ⟨other, older, _⟩ := attached.olderOnly fileId file found
    rw [attached.started unstarted] at older
    cases older
  · simp only [withNextFile, next]

theorem Attached.rotate {last : FileLog} (active : log.active = some last) :
    Attached env (withNextFile (withOlder (last.opened env.crc session.level) session))
      ⟨log.older ++ [last], some ⟨last.fileId + 1, []⟩⟩ := by
  have next := attached.nextFileId_eq active
  have stored := attached.stored.create attached.fresh
  rw [files_active active, next] at stored
  refine ⟨attached.reliable, ?_, ?_, ?_, ?_, ?_, ?_⟩
  · simp only [withNextFile, withOlder, next]
    exact stored
  · intro missing
    cases missing
  · simp only [withNextFile, withOlder, next]
    rfl
  · intro file member
    rcases mem_append.mp member with older | newest
    · obtain ⟨writeOff, found⟩ := attached.older file older
      have different := Nat.ne_of_lt (attached.older_lt active file older)
      exact ⟨writeOff, (AList.lookup_insert_ne different).trans found⟩
    · rw [mem_singleton.mp newest]
      exact ⟨_, AList.lookup_insert _⟩
  · intro fileId file found
    by_cases same : fileId = last.fileId
    · exact ⟨last, by simp, same.symm⟩
    · obtain ⟨other, older, id⟩ := attached.olderOnly fileId file
        ((AList.lookup_insert_ne same).symm.trans found)
      exact ⟨other, mem_append_left _ older, id⟩
  · simp only [withNextFile, withOlder, next]

theorem Attached.run_rotate (active : DataFile) :
    (Bitdb.rotate active).run session = (.ok (), withNextFile (withOlder active session)) := by
  have missing := attached.stored.missing attached.fresh
  rw [Bitdb.rotate, run_modifyDb_bind]
  exact run_newActiveDataFile attached.reliable missing

theorem Attached.write {last : FileLog} (active : log.active = some last) (record : LogRecord) :
    Attached env (withRecord env.crc last record session)
      ⟨log.older, some ⟨last.fileId, last.records ++ [record]⟩⟩ := by
  have next := attached.nextFileId_eq active
  refine ⟨attached.reliable, (attached.stored_active active).extend record, ?_, rfl,
    attached.older, attached.olderOnly, next⟩
  intro missing
  cases missing

theorem Attached.run_writeActive {last : FileLog} (active : log.active = some last)
    (record : LogRecord) :
    (writeActive (encodeLogRecord env.crc record)).run session =
      (.ok ⟨last.fileId, last.size env.crc⟩, withRecord env.crc last record session) := by
  have written : ((last.opened env.crc session.level).write
      (encodeLogRecord env.crc record)).run session.world = _ :=
    run_write _ attached.reliable (attached.content_active active)
  have size : (last.opened env.crc session.level).writeOff +
      ((encodeLogRecord env.crc record).take maxTransfer).length =
        FileLog.size env.crc ⟨last.fileId, last.records ++ [record]⟩ := by
    simp [FileLog.opened, FileLog.size, writtenBytes]
  rw [writeActive, run_bind_ok (run_derefActive (attached.pointed active)),
    run_io_bind written, run_modifyDb_bind, run_readDb_bind, size]
  -- A flush that succeeds changes nothing.
  by_cases flush : session.db.options.isSyncWrite
  · simp only [flush, ↓reduceIte]
    exact run_io_bind (run_sync attached.reliable)
  · simp only [flush]
    rfl

theorem Attached.between {before : Session} {log' : Log} {limit : Nat}
    (frame : CallFrame before session) (partway : Partway env.crc limit log' records log.files) :
    Between env.crc before.level limit before.world.fs log' records
      session.world.fs := by
  have stored := attached.stored
  rw [frame.options] at stored
  exact ⟨⟨log.files, stored, partway⟩, frame.levels, frame.others⟩

theorem Attached.run_ensureActive :
    ∃ reached, ensureActive.run session = (.ok (), reached) ∧
      Attached env reached ⟨log.older, some log.current⟩ ∧ AppendFrame session reached ∧
      reached.world.trace = session.world.trace ∧
      Passes (· = session.world.fs) session.world reached.world := by
  cases active : log.active with
  | none =>
    have none : session.db.activeFile.isNone = true := by
      rw [attached.active, active]
      rfl
    have fresh := attached.start active
    refine ⟨withNextFile session, ?_, ?_, withNextFile_frame session, rfl, .once rfl rfl⟩
    · rw [ensureActive, run_readDb_bind, if_pos none]
      exact run_newActiveDataFile attached.reliable (attached.stored.missing attached.fresh)
    · rw [attached.started active, Log.current, active]
      exact fresh
  | some last =>
    have some : ¬ session.db.activeFile.isNone = true := by
      rw [attached.active, active]
      simp
    have same : log = ⟨log.older, log.active⟩ := rfl
    refine ⟨session, ?_, ?_, AppendFrame.refl session, rfl, .refl _ _⟩
    · rw [ensureActive, run_readDb_bind, if_neg some]
      rfl
    · rw [same, active] at attached
      rw [Log.current, active]
      exact attached

theorem Attached.run_makeRoom (record : LogRecord) :
    ∃ reached, (makeRoom (encodeLogRecord env.crc record).length).run session = (.ok (), reached) ∧
      Attached env reached (log.room env.crc session.limit record) ∧
      AppendFrame session reached ∧ reached.world.trace = session.world.trace ∧
      Passes (Between env.crc session.level session.limit
        session.world.fs log [record]) session.world reached.world := by
  obtain ⟨middle, started, attached', frame, trace, passes⟩ := attached.run_ensureActive
  have pointed : middle.db.activeFile =
      some (log.current.opened env.crc middle.level) := attached'.active
  have limit : middle.db.options = session.db.options := frame.options
  rw [frame.level] at pointed
  have first : Passes (Between env.crc session.level session.limit session.world.fs log [record])
      session.world middle.world := by
    refine passes.mono fun disk same => ?_
    rw [same]
    exact attached.between (AppendFrame.refl session).toCallFrame
      ⟨.refl _, log.within_appendAll _ _ _, [], nil_prefix, rfl⟩
  rw [makeRoom, run_bind_ok started, run_bind_ok (run_derefActive pointed), run_readDb_bind, limit]
  by_cases fits : log.Fits env.crc session.limit record
  · have notPast : ¬ session.limit < (log.current.opened env.crc session.level).writeOff +
          (encodeLogRecord env.crc record).length := Nat.not_lt.mpr fits
    refine ⟨middle, ?_, ?_, frame, trace, first⟩
    · rw [if_neg notPast]
      rfl
    · rw [Log.room, if_pos fits]
      exact attached'
  · have past : session.limit < (log.current.opened env.crc session.level).writeOff +
          (encodeLogRecord env.crc record).length := Nat.not_le.mp fits
    have rotated := attached'.rotate rfl
    rw [frame.level] at rotated
    refine ⟨withNextFile (withOlder (log.current.opened env.crc session.level) middle), ?_, ?_, ?_,
      trace, first.trans (.once rfl ?_)⟩
    · rw [if_pos past, run_io_bind (run_sync attached'.reliable)]
      exact attached'.run_rotate _
    · rw [Log.room, if_neg fits]
      exact rotated
    · exact frame.trans ((withOlder_frame _ middle).trans (withNextFile_frame _))
    · exact attached'.between frame.toCallFrame (log.partway_current _ _ _)

theorem Attached.withIndex (index : Indexer) : Attached env (session.withIndex index) log :=
  ⟨attached.reliable, attached.stored, attached.started, attached.active, attached.older,
    attached.olderOnly, attached.next⟩

theorem Attached.withWorld {world : World} (reliable : world.script = [])
    (stored : FilesStored env.crc world.fs session.level log.files) :
    Attached env ⟨session.db, world⟩ log :=
  ⟨reliable, stored, attached.started, attached.active, attached.older, attached.olderOnly,
    attached.next⟩

theorem Attached.of_same {world : World} (reliable : world.script = [])
    (present : (world.fs.dir? session.level).isSome)
    (same : ∀ fileId, world.fs.content? ⟨session.level, .data fileId⟩ =
      session.world.fs.content? ⟨session.level, .data fileId⟩) :
    Attached env ⟨session.db, world⟩ log :=
  attached.withWorld reliable (attached.stored.of_same present same)

theorem Attached.run_appendLogRecord (record : LogRecord) :
    ∃ reached, (appendLogRecord env record).run session =
        (.ok (log.place env.crc session.limit record), reached) ∧
      Appended env session log [record] reached := by
  obtain ⟨middle, ran, attached', frame, trace, passes⟩ := attached.run_makeRoom record
  obtain ⟨last, active, place, appended⟩ := log.exists_room env.crc session.limit record
  refine ⟨withRecord env.crc last record middle, ?_, ?_,
    frame.trans (withRecord_frame env.crc last record middle), ?_, ?_⟩
  · rw [appendLogRecord, run_bind_ok ran, attached'.run_writeActive active record, place]
  · have final := attached'.write active record
    rw [← appended] at final
    exact final
  · rw [Log.locate, map_cons, ← trace, Located.write, place, ← frame.options]
    rfl
  · -- The last disk on the way is the one the record is written to.
    exact passes.trans (.once rfl (attached'.between frame.toCallFrame (log.partway_room _ _ _)))

theorem Appended.nil : Appended env session log [] session :=
  ⟨attached, .refl _, (append_nil _).symm, .refl _ _⟩

end

theorem Appended.append {first second : List LogRecord} {middle reached : Session}
    (front : Appended env session log first middle) (back : Appended env middle
      (log.appendAll env.crc session.limit first) second reached) :
    Appended env session log (first ++ second) reached := by
  obtain ⟨attached, frame, trace, passes⟩ := back
  rw [front.frame.options] at attached trace passes
  have all := log.appendAll_append env.crc session.limit first second
  refine ⟨by rw [all]; exact attached, front.frame.trans frame, ?_, ?_⟩
  · rw [locate_append, map_append, ← append_assoc, ← front.trace]
    exact trace
  · exact (front.passes.mono fun disk between =>
      between.mono fun files partway => partway.more second).trans
        (passes.mono fun disk between => (between.before front.frame.toCallFrame).mono
          fun files partway => partway.after)

end Append

end Bitdb
