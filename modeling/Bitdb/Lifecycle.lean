import Bitdb.Base.Run
import Bitdb.Batch
import Bitdb.DbOpenProperties

/-! The life of a database directory. A process opens it, calls the database and closes it again,
and it may be stopped between any two changes of the disk. What a crash leaves of the log, and what
`Open` makes of it. -/

set_option autoImplicit false

namespace Bitdb

open Base

def fillBatch : List (Bytes × Bytes) → BatchSession → BatchSession
  | [], state => state
  | (key, value) :: rest, state => fillBatch rest ((WriteBatch.put key value).run state).2

def commitPuts (env : Platform) (options : WriteBatchOptions) (pairs : List (Bytes × Bytes))
    (session : Session) : Except Stop Status × Session :=
  let (outcome, reached) :=
    (WriteBatch.commit env).run (fillBatch pairs ⟨.new options, session⟩)
  (outcome, reached.session)

def bytesWritten (trace : List (Handle × List Byte)) (handle : Handle) : List Byte :=
  trace.flatMap fun write => if write.1 = handle then write.2 else []

/-- A crash cuts the log at the boundary of a record: the data files hold the bytes of
the first so many writes, all of them whole, and nothing else has changed. -/
structure Crash (before after : World) : Prop where
  cut : after.trace <+: before.trace
  whole : ∀ write ∈ after.trace, write.2.length ≤ maxTransfer
  reliable : after.script = []
  levels : after.fs.dirs.length = before.fs.dirs.length
  kept : ∀ fileId, after.fs.content ⟨0, .data fileId⟩ = bytesWritten after.trace ⟨0, .data fileId⟩
  others : ∀ handle : Handle, (handle.level ≠ 0 ∨ ∀ fileId, handle.name ≠ .data fileId) →
    after.fs.content? handle = before.fs.content? handle

def NoEmptyDataFile (fs : Fs) (level : Nat) : Prop :=
  ∀ fileId, fs.content? ⟨level, .data fileId⟩ ≠ some []

inductive Event where
  | put (key value : Bytes)
  | delete (key : Bytes)
  | commit (options : WriteBatchOptions) (pairs : List (Bytes × Bytes))
  /-- A crash that leaves the world `after` behind, and an `Open` without merge. -/
  | recover (options : Options) (after : World)

def Event.Step (env : Platform) (session : Session) (event : Event) (reached : Session) : Prop :=
  match event with
  | .put key value => ((Bitdb.put env key value).run session).2 = reached
  | .delete key => ((Bitdb.delete env key).run session).2 = reached
  | .commit options pairs => (commitPuts env options pairs session).2 = reached
  | .recover options after =>
    Crash session.world after ∧ NoEmptyDataFile after.fs 0 ∧ options.dirPath.level = 0 ∧
      (openDb env options false).run after = (.ok reached.db, reached.world)

def Event.isCommit : Event → Bool
  | .commit _ _ => true
  | _ => false

def transactions (events : List Event) : Nat := events.countP Event.isCommit

def Fs.fileLog (crc : Crc32c) (fs : Fs) (level fileId : Nat) : FileLog :=
  let content := fs.content ⟨level, .data fileId⟩
  match readRecords crc content (content.length + 1) 0 with
  | .ok found => ⟨fileId, found.map Prod.fst⟩
  | .error _ => ⟨fileId, []⟩

/-- The log in a directory: the records of all data files in the order of their ids,
with their positions. -/
def Fs.readLog (crc : Crc32c) (fs : Fs) (level : Nat) : List Located :=
  ((dataFileIds (fs.entries level)).insertionSort (· ≤ ·)).flatMap fun fileId =>
    (fs.fileLog crc level fileId).located crc

/-- A record of a transaction whose end is not in the log. -/
def Orphan (log : List Located) (found : Located) : Prop :=
  ∃ txn, (Located.entry found).txn = some txn ∧ Journal.finished (log.map Located.entry) txn = false

/-- The event does not cut off the first `count` records of the log. -/
def Event.Spares (count : Nat) : Event → Prop
  | .recover _ after => count ≤ after.trace.length
  | _ => True

/-- A call on an open database. A batch is committed as it is, whoever has filled it. -/
inductive Request where
  | put (key value : Bytes)
  | get (key : Bytes)
  | delete (key : Bytes)
  | commit (batch : WriteBatch)
  | sync
  | merge

def answer {α : Type} (result : Except Stop α × Session) : Bool × Session :=
  (returned result.1, result.2)

def Request.run (env : Platform) (session : Session) : Request → Bool × Session
  | .put key value => answer ((Bitdb.put env key value).run session)
  | .get key => answer ((Bitdb.get env key true).run session)
  | .delete key => answer ((Bitdb.delete env key).run session)
  | .commit batch =>
    let (outcome, reached) := (WriteBatch.commit env).run ⟨batch, session⟩
    (returned outcome, reached.session)
  | .sync => answer (Bitdb.sync.run session)
  | .merge => answer ((mergeDb env).run session)

inductive Process where
  | closed (world : World)
  | running (session : Session)

def Process.world : Process → World
  | .closed world => world
  | .running session => session.world

inductive Act where
  | open (options : Options) (mergeAfterOpen : Bool)
  | call (request : Request)
  | close

def World.passed (before after : World) : List Fs :=
  after.disks.drop before.disks.length ++ [after.fs]

def World.stoppedAt (world : World) (disk : Fs) : World := { world with fs := disk }

inductive Act.Step (env : Platform) : Process → Act → Process → Prop where
  | opened {world reached : World} {options : Options} {mergeAfterOpen : Bool} {db : DB}
      (top : options.dirPath.level = 0)
      (ran : (openDb env options mergeAfterOpen).run world = (.ok db, reached)) :
      Step env (.closed world) (.open options mergeAfterOpen) (.running ⟨db, reached⟩)
  | notOpened {world reached : World} {options : Options} {mergeAfterOpen : Bool} {stop : Stop}
      (top : options.dirPath.level = 0)
      (ran : (openDb env options mergeAfterOpen).run world = (.error stop, reached)) :
      Step env (.closed world) (.open options mergeAfterOpen) (.closed reached)
  | openStopped {world : World} {options : Options} {mergeAfterOpen : Bool} {disk : Fs}
      (top : options.dirPath.level = 0)
      (passed : disk ∈ world.passed ((openDb env options mergeAfterOpen).run world).2) :
      Step env (.closed world) (.open options mergeAfterOpen)
        (.closed (((openDb env options mergeAfterOpen).run world).2.stoppedAt disk))
  | answered {session reached : Session} {request : Request}
      (ran : request.run env session = (true, reached)) :
      Step env (.running session) (.call request) (.running reached)
  /-- The process has ended inside the call. -/
  | ended {session reached : Session} {request : Request}
      (ran : request.run env session = (false, reached)) :
      Step env (.running session) (.call request) (.closed reached.world)
  | callStopped {session : Session} {request : Request} {disk : Fs}
      (passed : disk ∈ session.world.passed (request.run env session).2.world) :
      Step env (.running session) (.call request)
        (.closed ((request.run env session).2.world.stoppedAt disk))
  | closed {session : Session} :
      Step env (.running session) .close (.closed session.world)

/-- The batch holds puts as `WriteBatch::Put` has left them. `Commit` changes its records
in place, so a batch that has been committed is not fresh. -/
def WriteBatch.Fresh (batch : WriteBatch) : Prop :=
  ∀ key record, batch.pendingWrites.lookup key = some record → FreshPut (key, record)

def World.WholeWrites (world : World) : Prop :=
  ∀ write ∈ world.trace, write.2.length ≤ maxTransfer

instance (world : World) : Decidable world.WholeWrites :=
  inferInstanceAs (Decidable (∀ write ∈ world.trace, write.2.length ≤ maxTransfer))

/-- A merge below this directory has got as far as creating its marker. -/
def Fs.Marked (fs : Fs) : Prop := (fs.content? ⟨getMergenceDirectory 0, .merged⟩).isSome

instance (fs : Fs) : Decidable fs.Marked := inferInstanceAs (Decidable (_ = true))

/-- The step does not install a merge, does not commit a batch again and does not write
a record that one call cannot transfer. -/
structure Act.Clean (process : Process) (act : Act) (reached : Process) : Prop where
  unmarked : ∀ options mergeAfterOpen, act = .open options mergeAfterOpen →
    ¬ process.world.fs.Marked
  fresh : ∀ batch, act = .call (.commit batch) → batch.Fresh
  whole : reached.world.WholeWrites

def Act.CleanStep (env : Platform) (process : Process) (act : Act) (reached : Process) : Prop :=
  Act.Step env process act reached ∧ Act.Clean process act reached

/-- The limit for data files: that of the open database, or of the last one that was open. -/
def Process.dataFileSize (last : Nat) : Process → Nat
  | .closed _ => last
  | .running session => session.db.options.dataFileSize

/-- A clean step, after which the limit for data files is no smaller than it was. The process
goes along with the limit of the last database that was open. -/
structure Act.GrowingStep (env : Platform) (before : Nat × Process) (act : Act)
    (after : Nat × Process) : Prop where
  clean : act.CleanStep env before.2 after.2
  limit : after.1 = after.2.dataFileSize before.1
  grows : before.1 ≤ after.1

def Request.Writes : Request → Prop
  | .put _ _ => True
  | .delete _ => True
  | .commit _ => True
  | _ => False

/-- A step of a life under one set of options: there is no merge, only the writing calls are
made, with any batches, and no record is longer than one call can transfer. -/
structure Act.WritingStep (env : Platform) (options : Options) (process : Process) (act : Act)
    (reached : Process) : Prop where
  step : act.Step env process reached
  opens : ∀ other mergeAfterOpen, act = .open other mergeAfterOpen →
    other = options ∧ mergeAfterOpen = false
  calls : ∀ request, act = .call request → request.Writes
  whole : reached.world.WholeWrites

/-- What a process that had the database open has left behind: it has closed the database or
was stopped inside a merge, and then others may have been stopped inside `Open`. A finished
merge has not been installed. -/
inductive Interrupted (env : Platform) (session : Session) : World → Prop where
  | closed : Interrupted env session session.world
  | merge {disk : Fs}
      (passed : disk ∈ session.world.passed ((mergeDb env).run session).2.world) :
      Interrupted env session (((mergeDb env).run session).2.world.stoppedAt disk)
  | open {world : World} {options : Options} {mergeAfterOpen : Bool} {disk : Fs}
      (before : Interrupted env session world) (unmarked : ¬ world.fs.Marked)
      (top : options.dirPath.level = 0)
      (passed : disk ∈ world.passed ((openDb env options mergeAfterOpen).run world).2) :
      Interrupted env session (((openDb env options mergeAfterOpen).run world).2.stoppedAt disk)

def World.afterOpens (env : Platform) (options : Options) : Nat → World → World
  | 0, world => world
  | count + 1, world => afterOpens env options count ((openDb env options false).run world).2

def World.failing (calls : List Bool) (world : World) : World :=
  { world with script := calls.map fun fails => if fails then .fails else .done }

def Session.failing (calls : List Bool) (session : Session) : Session :=
  { session with world := session.world.failing calls }

def BatchSession.failing (calls : List Bool) (state : BatchSession) : BatchSession :=
  { state with session := state.session.failing calls }

inductive Update where
  | put (key value : Bytes)
  | delete (key : Bytes)
  | commit (batch : WriteBatch)

def Update.run (env : Platform) (session : Session) : Update → Except Stop Status × Session
  | .put key value => (Bitdb.put env key value).run session
  | .delete key => (Bitdb.delete env key).run session
  | .commit batch =>
    let result := (WriteBatch.commit env).run ⟨batch, session⟩
    (result.1, result.2.session)

def Update.Fresh : Update → Prop
  | .commit batch => batch.Fresh
  | _ => True

def Update.recordCount : Update → Nat
  | .commit batch => batch.pendingWrites.inOrder.length + 1
  | _ => 1

/-- The update returns an error while some system calls fail. Later calls succeed again. -/
structure Update.Fails (env : Platform) (session : Session) (update : Update)
    (failed : Session) : Prop where
  ran : ∃ calls status left,
    update.run env (session.failing calls) = (.error (.failed status), left) ∧
      failed = left.failing []
  fresh : update.Fresh
  whole : failed.world.WholeWrites

/-- The update has not got as far as writing its last record: that of the `Put` or `Delete`,
or the one that finishes the transaction. -/
def Update.Incomplete (session : Session) (update : Update) (failed : Session) : Prop :=
  failed.world.trace.length < session.world.trace.length + update.recordCount

def Update.Returns (env : Platform) (session : Session) (update : Update) (reached : Session) :
    Prop :=
  ∃ status, update.run env session = (.ok status, reached)

/-- The update returns `Ok` and its records were written whole. -/
structure Update.Succeeds (env : Platform) (session : Session) (update : Update)
    (reached : Session) : Prop where
  ran : update.Returns env session reached
  fresh : update.Fresh
  whole : reached.world.WholeWrites

inductive FaultyAct where
  | act (act : Act)
  | failed (update : Update)

/-- A clean step, or an update that fails before its last record is written. -/
inductive FaultyAct.Step (env : Platform) : Process → FaultyAct → Process → Prop where
  | act {process reached : Process} {act : Act} (clean : Act.CleanStep env process act reached) :
      Step env process (.act act) reached
  | failed {session failed : Session} {update : Update} (fails : update.Fails env session failed)
      (incomplete : update.Incomplete session failed) :
      Step env (.running session) (.failed update) (.running failed)

inductive BatchAct where
  | put (key value : Bytes)
  | commit

/-- Calls on one batch. System calls of `Commit` may fail before the record that ends the
transaction is written; those of the next call succeed again. -/
inductive BatchAct.Step (env : Platform) : BatchSession → BatchAct → BatchSession → Prop where
  | put {state reached : BatchSession} {key value : Bytes} {outcome : Except Stop Status}
      (ran : (WriteBatch.put key value).run state = (outcome, reached)) :
      Step env state (.put key value) reached
  | commit {state left : BatchSession} {calls : List Bool} {outcome : Except Stop Status}
      (ran : (WriteBatch.commit env).run (state.failing calls) = (outcome, left))
      (answered : returned outcome = true)
      (incomplete : ∀ status, outcome = .error (.failed status) →
        (Update.commit state.batch).Incomplete state.session (left.failing []).session)
      (whole : (left.failing []).session.world.WholeWrites) :
      Step env state .commit (left.failing [])

/-- The batch that `Commit` writes holds its records as `Put` has left them. -/
structure BatchAct.OrderlyStep (env : Platform) (state : BatchSession) (act : BatchAct)
    (reached : BatchSession) : Prop where
  step : act.Step env state reached
  fresh : act = .commit → state.batch.Fresh ∨
    state.batch.options.maxBatchNum < state.batch.pendingWrites.inOrder.length

open List Located

theorem noEmptyDataFile_iff_listed {fs : Fs} {level : Nat} :
    (∀ fileId ∈ dataFileIds (fs.entries level), fs.content? ⟨level, .data fileId⟩ ≠ some []) ↔
      NoEmptyDataFile fs level := by
  constructor
  · intro listed fileId empty
    refine listed fileId (mem_dataFileIds.mpr (Fs.mem_entries_file.mpr ?_)) empty
    rw [empty]
    rfl
  · exact fun noEmpty fileId _ => noEmpty fileId

instance (fs : Fs) (level : Nat) : Decidable (NoEmptyDataFile fs level) :=
  decidable_of_iff _ noEmptyDataFile_iff_listed

theorem located_take (crc : Crc32c) (fileId offset : Nat) (records : List LogRecord)
    (count : Nat) : located crc fileId offset (records.take count) =
      (located crc fileId offset records).take count := by
  induction records generalizing offset count with
  | nil => simp [located]
  | cons record records ih =>
    cases count with
    | zero => rfl
    | succ count => rw [take_succ_cons, located, located, take_succ_cons, ih]

theorem located_length (crc : Crc32c) (fileId offset : Nat) (records : List LogRecord) :
    (located crc fileId offset records).length = records.length := by
  rw [← length_map Prod.snd, located_records]

theorem exists_cut (crc : Crc32c) (files : List FileLog) (count : Nat) :
    ∃ left : List FileLog,
      left.flatMap (·.located crc) = (files.flatMap (·.located crc)).take count ∧
      (left.map (·.fileId)).Sublist (files.map (·.fileId)) ∧
      ∀ file ∈ left, file.records ≠ [] := by
  induction files generalizing count with
  | nil => exact ⟨[], by simp, List.Sublist.refl _, fun _ member => by cases member⟩
  | cons file files ih =>
    have size : (file.located crc).length = file.records.length := located_length _ _ _ _
    rcases Nat.lt_or_ge file.records.length count with past | inside
    · obtain ⟨left, same, ids, nonempty⟩ := ih (count - file.records.length)
      rw [flatMap_cons, take_append, size, take_of_length_le (by omega), ← same]
      by_cases empty : file.records = []
      · refine ⟨left, ?_, ids.cons _, nonempty⟩
        rw [FileLog.located, empty]
        rfl
      · refine ⟨file :: left, rfl, ids.cons_cons _, ?_⟩
        intro other member
        rcases mem_cons.mp member with rfl | later
        · exact empty
        · exact nonempty other later
    · rw [flatMap_cons, take_append_of_le_length (by omega), FileLog.located, ← located_take]
      by_cases empty : file.records.take count = []
      · refine ⟨[], ?_, nil_sublist _, fun _ member => by cases member⟩
        rw [empty]
        rfl
      · refine ⟨[⟨file.fileId, file.records.take count⟩], ?_, ?_, ?_⟩
        · exact append_nil _
        · exact (nil_sublist _).cons_cons _
        · intro other member
          rw [mem_singleton.mp member]
          exact empty

def Log.ofFiles (files : List FileLog) : Log := ⟨files.dropLast, files.getLast?⟩

@[simp] theorem Log.files_ofFiles (files : List FileLog) : (Log.ofFiles files).files = files := by
  rcases eq_nil_or_concat files with rfl | ⟨front, last, rfl⟩
  · rfl
  · simp [Log.ofFiles, Log.files]

theorem Log.started_ofFiles {files : List FileLog} (unstarted : (Log.ofFiles files).active = none) :
    (Log.ofFiles files).older = [] := by
  rw [Log.ofFiles, List.getLast?_eq_none_iff] at unstarted
  rw [unstarted]
  rfl

section Written

variable (crc : Crc32c)

theorem bytesWritten_append (front back : List (Handle × List Byte)) (handle : Handle) :
    bytesWritten (front ++ back) handle = bytesWritten front handle ++ bytesWritten back handle :=
  flatMap_append

theorem bytesWritten_located_self (fileId offset level : Nat) (records : List LogRecord) :
    bytesWritten ((located crc fileId offset records).map (write crc level))
      ⟨level, .data fileId⟩ = fileBytes crc records := by
  induction records generalizing offset with
  | nil => rfl
  | cons record records ih =>
    rw [located, map_cons, bytesWritten, flatMap_cons, fileBytes_cons, write, if_pos rfl]
    exact congrArg _ (ih _)

theorem bytesWritten_located_ne {fileId other : Nat} (different : fileId ≠ other)
    (offset level : Nat) (records : List LogRecord) :
    bytesWritten ((located crc fileId offset records).map (write crc level))
      ⟨level, .data other⟩ = [] := by
  have apart : (⟨level, .data fileId⟩ : Handle) ≠ ⟨level, .data other⟩ := by
    intro same
    injection same with _ names
    injection names with ids
    exact different ids
  induction records generalizing offset with
  | nil => rfl
  | cons record records ih =>
    rw [located, map_cons, bytesWritten, flatMap_cons, write, if_neg apart]
    exact ih _

theorem bytesWritten_missing {files : List FileLog} {fileId : Nat} (level : Nat)
    (missing : ∀ file ∈ files, file.fileId ≠ fileId) :
    bytesWritten ((files.flatMap (·.located crc)).map (write crc level))
      ⟨level, .data fileId⟩ = [] := by
  induction files with
  | nil => rfl
  | cons file files ih =>
    rw [flatMap_cons, map_append, bytesWritten_append,
      ih fun other member => missing other (mem_cons_of_mem _ member), append_nil]
    exact bytesWritten_located_ne crc (missing file mem_cons_self) _ _ _

theorem bytesWritten_file {files : List FileLog} {file : FileLog} (level : Nat)
    (ascending : files.Pairwise fun left right => left.fileId < right.fileId)
    (member : file ∈ files) :
    bytesWritten ((files.flatMap (·.located crc)).map (write crc level))
      (file.handle level) = fileBytes crc file.records := by
  induction files with
  | nil => cases member
  | cons first files ih =>
    obtain ⟨below, later⟩ := pairwise_cons.mp ascending
    rw [flatMap_cons, map_append, bytesWritten_append]
    rcases mem_cons.mp member with rfl | behind
    · have rest := bytesWritten_missing crc level fun other inside =>
        Nat.ne_of_gt (below other inside)
      rw [FileLog.handle, rest, append_nil]
      exact bytesWritten_located_self crc _ _ _ _
    · have here := bytesWritten_located_ne crc (Nat.ne_of_lt (below file behind)) 0
        level first.records
      rw [ih later behind, FileLog.located, FileLog.handle, here, nil_append]

end Written

structure Left (crc : Crc32c) (log : Log) (after : World) (files : List FileLog) : Prop where
  cut : files.flatMap (·.located crc) = (log.records crc).take after.trace.length
  stored : FilesStored crc after.fs 0 files
  full : ∀ file ∈ files, file.records ≠ []
  storable : ∀ file ∈ files, ∀ record ∈ file.records, record.Storable crc
  traced : after.trace = (files.flatMap (·.located crc)).map (Located.write crc 0)

theorem Crash.left {crc : Crc32c} {before after : World} {log : Log} (crash : Crash before after)
    (noEmpty : NoEmptyDataFile after.fs 0) (stored : FilesStored crc before.fs 0 log.files)
    (traced : before.trace = (log.records crc).map (write crc 0))
    (keyed : ∀ found ∈ log.records crc, found.2.key ≠ []) : ∃ files, Left crc log after files := by
  obtain ⟨files, cut, ids, full⟩ := exists_cut crc log.files after.trace.length
  have kept : after.trace = (files.flatMap (·.located crc)).map (write crc 0) := by
    rw [cut, map_take, ← Log.records, ← traced]
    exact prefix_iff_eq_take.mp crash.cut
  have ascending : files.Pairwise fun left right => left.fileId < right.fileId := by
    have sorted := pairwise_map.mpr stored.ascending
    exact pairwise_map.mp (sorted.sublist ids)
  have storable : ∀ file ∈ files, ∀ record ∈ file.records, record.Storable crc := by
    intro file inside record member
    obtain ⟨pst, found⟩ := file.mem_located crc member
    have listed : (pst, record) ∈ files.flatMap (·.located crc) :=
      mem_flatMap.mpr ⟨file, inside, found⟩
    refine ⟨keyed (pst, record) ?_, ?_⟩
    · rw [cut] at listed
      exact mem_of_mem_take listed
    · refine crash.whole (write crc 0 (pst, record)) ?_
      rw [kept]
      exact mem_map_of_mem listed
  refine ⟨files, cut, ⟨?_, ascending, ?_, ?_⟩, full, storable, kept⟩
  · have present := stored.present
    rw [Fs.dir?, isSome_getElem?] at present ⊢
    rw [crash.levels]
    exact present
  · intro file member
    have bytes : after.fs.content (file.handle 0) = fileBytes crc file.records := by
      rw [FileLog.handle, crash.kept file.fileId, kept]
      exact bytesWritten_file crc 0 ascending member
    have nonempty : fileBytes crc file.records ≠ [] :=
      fileBytes_ne_nil (fun record inside => (storable file member record inside).keyed)
        (full file member)
    rw [logBytes_eq_fileBytes (storable file member), ← bytes]
    cases found : after.fs.content? (file.handle 0) with
    | none =>
      rw [Fs.content, found] at bytes
      exact absurd bytes.symm nonempty
    | some content => rw [Fs.content_of_content? found]
  · intro fileId found
    obtain ⟨content, here⟩ := Option.isSome_iff_exists.mp found
    by_contra missing
    have bytes := crash.kept fileId
    rw [kept, Fs.content_of_content? here, bytesWritten_missing crc 0 fun file member same =>
      missing ⟨file, member, same⟩] at bytes
    rw [bytes] at here
    exact noEmpty fileId here

variable {crc : Crc32c} {files : List FileLog} {fs : Fs} {level : Nat}
  (stored : FilesStored crc fs level files)

include stored

theorem FilesStored.fileLog_eq {file : FileLog} (member : file ∈ files) (full : file.records ≠ [])
    (storable : ∀ record ∈ file.records, record.Storable crc) :
    fs.fileLog crc level file.fileId = file := by
  have keyed : ∀ record ∈ file.records, record.key ≠ [] := fun record inside =>
    (storable record inside).keyed
  have content : fs.content ⟨level, .data file.fileId⟩ = fileBytes crc file.records := by
    rw [← logBytes_eq_fileBytes storable]
    exact Fs.content_of_content? (stored.content file member)
  have enough : file.records.length ≤ (fileBytes crc file.records).length :=
    length_le_fileBytes keyed
  have read := readRecords_fileBytes [] file.records ((fileBytes crc file.records).length + 1)
    storable (fileBytes_ne_nil keyed full) (Nat.lt_succ_of_le enough)
  simp only [Fs.fileLog, content]
  rw [show readRecords crc (fileBytes crc file.records) _ 0 = _ from read]
  simp [Function.comp_def]

theorem FilesStored.readLog (full : ∀ file ∈ files, file.records ≠ [])
    (storable : ∀ file ∈ files, ∀ record ∈ file.records, record.Storable crc) :
    fs.readLog crc level = files.flatMap (·.located crc) := by
  have ids : (dataFileIds (fs.entries level)).insertionSort (· ≤ ·) = files.map (·.fileId) :=
    stored.sorted_ids Platform.reference.os
  rw [Fs.readLog, ids, flatMap_map]
  refine flatMap_congr fun file member => ?_
  rw [stored.fileLog_eq member (full file member) (storable file member)]

end Bitdb
