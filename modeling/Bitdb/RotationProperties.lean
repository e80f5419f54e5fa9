import Bitdb.PackingProperties

/-! When data files are rotated: a file outgrows the limit only with a single record. -/

set_option autoImplicit false

namespace Bitdb

open Base

structure PlainDisk (crc : Crc32c) (fs : Fs) (log : Log) : Prop where
  stored : FilesStored crc fs 0 log.files
  started : log.active = none → log.older = []
  plain : PlainDir fs 0
  readable : log.Readable crc

section Open

variable {env : Platform} {world : World} {options : Options} {log : Log}

theorem PlainDisk.run_openDb (disk : PlainDisk env.crc world.fs log)
    (reliable : world.script = []) (top : options.dirPath.level = 0) :
    ∃ outcome, (openDb env options false).run world = (outcome, world) ∧
      ∀ db, outcome = .ok db → Attached env ⟨db, world⟩ log ∧ db.options = options := by
  have plain := disk.plain
  have stored := disk.stored
  rw [← top] at plain stored
  have failing {stop : Stop} {reached : Session} (checked : checkOptions options = .ok ())
      (failed : (loadAll env).run ⟨DB.new options, world⟩ = (.error stop, reached))
      (same : reached.world = world) :
      ∃ outcome, (openDb env options false).run world = (outcome, world) ∧
        ∀ db, outcome = .ok db → Attached env ⟨db, world⟩ log ∧ db.options = options := by
    refine ⟨.error stop, ?_, fun _ impossible => by cases impossible⟩
    rw [openDb, run_openDepth_failed false checked stored.present failed, same]
  cases checked : checkOptions options with
  | error stop =>
    refine ⟨.error stop, ?_, fun _ impossible => by cases impossible⟩
    rw [openDb, openDepth, checked, Program.run_ofExcept_error_bind]
  | ok _ =>
    by_cases empty : ∃ file ∈ log.files, file.records = []
    · obtain ⟨status, reached, failed, same⟩ := run_loadAll_emptyFile log reliable plain
        stored disk.started disk.readable.files empty
      exact failing checked failed same
    · have loadable : ∀ file ∈ log.files, file.Loadable env.crc := fun file member =>
        ⟨disk.readable.files file member, fun none => empty ⟨file, member, none⟩⟩
      cases replayed : Journal.replay .empty (log.entries env.crc) with
      | none =>
        have loading := run_loadAll log reliable plain stored disk.started loadable
        rw [replayed] at loading
        obtain ⟨reached, failed, same⟩ := loading
        exact failing checked failed same
      | some state =>
        obtain ⟨db, ran, loaded⟩ := run_openDepth_loaded checked reliable plain stored
          disk.started loadable replayed
        refine ⟨.ok db, ran, fun other same => ?_⟩
        cases same
        exact ⟨loaded.holds.attached, loaded.options⟩

end Open

section Write

variable {env : Platform} {session : Session} {log : Log}

/-- What a writing call has done, whatever it returns and whatever it did to the index. -/
structure Logs (env : Platform) (session : Session) (log : Log) (reached : Session)
    (records : List LogRecord) : Prop where
  attached : Attached env reached
    (log.appendAll env.crc session.db.options.dataFileSize records)
  stored : ∃ txnId, Stored env (session.withTxnId txnId) log records reached
  tagged : ∀ record ∈ records, ∃ key txnId, record.Tagged key txnId

variable (attached : Attached env session log)

include attached

theorem Attached.logs_nothing (txnId : UInt64) :
    Logs env session log (session.withTxnId txnId) [] :=
  ⟨attached.withTxnId txnId, ⟨txnId, (Appended.nil (attached.withTxnId txnId)).stored _⟩,
    fun _ member => by cases member⟩

theorem Attached.logs_put (key value : Bytes) :
    ∃ records, Logs env session log ((put env key value).run session).2 records := by
  cases nonempty : key.empty with
  | true =>
    rw [run_put_empty nonempty]
    exact ⟨[], attached.logs_nothing session.db.txnId⟩
  | false =>
    obtain ⟨middle, appended, ran⟩ := attached.run_put nonempty value
    rw [ran]
    refine ⟨[putRecord key value], appended.attached.withIndex _,
      ⟨session.db.txnId, appended.stored _⟩, fun record member => ?_⟩
    rw [List.mem_singleton.mp member]
    exact ⟨_, _, tagged_cString key value.cString .normal zero_small⟩

theorem Attached.logs_delete (key : Bytes) :
    ∃ records, Logs env session log ((delete env key).run session).2 records := by
  have unchanged := attached.logs_nothing session.db.txnId
  cases nonempty : key.empty with
  | true =>
    rw [run_delete_empty nonempty]
    exact ⟨[], unchanged⟩
  | false =>
    cases found : session.db.index.lookup key.cString with
    | none =>
      rw [run_delete_missing nonempty found]
      exact ⟨[], unchanged⟩
    | some pst =>
      obtain ⟨middle, appended, ran⟩ := attached.run_delete nonempty found
      rw [ran]
      refine ⟨[deleteRecord key], appended.attached.withIndex _,
        ⟨session.db.txnId, appended.stored _⟩, fun record member => ?_⟩
      rw [List.mem_singleton.mp member]
      exact ⟨_, _, tagged_cString key [] .deleted zero_small⟩

theorem Attached.logs_commit (batch : WriteBatch) :
    ∃ records, Logs env session log
      ((WriteBatch.commit env).run ⟨batch, session⟩).2.session records := by
  rcases run_commit_cases env ⟨batch, session⟩ with ⟨outcome, ran, _⟩ | ran
  · rw [ran]
    exact ⟨[], attached.logs_nothing session.db.txnId⟩
  · rw [ran]
    by_cases small : (session.db.txnId + 1).toNat < 2 ^ 28
    · obtain ⟨outcome, reached, committed, attached', stored⟩ := attached.stored_commitPending
        ⟨batch, session⟩ batch.pendingWrites.nodup_inOrder rfl small
      rw [committed]
      refine ⟨_, attached', ⟨_, stored⟩, fun record member => ?_⟩
      obtain ⟨key, tagged⟩ := tagged_commit small member
      exact ⟨key, _, tagged⟩
    · rw [run_commitPending_large env ⟨batch, session⟩ _ small]
      exact ⟨[], attached.logs_nothing _⟩

theorem Attached.logs {request : Request} (writes : request.Writes) :
    ∃ records, Logs env session log (request.run env session).2 records := by
  cases request with
  | put key value => exact attached.logs_put key value
  | delete key => exact attached.logs_delete key
  | commit batch => exact attached.logs_commit batch
  | get | sync | merge => exact writes.elim

end Write

section Life

variable {env : Platform} {options : Options} {session reached : Session} {log : Log}
  {process : Process} {records : List LogRecord}

/-- What holds in every state: the directory holds a log that keeps to the limit, and the
object, if there is one, is attached to it. -/
structure Process.Rotates (env : Platform) (options : Options) (log : Log) (process : Process) :
    Prop where
  reliable : process.world.script = []
  disk : PlainDisk env.crc process.world.fs log
  packed : log.Packed env.crc options.dataFileSize
  object : ∀ session, process = .running session → Attached env session log ∧
    session.db.options = options ∧ options.dirPath.level = 0

theorem Logs.storable (logs : Logs env session log reached records)
    (whole : reached.world.WholeWrites) : ∀ record ∈ records, record.Storable env.crc := by
  obtain ⟨txnId, stored⟩ := logs.stored
  have trace : reached.world.trace = session.world.trace ++
      (log.locate env.crc session.limit records).map
        (Located.write env.crc session.level) := stored.trace
  refine storable_of_trace trace whole fun record member => ?_
  obtain ⟨key, id, tagged⟩ := logs.tagged record member
  exact tagged.keyed

theorem Log.Readable.appendAll {crc : Crc32c} {limit : Nat} (readable : log.Readable crc)
    (storable : ∀ record ∈ records, record.Storable crc)
    (tagged : ∀ record ∈ records, ∃ key txnId, record.Tagged key txnId) :
    (log.appendAll crc limit records).Readable crc := by
  induction records generalizing log with
  | nil => exact readable
  | cons record records ih =>
    obtain ⟨key, txnId, owned⟩ := tagged record (by simp)
    exact ih (readable.append (storable record (by simp)) owned)
      (fun later member => storable later (by simp [member]))
      fun later member => tagged later (by simp [member])

variable {world : World}

theorem Process.Rotates.closed (reliable : world.script = [])
    (disk : PlainDisk env.crc world.fs log) (packed : log.Packed env.crc options.dataFileSize) :
    Process.Rotates env options log (.closed world) :=
  ⟨reliable, disk, packed, fun _ impossible => by cases impossible⟩

section

variable (rotates : Process.Rotates env options log (.running session))

include rotates

theorem Process.Rotates.wrote (logs : Logs env session log reached records)
    (whole : reached.world.WholeWrites) :
    Process.Rotates env options (log.appendAll env.crc options.dataFileSize records)
      (.running reached) := by
  obtain ⟨_, rfl, top⟩ := rotates.object session rfl
  obtain ⟨txnId, stored⟩ := logs.stored
  have options : reached.db.options = session.db.options := stored.frame.options
  have files := logs.attached.stored
  have plain := rotates.disk.plain
  rw [options, top] at files
  refine ⟨logs.attached.reliable, ⟨files, logs.attached.started, ?_, ?_⟩,
    rotates.packed.appendAll (Nat.le_refl _) records, fun other same => ?_⟩
  · refine plain.of_frame stored.frame.levels fun handle outside => stored.frame.others handle ?_
    rw [Session.withTxnId_options, top]
    exact outside
  · exact rotates.disk.readable.appendAll (logs.storable whole) logs.tagged
  · cases same
    exact ⟨logs.attached, options, top⟩

theorem Process.Rotates.between {disk : Fs}
    (after : Process.Rotates env options (log.appendAll env.crc options.dataFileSize records)
      (.running reached))
    (between : Between env.crc 0 options.dataFileSize session.world.fs log records disk) :
    ∃ log', PlainDisk env.crc disk log' ∧ log'.Packed env.crc options.dataFileSize ∧
      Within log.files log'.files := by
  obtain ⟨files, held, partway⟩ := between.stored
  have found : ∀ found ∈ (Log.ofFiles files).records env.crc, found ∈
      (log.appendAll env.crc options.dataFileSize records).records env.crc := by
    intro found member
    rw [Log.records, Log.files_ofFiles] at member
    exact partway.begins.subset member
  refine ⟨Log.ofFiles files, ⟨?_, Log.started_ofFiles, ?_, ?_, ?_⟩,
    rotates.packed.later (.inl ⟨records, ?_⟩), ?_⟩
  · rw [Log.files_ofFiles]
    exact held
  · exact rotates.disk.plain.of_frame between.levels between.others
  · exact fun place member => after.disk.readable.whole place (found place member)
  · exact fun place member => after.disk.readable.tagged place (found place member)
  · rw [Log.files_ofFiles]
    exact partway.upper
  · rw [Log.files_ofFiles]
    exact partway.lower

theorem Process.Rotates.passed (logs : Logs env session log reached records)
    (whole : reached.world.WholeWrites) {disk : Fs}
    (passed : disk ∈ session.world.passed reached.world) :
    ∃ log', PlainDisk env.crc disk log' ∧ log'.Packed env.crc options.dataFileSize ∧
      Within log.files log'.files := by
  have after := rotates.wrote logs whole
  obtain ⟨_, rfl, top⟩ := rotates.object session rfl
  obtain ⟨txnId, stored⟩ := logs.stored
  have passes := stored.passes
  rw [Session.withTxnId_options, top] at passes
  have kept := passes.mono fun disk between => rotates.between after between
  exact kept.of_passed ⟨_, after.disk, after.packed, log.within_appendAll _ _ _⟩ disk passed

end

theorem Process.Rotates.opens (rotates : Process.Rotates env options log (.closed world))
    (top : options.dirPath.level = 0) :
    ∃ outcome, (openDb env options false).run world = (outcome, world) ∧
      ∀ db, outcome = .ok db → Process.Rotates env options log (.running ⟨db, world⟩) := by
  obtain ⟨outcome, ran, succeeds⟩ := rotates.disk.run_openDb rotates.reliable top
  refine ⟨outcome, ran, fun db same => ⟨rotates.reliable, rotates.disk, rotates.packed, ?_⟩⟩
  intro session running
  cases running
  obtain ⟨attached, kept⟩ := succeeds db same
  exact ⟨attached, kept, top⟩

theorem Process.Rotates.step {act : Act} {after : Process}
    (rotates : process.Rotates env options log)
    (stepped : act.WritingStep env options process after) :
    ∃ log', after.Rotates env options log' ∧ Within log.files log'.files := by
  obtain ⟨step, opens, calls, whole⟩ := stepped
  cases step with
  | opened top ran =>
    obtain ⟨rfl, rfl⟩ := opens _ _ rfl
    obtain ⟨outcome, ran', succeeds⟩ := rotates.opens top
    cases ran'.symm.trans ran
    exact ⟨log, succeeds _ rfl, .refl _⟩
  | notOpened top ran =>
    obtain ⟨rfl, rfl⟩ := opens _ _ rfl
    obtain ⟨outcome, ran', _⟩ := rotates.opens top
    cases ran'.symm.trans ran
    exact ⟨log, rotates, .refl _⟩
  | openStopped top passed =>
    obtain ⟨rfl, rfl⟩ := opens _ _ rfl
    obtain ⟨outcome, ran, _⟩ := rotates.opens top
    rw [ran] at passed ⊢
    have same := (Passes.refl (· = _) _).of_passed rfl _ passed
    subst same
    exact ⟨log, rotates, .refl _⟩
  | @answered session reached request ran =>
    obtain ⟨attached, _⟩ := rotates.object session rfl
    obtain ⟨records, logs⟩ := attached.logs (calls request rfl)
    rw [ran] at logs
    exact ⟨_, rotates.wrote logs whole, log.within_appendAll _ _ _⟩
  | @ended session reached request ran =>
    obtain ⟨attached, _⟩ := rotates.object session rfl
    obtain ⟨records, logs⟩ := attached.logs (calls request rfl)
    rw [ran] at logs
    have wrote := rotates.wrote logs whole
    exact ⟨_, .closed wrote.reliable wrote.disk wrote.packed, log.within_appendAll _ _ _⟩
  | @callStopped session request disk passed =>
    obtain ⟨attached, _⟩ := rotates.object session rfl
    obtain ⟨records, logs⟩ := attached.logs (calls request rfl)
    obtain ⟨log', held, packed, within⟩ := rotates.passed logs whole passed
    exact ⟨log', .closed logs.attached.reliable held packed, within⟩
  | closed => exact ⟨log, .closed rotates.reliable rotates.disk rotates.packed, .refl _⟩

theorem rotates_of_run {acts : List Act} (empty : EmptyDir world)
    (run : Run (Act.WritingStep env options) (.closed world) acts process) :
    ∃ log, process.Rotates env options log := by
  refine Run.invariant (fun _ process => ∃ log, process.Rotates env options log)
    (fun _ _ _ _ rotates stepped => ?_) [] ⟨.empty, ?_⟩ run
  · obtain ⟨log, rotates⟩ := rotates
    exact (rotates.step stepped).imp fun _ => And.left
  · refine .closed empty.reliable ⟨empty.stored env.crc, fun _ => rfl, empty.plain, ?_, ?_⟩
      (Log.packed_empty _ _)
    · rintro _ ⟨⟩
    · rintro _ ⟨⟩

/-- The active file ends at its write offset, is the newest in the table and in the directory,
and the next file gets the id behind it. -/
structure IsNewest (session : Session) (file : DataFile) : Prop where
  writeOff : ∃ content, session.world.fs.content?
    ⟨session.db.options.dirPath.level, .data file.fileId⟩ = some content ∧
      file.writeOff = content.length
  next : file.fileId = session.db.nextFileId - 1
  table : ∀ fileId older, session.db.olderFiles.lookup fileId = some (some older) →
    fileId < file.fileId
  directory : ∀ fileId, (session.world.fs.content?
    ⟨session.db.options.dirPath.level, .data fileId⟩).isSome → fileId ≤ file.fileId

/-- What rotation promises of an open database: once there is a data file there is an active
one, which is the newest, and every data file keeps to the limit or holds one record. -/
structure Rotated (env : Platform) (session : Session) : Prop where
  started : ∀ fileId, (session.world.fs.content?
    ⟨session.db.options.dirPath.level, .data fileId⟩).isSome → session.db.activeFile.isSome
  newest : ∀ file, session.db.activeFile = some file → IsNewest session file
  bounded : ∀ fileId content, session.world.fs.content?
    ⟨session.db.options.dirPath.level, .data fileId⟩ = some content →
      content.length ≤ session.db.options.dataFileSize ∨
        ∃ record, content = encodeLogRecord env.crc record

theorem Log.Packed.bounded {crc : Crc32c} {limit : Nat} {file : FileLog}
    (packed : log.Packed crc limit) (whole : log.Whole crc) (inside : file ∈ log.files) :
    (logBytes crc file.records).length ≤ limit ∨
      ∃ record, logBytes crc file.records = encodeLogRecord crc record := by
  rcases packed file inside with small | ⟨single, _⟩
  · exact .inl small
  · obtain ⟨record, only⟩ := List.length_eq_one_iff.mp single
    refine .inr ⟨record, ?_⟩
    have storable := whole.storable inside record (by simp [only])
    rw [only, logBytes_cons, logBytes_nil, List.append_nil, storable.writtenBytes_eq]

theorem Attached.isNewest {last : FileLog} (attached : Attached env session log)
    (active : log.active = some last) : IsNewest session (last.opened env.crc session.level) := by
  refine ⟨⟨_, attached.content_active active, rfl⟩, ?_, fun fileId older found => ?_,
    fun fileId found => ?_⟩
  · rw [attached.nextFileId_eq active, Nat.add_sub_cancel]
    rfl
  · obtain ⟨file, inside, rfl⟩ := attached.olderOnly fileId older found
    exact attached.older_lt active file inside
  · obtain ⟨file, inside, rfl⟩ := attached.stored.only fileId found
    exact attached.le_active active file inside

theorem Attached.rotated (attached : Attached env session log) (whole : log.Whole env.crc)
    (packed : log.Packed env.crc session.limit) : Rotated env session := by
  have pointed := attached.active
  refine ⟨fun fileId found => ?_, fun file active => ?_, fun fileId content found => ?_⟩
  · obtain ⟨file, inside, _⟩ := attached.stored.only fileId found
    obtain ⟨last, active⟩ := Log.active_of_mem attached.started inside
    rw [attached.pointed active]
    rfl
  · cases present : log.active with
    | none =>
      rw [active, present] at pointed
      cases pointed
    | some last =>
      rw [active, present] at pointed
      cases pointed
      exact attached.isNewest present
  · obtain ⟨file, inside, rfl⟩ := attached.stored.only fileId (by rw [found]; rfl)
    cases found.symm.trans (attached.stored.content file inside)
    exact packed.bounded whole inside

/-- Every state of a life of writing calls and restarts under the same options, from an empty
directory on. -/
theorem rotation_bound {world : World} {acts : List Act} (empty : EmptyDir world)
    (run : Run (Act.WritingStep env options) (.closed world) acts (.running session)) :
    session.db.options = options ∧ Rotated env session := by
  obtain ⟨log, rotates⟩ := rotates_of_run empty run
  obtain ⟨attached, rfl, _⟩ := rotates.object session rfl
  exact ⟨rfl, attached.rotated rotates.disk.readable.whole rotates.packed⟩

/-- Writing calls, restarts and crashes at any moment leave the bytes of a data file where they
are, and only put others behind them. -/
theorem data_files_only_grow {acts later : List Act} {after : Process} (empty : EmptyDir world)
    (run : Run (Act.WritingStep env options) (.closed world) acts process)
    (onward : Run (Act.WritingStep env options) process later after) {fileId : Nat}
    {content : List Byte}
    (held : process.world.fs.content? ⟨0, .data fileId⟩ = some content) :
    ∃ grown, after.world.fs.content? ⟨0, .data fileId⟩ = some (content ++ grown) := by
  obtain ⟨log, rotates⟩ := rotates_of_run empty run
  obtain ⟨log', rotates', within⟩ := onward.invariant
    (fun _ process => ∃ log', process.Rotates env options log' ∧ Within log.files log'.files)
    (fun _ _ _ _ before stepped => by
      obtain ⟨middle, rotates, within⟩ := before
      obtain ⟨log', rotates', onward⟩ := rotates.step stepped
      exact ⟨log', rotates', within.trans onward⟩) [] ⟨log, rotates, .refl _⟩
  obtain ⟨file, inside, rfl⟩ := rotates.disk.stored.only fileId (by rw [held]; rfl)
  cases held.symm.trans (rotates.disk.stored.content file inside)
  obtain ⟨whole, there, same, more, grows⟩ := within file inside
  refine ⟨logBytes env.crc more, ?_⟩
  rw [← logBytes_append, grows, ← same]
  exact rotates'.disk.stored.content whole there

def narrowOptions : Options := ⟨⟨"db", 0⟩, 15, false, .skipListIndex⟩

def narrowSession : Session :=
  ((put .reference (.ofString [97]) (.ofString [49])).run ⟨DB.new narrowOptions, .on ⟨[∅]⟩⟩).2

def rotatedSession : Session :=
  ((put .reference (.ofString [98]) (.ofString [50])).run narrowSession).2

theorem writingStep_put {key value : Bytes}
    (answered : ((put env key value).run session).1.isOk = true)
    (whole : ((put env key value).run session).2.world.WholeWrites) :
    Act.WritingStep env options (.running session) (.call (.put key value))
      (.running ((put env key value).run session).2) := by
  refine ⟨.answered (Prod.ext ?_ rfl), ?_, ?_, whole⟩
  · rw [Request.run, answer]
    cases outcome : ((put env key value).run session).1 with
    | ok status => rfl
    | error stop =>
      rw [outcome] at answered
      cases answered
  · rintro _ _ ⟨⟩
  · rintro _ ⟨⟩
    trivial

theorem writingStep_open {db : DB} (top : options.dirPath.level = 0)
    (ran : (openDb env options false).run world = (.ok db, world)) (whole : world.WholeWrites) :
    Act.WritingStep env options (.closed world) (.open options false) (.running ⟨db, world⟩) := by
  refine ⟨.opened top ran, ?_, ?_, whole⟩
  · rintro _ _ ⟨⟩
    exact ⟨rfl, rfl⟩
  · rintro _ ⟨⟩

theorem writingRun_narrowSession :
    Run (Act.WritingStep .reference narrowOptions) (.closed (.on ⟨[∅]⟩))
      [.open narrowOptions false, .call (.put (.ofString [97]) (.ofString [49]))]
      (.running narrowSession) :=
  .cons (writingStep_open rfl rfl (by decide))
    (.cons (writingStep_put (by decide +kernel) (by decide +kernel)) (.nil _))

theorem writingStep_rotatedSession :
    Act.WritingStep .reference narrowOptions (.running narrowSession)
      (.call (.put (.ofString [98]) (.ofString [50]))) (.running rotatedSession) :=
  writingStep_put (by decide +kernel) (by decide +kernel)

theorem data_files_only_grow_rotated : ∃ grown, rotatedSession.world.fs.content? ⟨0, .data 0⟩ =
      some (encodeLogRecord .castagnoli (putRecord (.ofString [97]) (.ofString [49])) ++ grown) := by
  have held : narrowSession.world.fs.content? ⟨0, .data 0⟩ = some (encodeLogRecord .castagnoli
      (putRecord (.ofString [97]) (.ofString [49]))) := by decide +kernel
  exact data_files_only_grow ⟨rfl, rfl⟩ writingRun_narrowSession
    (.cons writingStep_rotatedSession (.nil _)) held

theorem writingRun_rotatedSession :
    Run (Act.WritingStep .reference narrowOptions) (.closed (.on ⟨[∅]⟩))
      [.open narrowOptions false, .call (.put (.ofString [97]) (.ofString [49])),
        .call (.put (.ofString [98]) (.ofString [50])), .close]
      (.closed rotatedSession.world) := by
  refine (writingRun_narrowSession.snoc writingStep_rotatedSession).snoc ⟨.closed, ?_, ?_, ?_⟩
  · rintro _ _ ⟨⟩
  · rintro _ ⟨⟩
  · decide +kernel

theorem rotation_bound_restarted : ∃ db,
    (openDb .reference narrowOptions false).run rotatedSession.world =
      (.ok db, rotatedSession.world) ∧ Rotated .reference ⟨db, rotatedSession.world⟩ := by
  obtain ⟨log, rotates⟩ := rotates_of_run ⟨rfl, rfl⟩ writingRun_rotatedSession
  obtain ⟨outcome, ran, _⟩ := rotates.opens rfl
  have succeeds : ((openDb .reference narrowOptions false).run
    rotatedSession.world).1.isOk = true := by decide +kernel
  rw [show (openDb .reference narrowOptions false).run rotatedSession.world = _ from ran]
    at succeeds
  cases outcome with
  | error stop => cases succeeds
  | ok db =>
    have restarted := writingRun_rotatedSession.snoc
      (writingStep_open rfl ran (by decide +kernel))
    exact ⟨db, ran, (rotation_bound ⟨rfl, rfl⟩ restarted).2⟩

end Life

end Bitdb
