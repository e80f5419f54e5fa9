import Bitdb.Base.Faults
import Bitdb.Lifecycle

/-! Appending to the log while system calls fail: a failed append has left the log as it was or with
the record in it. -/

set_option autoImplicit false

namespace Bitdb

open Base Program List WriteBatch CutIn DataFile

section Calls

variable {α : Type} {world : World} {stops : World → Prop}

theorem World.failing_nil (reliable : world.script = []) : world.failing [] = world := by
  obtain ⟨fs, script, trace, disks⟩ := world
  subst reliable
  rfl

theorem run_nextOutcome_failing (fails : Bool) (calls : List Bool) :
    nextOutcome.run (world.failing (fails :: calls)) =
      (.ok (if fails then .fails else .done), world.failing calls) := rfl

variable (reliable : world.script = [])

include reliable

theorem cutIn_call {call : Io α} {value : α} {after : World}
    (ran : call.run world = (.ok value, after)) (settled : after.script = [])
    (faulty : ∀ fails calls,
      call.run (world.failing (fails :: calls)) = (.ok value, after.failing calls) ∨
        ∃ error reached, call.run (world.failing (fails :: calls)) =
          (.error error, reached.failing calls) ∧ stops reached) :
    CutIn World.failing stops call world := by
  intro calls
  rw [ran]
  cases calls with
  | nil =>
    refine ⟨[], .inl ?_⟩
    rw [World.failing_nil reliable, World.failing_nil settled]
    exact ran
  | cons fails calls => exact ⟨calls, faulty fails calls⟩

theorem cutIn_openDataFile {level fileId : Nat}
    (missing : world.fs.content? ⟨level, .data fileId⟩ = none) :
    CutIn World.failing stops (openDataFile level fileId) world := by
  refine cutIn_call reliable (run_bind_ok (run_openFile_new reliable missing)) reliable
    fun fails calls => .inl ?_
  have created : (openFile ⟨level, .data fileId⟩).run (world.failing (fails :: calls)) =
      (.ok (), (world.changed (world.fs.put ⟨level, .data fileId⟩ [])).failing calls) := by
    have absent : (world.failing calls).fs.content? ⟨level, .data fileId⟩ = none := missing
    rw [openFile, run_bind_ok (run_nextOutcome_failing fails calls), run_read_bind, absent]
    rfl
  exact run_bind_ok created

theorem cutIn_sync (file : DataFile) : CutIn World.failing (· = world) file.sync world := by
  refine cutIn_call reliable (run_sync reliable) reliable fun fails calls => ?_
  cases fails with
  | true => exact .inr ⟨_, world, rfl, rfl⟩
  | false => exact .inl rfl

theorem cutIn_write {file : DataFile} {old : List Byte}
    (found : world.fs.content? file.handle = some old) (bytes : List Byte) :
    CutIn World.failing (· = world) (file.write bytes) world := by
  refine cutIn_call reliable (run_write bytes reliable found) reliable
    fun fails calls => ?_
  cases fails with
  | true => exact .inr ⟨_, world, rfl, rfl⟩
  | false =>
    exact .inl (run_write_done bytes (run_nextOutcome_failing false calls) found)

end Calls

/-- Where an append of some records may have stopped: the first of them, `front`, are in the
log, and there may be an empty file behind them. -/
structure Halfway (env : Platform) (session : Session) (log : Log) (front : List LogRecord)
    (reached : Session) : Prop where
  attached : ∃ log', Attached env reached log' ∧ log'.records env.crc =
    (log.appendAll env.crc session.db.options.dataFileSize front).records env.crc
  frame : AppendFrame session reached
  trace : reached.world.trace = session.world.trace ++
    (log.locate env.crc session.db.options.dataFileSize front).map
      (Located.write env.crc session.db.options.dirPath.level)

section Append

variable {env : Platform} {session middle reached : Session} {log : Log}

theorem Appended.halfway {records : List LogRecord}
    (appended : Appended env session log records reached) :
    Halfway env session log records reached :=
  ⟨⟨_, appended.attached, rfl⟩, appended.frame, appended.trace⟩

theorem Appended.then_halfway {first front : List LogRecord}
    (appended : Appended env session log first middle) (halfway : Halfway env middle
      (log.appendAll env.crc session.limit first) front reached) :
    Halfway env session log (first ++ front) reached := by
  obtain ⟨⟨log', attached, records⟩, frame, trace⟩ := halfway
  rw [appended.frame.options] at records trace
  refine ⟨⟨log', attached, ?_⟩, appended.frame.trans frame, ?_⟩
  · rw [records, Log.appendAll_append]
  · rw [trace, appended.trace, Log.locate_append, map_append, append_assoc]

theorem cutIn_io {α : Type} {call : Io α} {stops : World → Prop}
    (cut : CutIn World.failing stops call session.world) :
    CutIn Session.failing (fun reached => ∃ world, stops world ∧ reached = { session with world })
      (io call) session :=
  cut.focus (fun _ => rfl) fun _ _ _ => rfl

variable {stops : Session → Prop}

theorem cutIn_derefActive {file : DataFile} (active : session.db.activeFile = some file) :
    CutIn Session.failing stops derefActive session := by
  refine .steady fun calls => ?_
  have same : (session.failing calls).db.activeFile = some file := active
  rw [run_derefActive active, run_derefActive same]

theorem cutIn_newActiveDataFile (reliable : session.world.script = [])
    (missing : session.world.fs.content? ⟨session.level, .data session.db.nextFileId⟩ = none) :
    CutIn Session.failing stops newActiveDataFile session := by
  have opening : CutIn World.failing (fun _ => False) (openDataFile
      session.level session.db.nextFileId) session.world :=
    cutIn_openDataFile reliable missing
  refine bind (.steady fun _ => rfl) ?_
  rintro _ _ ⟨⟩
  refine bind ((cutIn_io opening).mono ?_) fun _ _ _ => .steady fun _ => rfl
  rintro _ ⟨_, never, _⟩
  exact never.elim

theorem cutIn_flush (reliable : session.world.script = []) (file : DataFile) (pst : LogRecordPst) :
    CutIn Session.failing (· = session)
      (if session.db.options.isSyncWrite then do
        io file.sync
        return pst
      else return pst) session := by
  split
  · refine bind ((cutIn_io (cutIn_sync reliable file)).mono ?_) fun _ _ _ =>
      .steady fun _ => rfl
    rintro _ ⟨_, rfl, rfl⟩
    rfl
  · exact .steady fun _ => rfl

theorem cutIn_checkTrueIn {holds : Bool} {line : Nat} {file expression function debug : String} :
    CutIn Session.failing stops (checkTrueIn file holds expression line function debug)
      session := by
  refine .steady fun _ => ?_
  cases holds <;> rfl

section

variable (attached : Attached env session log)

include attached

theorem Attached.cutIn_ensureActive : CutIn Session.failing stops ensureActive session := by
  refine bind (.steady fun _ => rfl) ?_
  rintro _ _ ⟨⟩
  split
  · exact cutIn_newActiveDataFile attached.reliable (attached.stored.missing attached.fresh)
  · exact .steady fun _ => rfl

theorem Attached.cutIn_makeRoom (size : Nat) :
    CutIn Session.failing (Halfway env session log []) (makeRoom size) session := by
  obtain ⟨middle, started, attached', frame, trace, _⟩ := attached.run_ensureActive
  have unwritten : Halfway env session log [] middle := by
    refine ⟨⟨_, attached', ?_⟩, frame, ?_⟩
    · exact (Log.files_located_current env.crc ⟨log.older, some log.current⟩).trans
        (Log.files_located_current env.crc log).symm
    · simpa [Log.locate] using trace
  refine bind attached.cutIn_ensureActive ?_
  intro _ reached ran
  cases started.symm.trans ran
  refine bind (cutIn_derefActive attached'.active) ?_
  intro active reached ran
  cases (run_derefActive attached'.active).symm.trans ran
  refine bind (.steady fun _ => rfl) ?_
  rintro _ _ ⟨⟩
  split
  · refine bind ((cutIn_io (cutIn_sync attached'.reliable _)).mono ?_) ?_
    · rintro _ ⟨_, rfl, rfl⟩
      exact unwritten
    · intro _ reached ran
      cases (run_io (run_sync attached'.reliable)).symm.trans ran
      refine bind (.steady fun _ => rfl) ?_
      rintro _ _ ⟨⟩
      exact cutIn_newActiveDataFile attached'.reliable (attached'.stored.missing attached'.fresh)
  · exact .steady fun _ => rfl

theorem Attached.cutIn_writeActive {last : FileLog} (active : log.active = some last)
    (record : LogRecord) :
    CutIn Session.failing
      (fun reached => reached = session ∨ reached = withRecord env.crc last record session)
      (writeActive (encodeLogRecord env.crc record)) session := by
  have pointed := attached.pointed active
  have found := attached.content_active active
  refine bind (cutIn_derefActive pointed) ?_
  intro file reached ran
  cases (run_derefActive pointed).symm.trans ran
  refine bind ((cutIn_io (cutIn_write attached.reliable found _)).mono ?_) ?_
  · rintro _ ⟨_, rfl, rfl⟩
    exact .inl rfl
  · intro written reached ran
    cases (run_io (run_write _ attached.reliable found)).symm.trans ran
    refine bind (.steady fun _ => rfl) ?_
    rintro _ _ ⟨⟩
    refine bind (.steady fun _ => rfl) ?_
    rintro _ _ ⟨⟩
    refine mono (cutIn_flush (by exact attached.reliable) _ _) ?_
    rintro _ rfl
    exact .inr (by simp [withRecord, FileLog.opened, FileLog.handle, FileLog.size, writtenBytes])

theorem Attached.cutIn_appendLogRecord (record : LogRecord) :
    CutIn Session.failing (fun reached => ∃ front, front <+: [record] ∧
      Halfway env session log front reached) (appendLogRecord env record) session := by
  obtain ⟨appended, ran, done⟩ := attached.run_appendLogRecord record
  obtain ⟨middle, room, attached', frame, trace, _⟩ := attached.run_makeRoom record
  obtain ⟨last, active, _⟩ := log.exists_room env.crc session.limit record
  refine bind ((attached.cutIn_makeRoom _).mono fun reached halfway =>
    ⟨[], nil_prefix, halfway⟩) ?_
  intro _ reached made
  cases room.symm.trans made
  refine (attached'.cutIn_writeActive active record).mono ?_
  rintro reached (same | written)
  · subst same
    exact ⟨[], nil_prefix, ⟨_, attached', log.records_room _ _ record⟩, frame,
      by simpa [Log.locate] using trace⟩
  · subst written
    refine ⟨[record], prefix_refl _, ?_⟩
    have wrote := attached'.run_writeActive active record
    rw [appendLogRecord, Program.run_bind_ok room, wrote] at ran
    rw [(Prod.mk.inj ran).2]
    exact done.halfway

theorem Attached.cutIn_put {key : Bytes} (nonempty : key.empty = false) (value : Bytes) :
    CutIn Session.failing (fun reached => ∃ front, front <+: [putRecord key value] ∧
      Halfway env session log front reached) (put env key value) session := by
  simp only [put, nonempty, encodeLogRecordWithTxnID_small key zero_small, Bool.false_eq_true,
    ↓reduceIte]
  refine bind (.steady fun _ => rfl) ?_
  rintro _ _ ⟨⟩
  exact bind (attached.cutIn_appendLogRecord _) fun _ _ _ => .steady fun _ => rfl

theorem Attached.cutIn_delete {key : Bytes} (nonempty : key.empty = false) :
    CutIn Session.failing (fun reached => ∃ front, front <+: [deleteRecord key] ∧
      Halfway env session log front reached) (delete env key) session := by
  simp only [delete, nonempty, encodeLogRecordWithTxnID_small key zero_small, Bool.false_eq_true,
    ↓reduceIte]
  refine bind (.steady fun _ => rfl) ?_
  rintro _ _ ⟨⟩
  split
  · exact .steady fun _ => rfl
  · refine bind (.steady fun _ => rfl) ?_
    rintro _ _ ⟨⟩
    refine bind (attached.cutIn_appendLogRecord _) fun _ _ _ => ?_
    refine bind (.steady fun _ => rfl) fun _ _ _ => ?_
    refine bind (.steady fun _ => rfl) fun _ _ _ => ?_
    refine bind (.steady fun _ => rfl) fun _ _ _ => ?_
    exact bind cutIn_checkTrueIn fun _ _ _ => .steady fun _ => rfl

end

end Append

section Commit

variable {env : Platform} {state : BatchSession} {log : Log} {txnId : UInt64}

variable {stops : Session → Prop} {session : Session}

theorem cutIn_onSession {α : Type} {method : Method α}
    (cut : CutIn Session.failing stops method session) (batch : WriteBatch) :
    CutIn BatchSession.failing (fun reached => stops reached.session) (onSession method)
      ⟨batch, session⟩ := by
  refine mono (cut.focus (fun _ => rfl) fun _ _ _ => rfl) ?_
  rintro _ ⟨_, stopped, rfl⟩
  exact stopped

theorem Attached.cutIn_appendPending (small : txnId.toNat < 2 ^ 28)
    (pending : List (List Byte × LogRecord)) (positions : WriteBatch.Positions)
    (attached : Attached env state.session log) :
    CutIn BatchSession.failing (fun reached => ∃ front, front <+: txnRecords txnId pending ∧
      Halfway env state.session log front reached.session)
      (appendPending env txnId pending positions) state := by
  induction pending generalizing state log positions with
  | nil => exact .steady fun _ => rfl
  | cons item rest ih =>
    obtain ⟨key, record⟩ := item
    obtain ⟨reached, ran, appended⟩ := attached.run_appendLogRecord (txnRecord txnId record)
    rw [appendPending, encodeLogRecordWithTxnID_small _ small]
    refine bind (.steady fun _ => rfl) ?_
    rintro _ _ ⟨⟩
    refine bind (.steady fun _ => rfl) ?_
    rintro _ _ ⟨⟩
    refine bind (mono (cutIn_onSession (attached.cutIn_appendLogRecord
      (txnRecord txnId record)) _) ?_) ?_
    · rintro stopped ⟨front, begins, halfway⟩
      exact ⟨front, begins.trans ⟨txnRecords txnId rest, rfl⟩, halfway⟩
    · intro pst stored wrote
      cases (run_onSession ran).symm.trans wrote
      refine (ih _ appended.attached).mono ?_
      rintro stopped ⟨front, begins, halfway⟩
      exact ⟨txnRecord txnId record :: front, cons_prefix_cons.mpr ⟨rfl, begins⟩,
        appended.then_halfway halfway⟩

theorem cutIn_indexRecord (key : Bytes) (type : LogRecordType) (pst : LogRecordPst) :
    CutIn Session.failing stops (indexRecord key type pst) session := by
  cases type with
  | normal => exact .steady fun _ => rfl
  | deleted =>
    refine bind (.steady fun _ => rfl) fun _ _ _ => ?_
    exact bind (.steady fun _ => rfl) fun _ _ _ => cutIn_checkTrueIn
  | _ => exact .steady fun _ => rfl

theorem cutIn_indexPending (positions : WriteBatch.Positions)
    (pending : List (List Byte × LogRecord)) :
    CutIn Session.failing stops (indexPending positions pending) session := by
  induction pending generalizing session with
  | nil => exact .steady fun _ => rfl
  | cons item rest ih =>
    obtain ⟨key, record⟩ := item
    rw [indexPending]
    split
    · exact bind (.steady fun _ => rfl) fun _ _ _ => ih
    · exact bind (cutIn_indexRecord _ _ _) fun _ _ _ => ih

theorem Attached.cutIn_commitPending (attached : Attached env session log) (batch : WriteBatch)
    (pending : List (List Byte × LogRecord)) (distinct : (pending.map Prod.fst).Nodup)
    (next : session.db.txnId + 1 = txnId) (small : txnId.toNat < 2 ^ 28) :
    CutIn BatchSession.failing
      (fun reached => ∃ front, front <+: txnRecords txnId pending ++ [finishRecord txnId] ∧
        Halfway env (session.withTxnId txnId) log front reached.session)
      (commitPending env pending) ⟨batch, session⟩ := by
  have begun := attached.withTxnId txnId
  obtain ⟨placed, middle, ran, appended, _⟩ := run_appendPending small pending
    ⟨batch, session.withTxnId txnId⟩ log ∅ begun distinct
  refine bind (.steady fun _ => rfl) ?_
  rintro _ _ ⟨⟩
  refine read_bind (fun _ => rfl) ?_
  simp only [next]
  refine bind ((begun.cutIn_appendPending small pending ∅).mono ?_) ?_
  · rintro stopped ⟨front, begins, halfway⟩
    exact ⟨front, begins.trans (prefix_append _ _), halfway⟩
  · intro positions stored wrote
    cases ran.symm.trans wrote
    have finishing : CutIn Session.failing (fun reached => ∃ front, front <+: [finishRecord txnId] ∧
        Halfway env middle.session (log.appendAll env.crc
          (session.withTxnId txnId).db.options.dataFileSize (txnRecords txnId pending)) front
          reached) (appendFinish env txnId) middle.session := by
      rw [appendFinish, encodeLogRecordWithTxnID_small _ small]
      refine bind (.steady fun _ => rfl) ?_
      rintro _ _ ⟨⟩
      exact appended.attached.cutIn_appendLogRecord (finishRecord txnId)
    refine bind (mono (cutIn_onSession finishing middle.batch) ?_) ?_
    · rintro stopped ⟨front, begins, halfway⟩
      exact ⟨_, (prefix_append_right_inj _).mpr begins, appended.then_halfway halfway⟩
    · intro _ finished _
      have indexing : CutIn Session.failing (fun _ => False)
          (indexPending placed pending) finished.session := cutIn_indexPending _ _
      refine bind (mono (cutIn_onSession indexing finished.batch) fun _ never =>
        never.elim) fun _ _ _ => ?_
      exact bind (.steady fun _ => rfl) fun _ _ _ => .steady fun _ => rfl

end Commit

end Bitdb
