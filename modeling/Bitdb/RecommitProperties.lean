import Bitdb.FailureProperties
import Bitdb.MergeOutputProperties

/-! Several calls of `Commit` on one batch. `Commit` changes the records in place, so committing
them once more writes them under other keys. -/

set_option autoImplicit false

namespace Bitdb

open Base Program WriteBatch PendingWrites

section Keys

def SameKeys (before after : BatchSession) : Prop :=
  ∀ key, key ∈ after.batch.pendingWrites ↔ key ∈ before.batch.pendingWrites

theorem SameKeys.refl (state : BatchSession) : SameKeys state state := fun _ => .rfl

theorem SameKeys.trans (first second third : BatchSession) (front : SameKeys first second)
    (back : SameKeys second third) : SameKeys first third :=
  fun key => (back key).trans (front key)

theorem keeps_onSession {α : Type} (method : Method α) : Keeps SameKeys (onSession method) := by
  intro state
  exact .refl state

theorem keeps_appendPending (env : Platform) (txnId : UInt64)
    (pending : List (List Byte × LogRecord)) (positions : WriteBatch.Positions) :
    Keeps SameKeys (appendPending env txnId pending positions) := by
  induction pending generalizing positions with
  | nil => exact .pure .refl _
  | cons item rest ih =>
    obtain ⟨key, record⟩ := item
    refine .bind SameKeys.trans (.ofExcept .refl _) fun encodedKey => ?_
    refine .bind SameKeys.trans (.modify fun state other => AList.mem_replace) fun _ => ?_
    exact .bind SameKeys.trans (keeps_onSession _) fun pst => ih _

theorem keeps_commit (env : Platform) : Keeps SameKeys (commit env) := by
  refine .bind SameKeys.trans (.read .refl) fun state => ?_
  refine .ite (fun _ => .pure .refl _) fun _ => .ite (fun _ => .stop .refl _) fun _ => ?_
  refine .bind SameKeys.trans (keeps_onSession _) fun _ => ?_
  refine .bind SameKeys.trans (.read .refl) fun state => ?_
  refine .bind SameKeys.trans (keeps_appendPending env _ _ _) fun positions => ?_
  refine .bind SameKeys.trans (keeps_onSession _) fun _ => ?_
  refine .bind SameKeys.trans (keeps_onSession _) fun _ => ?_
  exact .bind SameKeys.trans (.modify fun state => .refl state) fun _ => .pure .refl _

end Keys

section Commit

variable {env : Platform} {session : Session} {log : Log} {keys : KeyState} {batch : WriteBatch}

theorem run_batchPut_eq (key value : Bytes) (state : BatchSession) :
    (WriteBatch.put key value).run state =
      if key.empty then
        (.error (.failed (.invalidArgument "WriteBatch::Put" "key is empty")), state)
      else
        let record : LogRecord := ⟨key.cString, value.cString, .normal⟩
        (.ok .ok, ⟨{ state.batch with
          pendingWrites := state.batch.pendingWrites.emplace key.cString record },
            state.session⟩) := by
  cases empty : key.empty with
  | true =>
    simp only [WriteBatch.put, empty, ↓reduceIte]
    rfl
  | false =>
    simp only [WriteBatch.put, empty, Bool.false_eq_true, ↓reduceIte]
    rfl

theorem run_commit_refused (env : Platform) (state : BatchSession)
    (many : state.batch.options.maxBatchNum < state.batch.pendingWrites.inOrder.length) :
    (commit env).run state =
      (.error (.failed (.notSupported "WriteBatch::Commit" "exceed max batch number")), state) := by
  have nonempty : state.batch.pendingWrites.inOrder ≠ [] := by
    intro empty
    simp [empty] at many
  rw [run_commit_eq, if_neg nonempty, if_pos many]

theorem Attached.commit_ok {calls : List Bool} {status : Status} {left : BatchSession}
    (attached : Attached env session log)
    (ran : (commit env).run ⟨batch, session.failing calls⟩ = (.ok status, left)) :
    ∃ reached, (commit env).run ⟨batch, session⟩ = (.ok status, reached) ∧
      left.failing [] = reached := by
  rw [run_commit_eq] at ran ⊢
  by_cases nothing : batch.pendingWrites.inOrder = []
  · rw [if_pos nothing] at ran ⊢
    cases ran
    exact ⟨_, rfl, congrArg (BatchSession.mk batch)
      (Session.failing_failing attached.reliable calls)⟩
  · by_cases many : batch.options.maxBatchNum < batch.pendingWrites.inOrder.length
    · rw [if_neg nothing, if_pos many] at ran
      cases ran
    · rw [if_neg nothing, if_neg many] at ran ⊢
      by_cases small : (session.db.txnId + 1).toNat < 2 ^ 28
      · obtain ⟨outcome, reached, quiet, attached', _⟩ := attached.stored_commitPending
          ⟨batch, session⟩ batch.pendingWrites.nodup_inOrder rfl small
        obtain ⟨rest, same | ⟨_, _, stopped, _⟩⟩ := attached.cutIn_commitPending batch
          batch.pendingWrites.inOrder nodup_inOrder rfl small calls
        · rw [show (commitPending env batch.pendingWrites.inOrder).run
            (BatchSession.failing calls ⟨batch, session⟩) = _ from ran, quiet] at same
          obtain ⟨rfl, rfl⟩ := Prod.mk.inj same
          exact ⟨reached, quiet, congrArg (BatchSession.mk reached.batch)
            (Session.failing_failing attached'.reliable rest)⟩
        · cases stopped.symm.trans ran
      · rw [run_commitPending_large env ⟨batch, session.failing calls⟩ _ small] at ran
        cases ran

theorem Live.commit_succeeds {reached : Session} (live : Live env session log keys)
    (succeeds : (Update.commit batch).Succeeds env session reached) :
    ∃ log' keys' txnId, Live env reached log' keys' ∧ CallFrame (session.withTxnId txnId) reached ∧
      ∀ key : Bytes, key.cString ∉ batch.pendingWrites →
        ((get env key true).run reached).1 = ((get env key true).run session).1 := by
  obtain ⟨status, ran⟩ := succeeds.ran
  obtain ⟨_, _, _, shown, ran', served, contents, _⟩ :=
    live.serves.run_update succeeds.fresh (Update.accepted_of_ok ran) (live.fits succeeds)
  cases ran.symm.trans ran'
  obtain ⟨records, txnId, keys', small, wrote⟩ := live.wrote_update succeeds
  refine ⟨_, keys', txnId, live.wrote wrote small succeeds.whole, wrote.stored.frame, ?_⟩
  intro key outside
  refine served.same_get live.serves ?_
  have absent : batch.pendingWrites.lookup key.cString = none := AList.lookup_eq_none.mpr outside
  simp [contents, Update.apply, values, absent]

theorem Live.batch_commit {state reached : BatchSession} (live : Live env state.session log keys)
    (fresh : state.batch.Fresh ∨
      state.batch.options.maxBatchNum < state.batch.pendingWrites.inOrder.length)
    (stepped : BatchAct.Step env state .commit reached) :
    ∃ log' keys' txnId, Live env reached.session log' keys' ∧
      CallFrame (state.session.withTxnId txnId) reached.session ∧
      ∀ key : Bytes, key.cString ∉ state.batch.pendingWrites →
        ((get env key true).run reached.session).1 = ((get env key true).run state.session).1 := by
  obtain ⟨batch, session⟩ := state
  cases stepped with
  | @commit left calls outcome ran answered incomplete whole =>
    rcases fresh with fresh | many
    · cases outcome with
      | ok status =>
        obtain ⟨reached, quiet, rfl⟩ := live.holds.attached.commit_ok ran
        refine live.commit_succeeds ⟨⟨status, ?_⟩, fresh, whole⟩
        rw [Update.run, quiet]
      | error stop =>
        cases stop with
        | failed status =>
          have failed : (Update.commit batch).Fails env session
              (left.failing []).session := by
            refine ⟨⟨calls, status, left.session, ?_, rfl⟩, fresh, whole⟩
            rw [Update.run]
            exact congrArg (fun result => (result.1, result.2.session)) ran
          obtain ⟨log', keys', txnId, still, same, frame, _⟩ :=
            live.after_failure failed (incomplete status rfl)
          refine ⟨log', keys', txnId, still, frame, fun key _ => ?_⟩
          exact still.serves.same_get live.serves (by rw [same])
        | exited | faulted | looping => cases answered
    · cases (run_commit_refused env (BatchSession.failing calls ⟨batch, session⟩) many).symm.trans
        ran
      have same : (session.failing calls).failing [] = session :=
        Session.failing_failing live.reliable calls
      refine ⟨log, keys, session.db.txnId, ?_, ?_, fun key _ => ?_⟩
      · show Live env ((session.failing calls).failing []) log keys
        rw [same]
        exact live
      · show CallFrame session ((session.failing calls).failing [])
        rw [same]
        exact (AppendFrame.refl session).toCallFrame
      · show ((get env key true).run ((session.failing calls).failing [])).1 = _
        rw [same]

end Commit

section Run

variable {env : Platform} {start session : Session} {log : Log} {keys : KeyState}
  {state reached : BatchSession} {act : BatchAct} {acts : List BatchAct}

def Untouched (acts : List BatchAct) (key : List Byte) : Prop :=
  ∀ put value, .put put value ∈ acts → put.cString ≠ key

/-- What calls on a batch keep: the database could be opened again, and apart from the keys that
were put it shows what it has shown at the start. -/
structure BatchKeeps (env : Platform) (start : Session) (acts : List BatchAct)
    (state : BatchSession) : Prop where
  live : ∃ log keys, Live env state.session log keys
  unmarked : ¬ state.session.world.fs.Marked
  pending : ∀ key, Untouched acts key → key ∉ state.batch.pendingWrites
  others : ∀ key : Bytes, Untouched acts key.cString →
    ((get env key true).run state.session).1 = ((get env key true).run start).1

theorem Untouched.front {key : List Byte} (untouched : Untouched (acts ++ [act]) key) :
    Untouched acts key :=
  fun put value member => untouched put value (List.mem_append_left _ member)

theorem mem_emplace_iff (pending : PendingWrites) (key other : List Byte) (record : LogRecord) :
    other ∈ pending.emplace key record ↔ other = key ∨ other ∈ pending := by
  rw [emplace]
  split
  · rename_i present
    refine ⟨.inr, ?_⟩
    rintro (rfl | inside)
    · exact present
    · exact inside
  · exact AList.mem_insert pending

theorem BatchKeeps.step (keeps : BatchKeeps env start acts state)
    (stepped : act.OrderlyStep env state reached) :
    BatchKeeps env start (acts ++ [act]) reached := by
  obtain ⟨step, fresh⟩ := stepped
  cases act with
  | put key value =>
    cases step with
    | put ran =>
      rw [run_batchPut_eq] at ran
      split at ran
      · cases ran
        exact ⟨keeps.live, keeps.unmarked, fun other untouched =>
          keeps.pending other untouched.front, fun other untouched =>
            keeps.others other untouched.front⟩
      · cases ran
        refine ⟨keeps.live, keeps.unmarked, fun other untouched member => ?_,
          fun other untouched => keeps.others other untouched.front⟩
        rcases (mem_emplace_iff _ _ _ _).mp member with same | inside
        · exact untouched key value (by simp) same.symm
        · exact keeps.pending other untouched.front inside
  | commit =>
    obtain ⟨log, keys, live⟩ := keeps.live
    obtain ⟨log', keys', txnId, still, frame, same⟩ := live.batch_commit (fresh rfl) step
    have kept : SameKeys state reached := by
      cases step with
      | @commit left calls outcome ran _ _ _ =>
        have here := keeps_commit env (state.failing calls)
        rw [ran] at here
        exact here
    refine ⟨⟨log', keys', still⟩, ?_, fun key untouched member => ?_, fun key untouched => ?_⟩
    · rw [live.marked_iff frame]
      exact keeps.unmarked
    · exact keeps.pending key untouched.front ((kept key).mp member)
    · rw [same key (keeps.pending key.cString untouched.front)]
      exact keeps.others key untouched.front

theorem batchKeeps_of_run {options : WriteBatchOptions} (live : Live env session log keys)
    (unmarked : ¬ session.world.fs.Marked)
    (run : Run (BatchAct.OrderlyStep env) ⟨.new options, session⟩ acts state) :
    BatchKeeps env session acts state :=
  Run.invariant (BatchKeeps env session) (fun _ _ _ _ keeps stepped => keeps.step stepped) []
    ⟨⟨log, keys, live⟩, unmarked, fun key _ => AList.notMem_empty key, fun _ _ => rfl⟩ run

/-- After `Close` and `Open` without a merge the same is found. `Open` succeeds unless there is
an empty data file. -/
structure ReopensAlike (env : Platform) (session : Session) : Prop where
  opens : ∀ options : Options, options.dirPath.level = 0 → checkOptions options = .ok () →
    NoEmptyDataFile session.world.fs 0 →
      ∃ db opened, (openDb env options false).run session.world = (.ok db, opened)
  same : ∀ (options : Options) db opened, options.dirPath.level = 0 →
    (openDb env options false).run session.world = (.ok db, opened) →
      ∀ key, ((get env key true).run ⟨db, opened⟩).1 = ((get env key true).run session).1

theorem Live.reopensAlike (live : Live env session log keys)
    (unmarked : ¬ session.world.fs.Marked) : ReopensAlike env session := by
  refine ⟨fun options top valid full => ?_, fun options db opened top ran key => ?_⟩
  · obtain ⟨db, opened, ran, _⟩ := (live.resting.reopens live.reliable unmarked live.serves
      (fun _ _ => rfl) top valid).mpr full
    exact ⟨db, opened, ran⟩
  · have opens := live.resting.opens live.reliable unmarked top false
    rw [ran] at opens
    obtain ⟨log', _, reopened⟩ := opens.live db rfl
    exact reopened.serves.same_get live.serves rfl

/-- Any calls of `Put` and `Commit` on a batch, whose records are all as `Put` has left them
whenever `Commit` writes them: what is found is found again after `Close` and `Open`, and what is
found under keys that were not put has not changed. -/
theorem fresh_commits_agree {world : World} {before : List FaultyAct} {options : WriteBatchOptions}
    (empty : EmptyDir world)
    (opened : Run (FaultyAct.Step env) (.closed world) before (.running session))
    (unmarked : ¬ session.world.fs.Marked)
    (run : Run (BatchAct.OrderlyStep env) ⟨.new options, session⟩ acts state) :
    ReopensAlike env state.session ∧ ∀ key : Bytes, Untouched acts key.cString →
        ((get env key true).run state.session).1 = ((get env key true).run session).1 := by
  obtain ⟨log, keys, live⟩ := FaultyAct.sound_of_run empty opened
  have keeps := batchKeeps_of_run live unmarked run
  obtain ⟨_, _, still⟩ := keeps.live
  exact ⟨still.reopensAlike keeps.unmarked, keeps.others⟩

theorem fresh_put (state : BatchSession) (fresh : state.batch.Fresh) (key value : Bytes) :
    ((WriteBatch.put key value).run state).2.batch.Fresh := by
  rw [run_batchPut_eq]
  split
  · exact fresh
  · exact emplace_all fresh ⟨rfl, key.nul_not_mem_cString, rfl⟩

theorem BatchSession.failing_nil (reliable : state.session.world.script = []) :
    state.failing [] = state := by
  obtain ⟨batch, session⟩ := state
  exact congrArg (BatchSession.mk batch)
    (congrArg (Session.mk session.db) (World.failing_nil reliable))

def secondKeyBatch : BatchSession :=
  ((WriteBatch.put (.ofString [98]) (.ofString [50])).run ⟨.new ⟨8⟩, oneKeySession⟩).2

def secondKeyCommitted : BatchSession := ((WriteBatch.commit .reference).run secondKeyBatch).2

theorem batchRun_secondKey : Run (BatchAct.OrderlyStep .reference) ⟨.new ⟨8⟩, oneKeySession⟩
    [.put (.ofString [98]) (.ofString [50]), .commit] (secondKeyCommitted.failing []) := by
  have fresh : secondKeyBatch.batch.Fresh :=
    fresh_put ⟨.new ⟨8⟩, oneKeySession⟩ (fun _ _ found => by cases found) _ _
  have committed : (commit .reference).run (secondKeyBatch.failing []) =
      (.ok .ok, secondKeyCommitted) := by
    rw [BatchSession.failing_nil (by decide +kernel)]
    exact Prod.ext (by decide +kernel) rfl
  have whole : (secondKeyCommitted.failing []).session.world.WholeWrites := by decide +kernel
  refine .cons ⟨.put (Prod.ext rfl rfl), by rintro ⟨⟩⟩ (.cons ⟨.commit committed rfl ?_ whole, ?_⟩
    (.nil _))
  · rintro _ ⟨⟩
  · exact fun _ => .inl fresh

theorem fresh_commits_agree_second_key :
    ((get .reference (.ofString [98]) true).run secondKeyCommitted.session).1 = .ok [50] ∧
      ReopensAlike .reference (secondKeyCommitted.failing []).session := by
  have opened : Run (FaultyAct.Step .reference) (.closed (.on ⟨[∅]⟩))
      [.act (.open ⟨⟨"db", 0⟩, 64, false, .skipListIndex⟩ false),
        .act (.call (.put (.ofString [97]) (.ofString [49])))] (.running oneKeySession) :=
    .cons (.act oneKeySession_opening) (.cons (.act oneKeySession_putting) (.nil _))
  exact ⟨by decide +kernel, (fresh_commits_agree ⟨rfl, rfl⟩ opened (by decide +kernel)
    batchRun_secondKey).1⟩

/-- A batch is committed twice, and one whose first `Commit` has failed to write is committed
again. Every `Commit` that returns `Ok` leaves a database that does not show what is found when
it is opened again: there is a key that was not put, and the key that was put is not there. -/
theorem recommitted_batch_diverges :
    let options : Options := ⟨⟨"db", 0⟩, 64, false, .skipListIndex⟩
    let opened : Session := ⟨DB.new options, .on ⟨[∅]⟩⟩
    let filled := ((WriteBatch.put (.ofString [97]) (.ofString [49])).run ⟨.new ⟨8⟩, opened⟩).2
    let found : Session → List Byte → Except Stop (List Byte) := fun session key =>
      ((get .reference (.ofString key) true).run session).1
    let reopened : Session → List Byte → Except Stop (List Byte) := fun session key =>
      match (openDb .reference options false).run session.world with
      | (.ok db, world) => found ⟨db, world⟩ key
      | (.error stop, _) => .error stop
    let first := (WriteBatch.commit .reference).run filled
    let second := (WriteBatch.commit .reference).run first.2
    let failed := (WriteBatch.commit .reference).run (filled.failing [false, true])
    let retried := (WriteBatch.commit .reference).run (failed.2.failing [])
    (openDb .reference options false).run (.on ⟨[∅]⟩) = (.ok opened.db, opened.world) ∧
      (first.1 = .ok .ok ∧ second.1 = .ok .ok ∧ found second.2.session [1, 97] =
          .error (.failed (.notFound "index" "index of key \x01a not_found")) ∧
        reopened second.2.session [1, 97] = .ok [49]) ∧
      failed.1 = .error (.failed (.ioError "DataFile::Write" "write datafile failed.")) ∧
        retried.1 = .ok .ok ∧ found retried.2.session [97] = .ok [49] ∧
        reopened retried.2.session [97] =
          .error (.failed (.notFound "index" "index of key a not_found")) := by
  refine ⟨rfl, ⟨?_, ?_, ?_, ?_⟩, ?_, ?_, ?_, ?_⟩ <;> decide +kernel

end Run

end Bitdb
