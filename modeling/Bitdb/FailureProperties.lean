import Bitdb.FaultProperties
import Bitdb.LiveProperties
import Bitdb.WritesProperties

/-! A writing call that fails before its last record is written has no effect. -/

set_option autoImplicit false

namespace Bitdb

open Base Program List Update PendingWrites

def Update.records (txnId : UInt64) : Update → List LogRecord
  | .put key value => [putRecord key value]
  | .delete key => [deleteRecord key]
  | .commit batch => txnRecords txnId batch.pendingWrites.inOrder ++ [finishRecord txnId]

theorem Update.length_records (txnId : UInt64) (update : Update) :
    (update.records txnId).length = update.recordCount := by
  cases update with
  | put | delete => rfl
  | commit batch => simp [records, recordCount, txnRecords]

theorem Update.tagged_records {txnId : UInt64} (small : txnId.toNat < 2 ^ 28) {update : Update}
    {record : LogRecord} (member : record ∈ update.records txnId) :
    ∃ key id, record.Tagged key id ∧ (id = nonTxnId ∨ id = txnId) := by
  cases update with
  | put key value | delete key =>
    rw [mem_singleton.mp member]
    exact ⟨_, _, tagged_cString key _ _ zero_small, .inl rfl⟩
  | commit batch =>
    obtain ⟨key, tagged⟩ := tagged_commit small member
    exact ⟨key, txnId, tagged, .inr rfl⟩

section Failed

variable {env : Platform} {session failed : Session} {log : Log} {keys : KeyState}
  {update : Update}

theorem Session.failing_failing {reached : Session} (reliable : reached.world.script = [])
    (calls : List Bool) : (reached.failing calls).failing [] = reached := by
  obtain ⟨db, fs, script, trace, disks⟩ := reached
  subst reliable
  rfl

variable {front : List LogRecord}

theorem Halfway.reliable (halfway : Halfway env session log front failed) :
    failed.world.script = [] := by
  obtain ⟨_, attached, _⟩ := halfway.attached
  exact attached.reliable

/-- How far an update has got: the records it has written, and the transaction id it has
used up. -/
structure Update.Reaches (env : Platform) (session : Session) (log : Log) (update : Update)
    (txnId : UInt64) (front : List LogRecord) (reached : Session) : Prop where
  later : session.db.txnId.toNat ≤ txnId.toNat
  small : txnId.toNat < 2 ^ 28
  begins : front <+: update.records txnId
  owned : ∀ batch, update = .commit batch → front ≠ [] → session.db.txnId.toNat < txnId.toNat
  halfway : Halfway env (session.withTxnId txnId) log front reached
  done : front ≠ [] → ∃ done keys, update.Returns env session done ∧
    Wrote env session log (update.records txnId) txnId done keys

theorem Live.refused (live : Live env session log keys) (calls : List Bool) :
    ∃ txnId front, update.Reaches env session log txnId front
      ((session.failing calls).failing []) := by
  rw [Session.failing_failing live.reliable]
  exact ⟨session.db.txnId, [], Nat.le_refl _, live.small, nil_prefix,
    fun _ _ nonempty => absurd rfl nonempty, (Appended.nil live.holds.attached).halfway,
    fun nonempty => absurd rfl nonempty⟩

theorem Live.reaches (live : Live env session log keys) (fails : update.Fails env session failed) :
    ∃ txnId front, update.Reaches env session log txnId front failed := by
  obtain ⟨calls, status, left, ran, rfl⟩ := fails.ran
  have attached := live.holds.attached
  cases update with
  | put key value =>
    cases empty : key.empty with
    | true =>
      rw [Update.run, run_put_empty empty] at ran
      cases ran
      exact live.refused calls
    | false =>
      obtain ⟨done, quiet, holds, stored⟩ := live.holds.run_put empty value
      obtain ⟨reached, rest, rfl, front, begins, halfway⟩ :=
        (attached.cutIn_put empty value).stopped (by rw [quiet]; rfl) ran
      rw [Session.failing_failing halfway.reliable]
      exact ⟨session.db.txnId, front, Nat.le_refl _, live.small, begins,
        fun _ same => (by cases same), halfway, fun _ => ⟨done, _, ⟨_, quiet⟩,
          live.immediate (tagged_cString key _ _ zero_small) holds stored⟩⟩
  | delete key =>
    cases empty : key.empty with
    | true =>
      rw [Update.run, run_delete_empty empty] at ran
      cases ran
      exact live.refused calls
    | false =>
      have found := live.holds.index key.cString
      cases here : keys.live key.cString with
      | none =>
        -- Nothing is written for a key that is not there, so nothing can fail.
        rw [here] at found
        have missing : (session.failing calls).db.index.lookup key.cString = none := found
        rw [Update.run, run_delete_missing empty missing] at ran
        cases ran
      | some slot =>
        obtain ⟨done, quiet, holds, stored⟩ := live.holds.run_delete empty here
        obtain ⟨reached, rest, rfl, front, begins, halfway⟩ :=
          (attached.cutIn_delete empty).stopped (by rw [quiet]; rfl) ran
        rw [Session.failing_failing halfway.reliable]
        exact ⟨session.db.txnId, front, Nat.le_refl _, live.small, begins,
          fun _ same => (by cases same), halfway, fun _ => ⟨done, _, ⟨_, quiet⟩,
            live.immediate (tagged_cString key _ _ zero_small) holds stored⟩⟩
  | commit batch =>
    have next := toNat_succ live.small
    rw [Update.run, run_commit_eq] at ran
    by_cases nothing : batch.pendingWrites.inOrder = []
    · rw [if_pos nothing] at ran
      cases ran
    · by_cases many : batch.options.maxBatchNum < batch.pendingWrites.inOrder.length
      · rw [if_neg nothing, if_pos many] at ran
        cases ran
        exact live.refused calls
      · rw [if_neg nothing, if_neg many] at ran
        by_cases small : (session.db.txnId + 1).toNat < 2 ^ 28
        · obtain ⟨done, keys', quiet, wrote⟩ :=
            live.run_commitPending batch fails.fresh small next
          obtain ⟨outcome, last⟩ := Prod.mk.inj ran
          obtain ⟨reached, rest, same, front, begins, halfway⟩ :=
            (attached.cutIn_commitPending batch batch.pendingWrites.inOrder
              nodup_inOrder rfl small).stopped (by rw [quiet]; rfl)
              (run_of_outcome outcome)
          obtain rfl : reached.session.failing rest = left :=
            (congrArg BatchSession.session same).symm.trans last
          rw [Session.failing_failing halfway.reliable]
          refine ⟨session.db.txnId + 1, front, by omega, small, begins, fun _ _ _ => by omega,
            halfway, fun _ => ⟨done.session, keys', ⟨.ok, ?_⟩, wrote⟩⟩
          rw [Update.run, run_commit_eq, if_neg nothing, if_neg many, quiet]
        · rw [run_commitPending_large env ⟨batch, session.failing calls⟩ _ small] at ran
          cases ran

section

variable {txnId : UInt64} (reaches : update.Reaches env session log txnId front failed)

include reaches

theorem Update.Reaches.storable (whole : failed.world.WholeWrites) :
    ∀ record ∈ front, record.Storable env.crc := by
  refine storable_of_trace reaches.halfway.trace whole fun record member => ?_
  obtain ⟨key, id, tagged, _⟩ := tagged_records reaches.small (reaches.begins.subset member)
  exact tagged.keyed

theorem Update.Reaches.trace_length :
    failed.world.trace.length = session.world.trace.length + front.length := by
  have located := congrArg List.length (Log.locate_records env.crc
    (session.withTxnId txnId).db.options.dataFileSize log front)
  rw [length_map] at located
  rw [reaches.halfway.trace, length_append, length_map, located]
  rfl

theorem Update.Reaches.abandoned (fresh : update.Fresh)
    (incomplete : update.Incomplete session failed) :
    ∃ pending, (∀ item ∈ pending, FreshPut item) ∧ front = txnRecords txnId pending ∧
      (pending ≠ [] → session.db.txnId.toNat < txnId.toNat) := by
  have short : front.length < (update.records txnId).length := by
    have trace := reaches.trace_length
    rw [Update.Incomplete, ← length_records txnId] at incomplete
    omega
  have none (one : (update.records txnId).length = 1) :
      ∃ pending, (∀ item ∈ pending, FreshPut item) ∧ front = txnRecords txnId pending ∧
        (pending ≠ [] → session.db.txnId.toNat < txnId.toNat) :=
    ⟨[], by rintro _ ⟨⟩, length_eq_zero_iff.mp (by omega), fun nonempty => absurd rfl nonempty⟩
  cases update with
  | put | delete => exact none rfl
  | commit batch =>
    have begins : front <+: txnRecords txnId batch.pendingWrites.inOrder := by
      refine prefix_of_prefix_length_le reaches.begins (prefix_append _ _) ?_
      simpa [records, Nat.lt_succ_iff] using short
    rw [prefix_iff_eq_take, txnRecords, ← map_take] at begins
    refine ⟨batch.pendingWrites.inOrder.take front.length, fun item member => ?_, begins,
      fun nonempty => reaches.owned batch rfl fun empty => nonempty (by simp [empty])⟩
    exact fresh item.1 item.2 (mem_inOrder (mem_of_mem_take member))

end

theorem Live.failed_serves (live : Live env session log keys)
    (fails : update.Fails env session failed) : ∃ log', Serves env failed log' keys.live := by
  obtain ⟨txnId, front, reaches⟩ := live.reaches fails
  obtain ⟨log', attached, records⟩ := reaches.halfway.attached
  refine ⟨log', live.serves.appended attached records (reaches.storable fails.whole) ?_
    fun key slot here => .inl here⟩
  rw [reaches.halfway.frame.index]
  exact live.holds.index

theorem Live.after_failure (live : Live env session log keys)
    (fails : update.Fails env session failed) (incomplete : update.Incomplete session failed) :
    ∃ log' keys' txnId, Live env failed log' keys' ∧ keys'.live = keys.live ∧
      CallFrame (session.withTxnId txnId) failed ∧
      session.db.txnId.toNat ≤ failed.db.txnId.toNat := by
  obtain ⟨txnId, front, reaches⟩ := live.reaches fails
  obtain ⟨pending, fresh, rfl, owned⟩ := reaches.abandoned fails.fresh incomplete
  obtain ⟨log', attached, records⟩ := reaches.halfway.attached
  have frame := reaches.halfway.frame
  obtain ⟨keys', journaled, same⟩ := live.toJournaled.abandoned attached records frame.index
    frame.txnId fresh reaches.small reaches.later owned
  refine ⟨log', keys', txnId, live.of_frame journaled frame.toCallFrame reaches.small
    (live.resting.readable.whole.of_records records (reaches.storable fails.whole)), same,
    frame.toCallFrame, ?_⟩
  rw [frame.txnId]
  exact reaches.later

theorem Update.length_records_pos (txnId : UInt64) (update : Update) :
    0 < (update.records txnId).length := by
  rw [length_records]
  cases update with
  | put | delete => exact Nat.one_pos
  | commit batch => exact Nat.succ_pos _

theorem Live.completed (live : Live env session log keys) (fails : update.Fails env session failed)
    (complete : ¬ update.Incomplete session failed) :
    ∃ done log₁ log₂ keys' txnId, update.Returns env session done ∧ Live env done log₁ keys' ∧
      Resting env.crc failed.world.fs log₂ keys' ∧ failed.world.script = [] ∧
      CallFrame (session.withTxnId txnId) failed := by
  obtain ⟨txnId, front, reaches⟩ := live.reaches fails
  have long : (update.records txnId).length ≤ front.length := by
    have trace := reaches.trace_length
    rw [Update.Incomplete, ← length_records txnId] at complete
    omega
  obtain rfl := reaches.begins.eq_of_length_le long
  obtain ⟨done, keys', returns, wrote⟩ :=
    reaches.done (length_pos_iff.mp (update.length_records_pos txnId))
  have trace : done.world.trace = failed.world.trace :=
    wrote.stored.trace.trans reaches.halfway.trace.symm
  have whole : done.world.WholeWrites := by
    rw [World.WholeWrites, trace]
    exact fails.whole
  have after := live.wrote wrote reaches.small whole
  obtain ⟨log', attached, records⟩ := reaches.halfway.attached
  have entries : log'.entries env.crc = (log.appendAll env.crc session.limit
      (update.records txnId)).entries env.crc := by
    rw [Log.entries, Log.entries, records]
    rfl
  refine ⟨done, _, log', keys', txnId, returns, after, live.resting_of_frame attached
    reaches.halfway.frame.toCallFrame ⟨?_, ?_⟩ ?_ ?_, attached.reliable,
    reaches.halfway.frame.toCallFrame⟩
  · exact live.resting.readable.whole.of_records records (reaches.storable fails.whole)
  · rw [records]
    exact after.tagged
  · rw [entries]
    exact after.resting.replayed
  · rw [entries]
    exact after.resting.blocks

end Failed

def WriteBatch.values (batch : WriteBatch) : Contents :=
  fun key => (batch.pendingWrites.lookup key).map (·.value)

def Update.apply (contents : Contents) : Update → Contents
  | .put key value => Function.update contents key.cString (some value.cString)
  | .delete key => Function.update contents key.cString none
  | .commit batch => fun key => (batch.values key).or (contents key)

def Update.Fits (crc : Crc32c) (txnId : UInt64) (contents : Contents) : Update → Prop
  | .put key value => (putRecord key value).Storable crc
  | .delete key => contents key.cString ≠ none → (deleteRecord key).Storable crc
  | .commit batch => ∀ key record, batch.pendingWrites.lookup key = some record →
      (txnRecord txnId record).Storable crc

theorem Contents.Agree.apply {left right : Contents} (agree : left.Agree right) (update : Update) :
    (update.apply left).Agree (update.apply right) := by
  intro key nulFree
  have same := agree key nulFree
  cases update with
  | put other value => by_cases here : key = other.cString <;> simp [Update.apply, here, same]
  | delete other => by_cases here : key = other.cString <;> simp [Update.apply, here, same]
  | commit batch => simp [Update.apply, same]

section Succeed

variable {env : Platform} {session reached : Session} {log : Log} {keys : KeyState}
  {update : Update}

theorem Update.Fits.mono {crc : Crc32c} {txnId older : UInt64} {contents contents' : Contents}
    (fits : update.Fits crc txnId contents) (less : older.toNat ≤ txnId.toNat)
    (agree : contents'.Agree contents) : update.Fits crc older contents' := by
  cases update with
  | put key value => exact fits
  | delete key =>
    intro present
    rw [agree _ key.nul_not_mem_cString] at present
    exact fits present
  | commit batch =>
    intro key record found
    have shorter := encodeVarint64_length_mono less
    have positive := encodeVarint64_length_pos older
    refine LogRecord.Storable.of_shorter (fits key record found) ?_ ?_ (Nat.le_refl _)
    · exact append_ne_nil_of_left_ne_nil (length_pos_iff.mp positive) _
    · simp only [txnRecord, length_append]
      omega

theorem WriteBatch.Fresh.collects {crc : Crc32c} {txnId : UInt64} {batch : WriteBatch}
    (fresh : batch.Fresh) {contents : Contents}
    (fits : (Update.commit batch).Fits crc txnId contents) :
    Collects crc txnId batch.pendingWrites batch.values := by
  refine ⟨fun key => ?_, fun key value here => ?_, fun key value here => ?_⟩
  · rw [WriteBatch.values]
    cases found : batch.pendingWrites.lookup key with
    | none => rfl
    | some record =>
      obtain ⟨keyed, _, normal⟩ := fresh key record found
      obtain ⟨recordKey, value, type⟩ := record
      cases keyed
      cases normal
      rfl
  · obtain ⟨record, found, _⟩ := Option.map_eq_some_iff.mp here
    exact (fresh key record found).nulFree
  · obtain ⟨record, found, rfl⟩ := Option.map_eq_some_iff.mp here
    obtain ⟨keyed, nulFree, normal⟩ := fresh key record found
    have storable := fits key record found
    obtain ⟨recordKey, value, type⟩ := record
    cases keyed
    cases normal
    rw [txnRecord, Bytes.cString_ofString nulFree] at storable
    exact storable

/-- The update is not refused by a database that has used up a transaction id. -/
def Update.Accepted (txnId : UInt64) : Update → Prop
  | .put key _ => key.empty = false
  | .delete key => key.empty = false
  | .commit batch => batch.pendingWrites.inOrder = [] ∨
      batch.pendingWrites.inOrder.length ≤ batch.options.maxBatchNum ∧ (txnId + 1).toNat < 2 ^ 28

def Update.nextTxnId (txnId : UInt64) : Update → UInt64
  | .commit batch => if batch.pendingWrites.inOrder = [] then txnId else txnId + 1
  | _ => txnId

theorem Update.accepted_of_ok {status : Status}
    (ran : update.run env session = (.ok status, reached)) : update.Accepted session.db.txnId := by
  cases update with
  | put key value =>
    cases empty : key.empty with
    | true =>
      rw [Update.run, run_put_empty empty] at ran
      cases ran
    | false => exact empty
  | delete key =>
    cases empty : key.empty with
    | true =>
      rw [Update.run, run_delete_empty empty] at ran
      cases ran
    | false => exact empty
  | commit batch =>
    have outcome := (Prod.mk.inj ran).1
    rw [run_commit_eq] at outcome
    by_cases empty : batch.pendingWrites.inOrder = []
    · exact .inl empty
    · rw [if_neg empty] at outcome
      split at outcome
      · cases outcome
      · refine .inr ⟨Nat.not_lt.mp ‹_›, ?_⟩
        by_contra large
        rw [run_commitPending_large env ⟨batch, session⟩ _ large] at outcome
        cases outcome

theorem Live.fits (live : Live env session log keys)
    (succeeds : update.Succeeds env session reached) :
    update.Fits env.crc (session.db.txnId + 1) (contentsOf keys.live) := by
  obtain ⟨status, ran⟩ := succeeds.ran
  have accepted := accepted_of_ok ran
  have attached := live.holds.attached
  cases update with
  | put key value =>
    obtain ⟨middle, appended, wrote⟩ := attached.run_put accepted value
    rw [Update.run, wrote] at ran
    cases ran
    refine storable_of_trace appended.trace succeeds.whole (fun record member => ?_) _
      mem_cons_self
    rw [mem_singleton.mp member]
    exact (tagged_cString key _ _ zero_small).keyed
  | delete key =>
    intro present
    have found := live.holds.index key.cString
    cases here : keys.live key.cString with
    | none => exact absurd (by rw [contentsOf, here]; rfl) present
    | some slot =>
      rw [here] at found
      obtain ⟨middle, appended, wrote⟩ := attached.run_delete accepted found
      rw [Update.run, wrote] at ran
      cases ran
      refine storable_of_trace appended.trace succeeds.whole (fun record member => ?_) _
        mem_cons_self
      rw [mem_singleton.mp member]
      exact (tagged_cString key _ _ zero_small).keyed
  | commit batch =>
    intro key record found
    have listed := mem_inOrder_iff.mpr found
    have nonempty := ne_nil_of_mem listed
    obtain ⟨few, small⟩ := accepted.resolve_left nonempty
    obtain ⟨after, wrote, _, _, stored⟩ := attached.run_commitPending ⟨batch, session⟩
      live.holds.index (fun item member => succeeds.fresh item.1 item.2
        (mem_inOrder member)) nodup_inOrder rfl small
    have last := (Prod.mk.inj ran).2
    rw [run_commit_eq, if_neg nonempty, if_neg (Nat.not_lt.mpr few), wrote] at last
    subst last
    refine storable_of_trace stored.trace succeeds.whole (fun other member => ?_) _
      (mem_append_left _ (mem_map_of_mem listed))
    obtain ⟨_, tagged⟩ := tagged_commit small member
    exact tagged.keyed

theorem Serves.run_update {live : List Byte → Option Slot} (serves : Serves env session log live)
    (fresh : update.Fresh) (accepted : update.Accepted session.db.txnId)
    (fits : update.Fits env.crc (session.db.txnId + 1) (contentsOf live)) :
    ∃ status reached log' live', update.run env session = (.ok status, reached) ∧
      Serves env reached log' live' ∧ contentsOf live' = update.apply (contentsOf live) ∧
      reached.db.txnId = update.nextTxnId session.db.txnId := by
  cases update with
  | put key value =>
    obtain ⟨reached, log', live', ran, served, txnId, contents⟩ := serves.run_put accepted fits
    exact ⟨_, reached, log', live', ran, served, contents, txnId⟩
  | delete key =>
    obtain ⟨status, reached, log', live', ran, served, txnId, contents⟩ :=
      serves.run_delete accepted fits
    exact ⟨status, reached, log', live', ran, served, contents, txnId⟩
  | commit batch =>
    have collects := fresh.collects fits
    simp only [Update.run, run_commit_eq, nextTxnId]
    by_cases empty : batch.pendingWrites.inOrder = []
    · rw [if_pos empty, if_pos empty]
      refine ⟨_, session, log, live, rfl, serves, funext fun key => ?_, rfl⟩
      have overlaid := collects.overlay (contentsOf live) key
      rw [empty] at overlaid
      exact overlaid
    · obtain ⟨few, small⟩ := accepted.resolve_left empty
      obtain ⟨after, log', live', wrote, served, txnId, contents⟩ :=
        serves.run_commitPending collects small
      rw [if_neg empty, if_neg empty, if_neg (Nat.not_lt.mpr few), wrote]
      exact ⟨_, after.session, log', live', rfl, served, contents, txnId⟩

theorem Live.wrote_update (live : Live env session log keys)
    (succeeds : update.Succeeds env session reached) :
    ∃ records txnId keys', txnId.toNat < 2 ^ 28 ∧
      Wrote env session log records txnId reached keys' := by
  obtain ⟨status, ran⟩ := succeeds.ran
  cases update with
  | put key value =>
    obtain ⟨_, _, records, keys', wrote, _, written⟩ := live.run_put key value
    rw [Update.run, wrote] at ran
    cases ran
    exact ⟨records, _, keys', live.small, written⟩
  | delete key =>
    obtain ⟨_, _, records, keys', wrote, _, written⟩ := live.run_delete key
    rw [Update.run, wrote] at ran
    cases ran
    exact ⟨records, _, keys', live.small, written⟩
  | commit batch =>
    by_cases small : session.db.txnId.toNat + 1 < 2 ^ 28
    · obtain ⟨_, _, txnId, records, keys', wrote, _, next, written⟩ :=
        live.run_commit batch succeeds.fresh small
      simp only [Update.run, wrote] at ran
      cases ran
      exact ⟨records, txnId, keys', Nat.lt_of_le_of_lt next small, written⟩
    · obtain ⟨_, _, wrote, unchanged, _⟩ :=
        run_commit_large env batch live.small (Nat.not_lt.mp small)
      simp only [Update.run, wrote] at ran
      cases ran
      rw [unchanged rfl]
      exact ⟨[], _, keys, live.small, live.toJournaled.unchanged⟩

end Succeed

/-- Two databases that show the same. The first is open in a directory without a finished
merge; the second has used up no more transaction ids. -/
structure Parallel (env : Platform) (session other : Session) : Prop where
  shown : ∃ log keys log' live, Live env session log keys ∧ Serves env other log' live ∧
    (contentsOf live).Agree (contentsOf keys.live)
  older : other.db.txnId.toNat ≤ session.db.txnId.toNat
  unmarked : ¬ session.world.fs.Marked

section Parallel

variable {env : Platform} {session other reached failed : Session} {log : Log} {keys : KeyState}
  {update : Update}

theorem Update.Accepted.mono {older txnId : UInt64} (accepted : update.Accepted txnId)
    (less : older.toNat ≤ txnId.toNat) (small : txnId.toNat < 2 ^ 28) : update.Accepted older := by
  cases update with
  | put | delete => exact accepted
  | commit batch =>
    refine accepted.imp_right fun fits => ⟨fits.1, ?_⟩
    have next := fits.2
    rw [toNat_succ small] at next
    rw [toNat_succ (Nat.lt_of_le_of_lt less small)]
    omega

theorem Update.nextTxnId_mono {older txnId : UInt64} (update : Update)
    (less : older.toNat ≤ txnId.toNat) (small : txnId.toNat < 2 ^ 28) :
    (update.nextTxnId older).toNat ≤ (update.nextTxnId txnId).toNat := by
  cases update with
  | put | delete => exact less
  | commit batch =>
    rw [nextTxnId, nextTxnId]
    split
    · exact less
    · rw [toNat_succ small, toNat_succ (Nat.lt_of_le_of_lt less small)]
      omega

theorem Live.marked_iff {txnId : UInt64} (live : Live env session log keys)
    (frame : CallFrame (session.withTxnId txnId) reached) :
    reached.world.fs.Marked ↔ session.world.fs.Marked := by
  have outside : (⟨getMergenceDirectory 0, .merged⟩ : Handle).level ≠
      (session.withTxnId txnId).db.options.dirPath.level := by
    rw [Session.withTxnId_options, live.top]
    exact Nat.one_ne_zero
  rw [Fs.Marked, frame.others _ (.inl outside)]
  rfl

section

variable (parallel : Parallel env session other)

include parallel

theorem Parallel.step (succeeds : update.Succeeds env session reached) :
    ∃ other', update.Returns env other other' ∧ Parallel env reached other' := by
  obtain ⟨log, keys, log', live', live, serves, agree⟩ := parallel.shown
  obtain ⟨status, ran⟩ := succeeds.ran
  have accepted := accepted_of_ok ran
  have fits := live.fits succeeds
  have next : (other.db.txnId + 1).toNat ≤ (session.db.txnId + 1).toNat := by
    have older := parallel.older
    rw [toNat_succ live.small, toNat_succ (Nat.lt_of_le_of_lt older live.small)]
    omega
  obtain ⟨_, _, _, shown, ran', served, contents, txnId⟩ :=
    live.serves.run_update succeeds.fresh accepted fits
  cases ran.symm.trans ran'
  obtain ⟨status', other', _, shown', again, served', contents', txnId'⟩ :=
    serves.run_update succeeds.fresh (accepted.mono parallel.older live.small)
      (fits.mono next agree)
  obtain ⟨records, last, keys', small, wrote⟩ := live.wrote_update succeeds
  have still := live.wrote wrote small succeeds.whole
  have same := (served.same_gets_iff still.serves).mp fun _ => rfl
  refine ⟨other', ⟨status', again⟩, ⟨_, keys', _, shown', still, served', ?_⟩, ?_, ?_⟩
  · intro key nulFree
    rw [← same key nulFree, contents, contents']
    exact agree.apply update key nulFree
  · rw [txnId, txnId']
    exact update.nextTxnId_mono parallel.older live.small
  · rw [live.marked_iff wrote.stored.frame]
    exact parallel.unmarked

theorem Parallel.run {later : List Update} (run : Run (Update.Succeeds env) session later reached) :
    ∃ direct, Run (Update.Returns env) other later direct ∧ Parallel env reached direct := by
  induction run generalizing other with
  | nil state => exact ⟨other, .nil other, parallel⟩
  | cons step later ih =>
    obtain ⟨middle, returns, still⟩ := parallel.step step
    obtain ⟨direct, rest, ends⟩ := ih still
    exact ⟨direct, .cons returns rest, ends⟩

theorem Parallel.reopens {options : Options} (top : options.dirPath.level = 0)
    (valid : checkOptions options = .ok ()) :
    (∃ db opened, (openDb env options false).run session.world = (.ok db, opened) ∧
      ∀ key, ((get env key true).run ⟨db, opened⟩).1 = ((get env key true).run other).1) ↔
      NoEmptyDataFile session.world.fs 0 := by
  obtain ⟨log, keys, log', live', live, serves, agree⟩ := parallel.shown
  exact live.resting.reopens live.reliable parallel.unmarked serves agree top valid

end

theorem Live.parallel (live : Live env session log keys) (fails : update.Fails env session failed)
    (incomplete : update.Incomplete session failed) (unmarked : ¬ session.world.fs.Marked) :
    Parallel env failed session := by
  obtain ⟨log', keys', txnId, still, same, frame, later⟩ := live.after_failure fails incomplete
  refine ⟨⟨log', keys', log, keys.live, still, live.serves, fun key _ => by rw [same]⟩, later, ?_⟩
  rw [live.marked_iff frame]
  exact unmarked

end Parallel

theorem FaultyAct.sound_of_run {env : Platform} {world : World} {acts : List FaultyAct}
    {process : Process} (empty : EmptyDir world)
    (run : Run (FaultyAct.Step env) (.closed world) acts process) : process.Sound env := by
  refine Run.invariant (fun _ process => process.Sound env) ?_ []
    ⟨empty.reliable, _, _, empty.resting env.crc⟩ run
  intro _ _ _ _ sound step
  cases step with
  | act clean => exact sound.step clean
  | failed fails incomplete =>
    obtain ⟨log, keys, live⟩ := sound
    obtain ⟨log', keys', _, still, _⟩ := live.after_failure fails incomplete
    exact ⟨log', keys', still⟩

/-- A failed update does not change any `Get`. If it has failed before its last record was
written, then whatever updates succeed after it, the directory can be opened again and shows what
it would show without the failed update, exactly when it has no empty data file. If its last
record was written, then the directory shows what it would show if the update had succeeded. -/
theorem failed_update_iff {env : Platform} {world : World} {acts : List FaultyAct}
    {session failed : Session} {update : Update} (empty : EmptyDir world)
    (run : Run (FaultyAct.Step env) (.closed world) acts (.running session))
    (fails : update.Fails env session failed) :
    (∀ key, ((get env key true).run failed).1 = ((get env key true).run session).1) ∧
      (update.Incomplete session failed → ¬ session.world.fs.Marked →
        ∀ later reached, Run (Update.Succeeds env) failed later reached →
          ∃ direct, Run (Update.Returns env) session later direct ∧
            ∀ options, options.dirPath.level = 0 → checkOptions options = .ok () →
              ((∃ db opened, (openDb env options false).run reached.world = (.ok db, opened) ∧
                ∀ key, ((get env key true).run ⟨db, opened⟩).1 =
                  ((get env key true).run direct).1) ↔
                NoEmptyDataFile reached.world.fs 0)) ∧
      (¬ update.Incomplete session failed → ¬ session.world.fs.Marked →
        ∃ done, update.Returns env session done ∧
          ∀ options, options.dirPath.level = 0 → checkOptions options = .ok () →
            ((∃ db opened, (openDb env options false).run failed.world = (.ok db, opened) ∧
              ∀ key, ((get env key true).run ⟨db, opened⟩).1 = ((get env key true).run done).1) ↔
              NoEmptyDataFile failed.world.fs 0)) := by
  obtain ⟨log, keys, live⟩ := FaultyAct.sound_of_run empty run
  obtain ⟨log', shown⟩ := live.failed_serves fails
  refine ⟨(shown.same_gets_iff live.serves).mpr fun _ _ => rfl, ?_, ?_⟩
  · intro incomplete unmarked later reached run
    obtain ⟨direct, ran, ends⟩ := (live.parallel fails incomplete unmarked).run run
    exact ⟨direct, ran, fun options top valid => ends.reopens top valid⟩
  · intro complete unmarked
    obtain ⟨done, _, _, keys', txnId, returns, after, resting, reliable, frame⟩ :=
      live.completed fails complete
    refine ⟨done, returns, fun options top valid => resting.reopens reliable ?_ after.serves
      (fun _ _ => rfl) top valid⟩
    rw [live.marked_iff frame]
    exact unmarked

theorem failed_update_first_put :
    let options : Options := ⟨⟨"db", 0⟩, 64, true, .skipListIndex⟩
    let session : Session := ⟨DB.new options, .on ⟨[∅]⟩⟩
    let update : Update := .put (.ofString [97]) (.ofString [49])
    let later : Update := .put (.ofString [98]) (.ofString [50])
    let failed := (update.run .reference (session.failing [false, true])).2.failing []
    let reached := (later.run .reference failed).2
    update.Fails .reference session failed ∧ ∃ direct db opened,
      Run (Update.Returns .reference) session [later] direct ∧
      (openDb .reference options false).run reached.world = (.ok db, opened) ∧
      ∀ key, ((get .reference key true).run ⟨db, opened⟩).1 =
        ((get .reference key true).run direct).1 := by
  intro options session update later failed reached
  have opening : Run (FaultyAct.Step .reference) (.closed (.on ⟨[∅]⟩))
      [.act (.open options false)] (.running session) := by
    refine .cons (.act ⟨.opened rfl rfl, ?_, ?_, ?_⟩) (.nil _)
    · rintro _ _ _ ⟨⟩
    · rintro _ ⟨⟩
    · rintro _ ⟨⟩
  have fails : update.Fails .reference session failed := by
    refine ⟨⟨[false, true], .ioError "DataFile::Write" "write datafile failed.", _,
      Prod.ext ?_ rfl, rfl⟩, trivial, ?_⟩
    · decide +kernel
    · decide +kernel
  have succeeds : later.Succeeds .reference failed reached := by
    refine ⟨⟨.ok, Prod.ext ?_ rfl⟩, trivial, ?_⟩
    · decide +kernel
    · decide +kernel
  have full : NoEmptyDataFile reached.world.fs 0 := by decide +kernel
  have incomplete : update.Incomplete session failed :=
    show failed.world.trace.length < session.world.trace.length + 1 by decide +kernel
  clear_value reached failed
  obtain ⟨_, later_on, _⟩ := failed_update_iff ⟨rfl, rfl⟩ opening fails
  obtain ⟨direct, ran, reopens⟩ := later_on incomplete (by rintro ⟨⟩) [later] reached
    (.cons succeeds (.nil _))
  obtain ⟨db, opened, opens, same⟩ := (reopens options rfl (by decide)).mpr full
  exact ⟨fails, direct, db, opened, ran, opens, same⟩

/-- The flush behind the record of a `Put` fails: the `Put` returns an error, but the key is
there when the directory is opened again. -/
theorem failed_put_comes_back :
    let options : Options := ⟨⟨"db", 0⟩, 64, true, .skipListIndex⟩
    let session : Session := ⟨DB.new options, .on ⟨[∅]⟩⟩
    let key := Bytes.ofString [97]
    let result := (put .reference key (.ofString [49])).run (session.failing [false, false, true])
    let failed := result.2.failing []
    let reopened := (openDb .reference options false).run failed.world
    (openDb .reference options false).run (.on ⟨[∅]⟩) = (.ok session.db, session.world) ∧
      result.1 = .error (.failed (.ioError "DataFile::Sync()" "sync failed.")) ∧
      ((get .reference key true).run session).1 = .error (.failed
        (.notFound "index" "index of key a not_found")) ∧
      ∃ db, reopened.1 = .ok db ∧ ((get .reference key true).run ⟨db, reopened.2⟩).1 = .ok [49] := by
  intro options session key result failed reopened
  refine ⟨rfl, by decide +kernel, by decide +kernel, ?_⟩
  have found : (reopened.1.bind fun db =>
      ((get .reference key true).run ⟨db, reopened.2⟩).1) = .ok [49] := by
    decide +kernel
  cases opened : reopened.1 with
  | error stop =>
    rw [opened] at found
    cases found
  | ok db =>
    rw [opened] at found
    exact ⟨db, rfl, found⟩

end Bitdb
