import Bitdb.Batch

/-! Databases whose log is a journal in blocks. The writing calls keep them so. -/

set_option autoImplicit false

namespace Bitdb

open Base List

theorem toNat_max (left right : UInt64) : (max left right).toNat = max left.toNat right.toNat := by
  simp only [Nat.max_def, ← UInt64.le_iff_toNat_le]
  exact apply_ite UInt64.toNat _ _ _

theorem le_maxTxnId (start : UInt64) (records : List Located) :
    start.toNat ≤ (maxTxnId start records).toNat ∧
      ∀ found ∈ records, (Located.txnId found).toNat ≤ (maxTxnId start records).toNat := by
  induction records generalizing start with
  | nil => exact ⟨Nat.le_refl _, fun _ member => by cases member⟩
  | cons found records ih =>
    obtain ⟨bound, rest⟩ := ih (max start (Located.txnId found))
    rw [toNat_max] at bound
    refine ⟨Nat.le_trans (Nat.le_max_left _ _) bound, ?_⟩
    intro other member
    rcases mem_cons.mp member with rfl | later
    · exact Nat.le_trans (Nat.le_max_right _ _) bound
    · exact rest other later

theorem maxTxnId_le {start : UInt64} {bound : Nat} {records : List Located}
    (first : start.toNat ≤ bound) (rest : ∀ found ∈ records, (Located.txnId found).toNat ≤ bound) :
    (maxTxnId start records).toNat ≤ bound := by
  induction records generalizing start with
  | nil => exact first
  | cons found records ih =>
    have larger : (max start (Located.txnId found)).toNat ≤ bound := by
      rw [toNat_max]
      exact Nat.max_le.mpr ⟨first, rest found mem_cons_self⟩
    exact ih larger fun other member => rest other (mem_cons_of_mem _ member)

theorem LogRecord.Tagged.entry_txn {record : LogRecord} {key : List Byte} {txnId : UInt64}
    (tagged : record.Tagged key txnId) (pst : LogRecordPst) :
    (Located.entry (pst, record)).txn = if txnId = nonTxnId then none else some txnId.toNat := by
  rw [tagged.entry, Located.entryFor]
  split
  · rfl
  · split
    · rw [← toUInt32_small tagged.small]
      rfl
    · rw [← toUInt32_small tagged.small]
      rfl

/-- A database that shows the replay of its log, whose transactions are all known to it. -/
structure Journaled (env : Platform) (session : Session) (log : Log) (keys : KeyState) : Prop where
  holds : Holds env session log keys
  tagged : ∀ found ∈ log.records env.crc, ∃ key txnId, found.2.Tagged key txnId
  bounded : ∀ found ∈ log.records env.crc, (Located.txnId found).toNat ≤ session.db.txnId.toNat
  blocks : Journal.Blocks (log.entries env.crc)

/-- What a writing call has done: it has added `records` to the log, each of them outside
transactions or in the new one, `txnId`. -/
structure Wrote (env : Platform) (session : Session) (log : Log) (records : List LogRecord)
    (txnId : UInt64) (reached : Session) (keys : KeyState) : Prop where
  journaled : Journaled env reached
    (log.appendAll env.crc session.db.options.dataFileSize records) keys
  stored : Stored env (session.withTxnId txnId) log records reached
  tagged : ∀ record ∈ records, ∃ key id, record.Tagged key id ∧
    (id = nonTxnId ∨ (id = txnId ∧ session.db.txnId.toNat < id.toNat))

section Write

variable {env : Platform} {session reached : Session} {log : Log} {keys : KeyState}

namespace Journaled

variable (journaled : Journaled env session log keys)

include journaled

theorem keyed : ∀ found ∈ log.records env.crc, found.2.key ≠ [] := by
  intro found member
  obtain ⟨key, txnId, tagged⟩ := journaled.tagged found member
  exact tagged.keyed

theorem txn_le {found : Located} {txn : Nat} (member : found ∈ log.records env.crc)
    (owned : (Located.entry found).txn = some txn) : txn ≤ session.db.txnId.toNat := by
  obtain ⟨key, txnId, tagged⟩ := journaled.tagged found member
  have bound := journaled.bounded found member
  rw [show Located.txnId found = txnId from tagged.txnId_eq found.1] at bound
  rw [show (Located.entry found).txn = _ from tagged.entry_txn found.1] at owned
  split at owned
  · cases owned
  · cases owned
    exact bound

theorem fresh {txn : Nat} (above : session.db.txnId.toNat < txn) :
    Journal.Fresh txn (log.entries env.crc) := by
  intro entry member same
  obtain ⟨found, inside, rfl⟩ := mem_map.mp member
  exact Nat.not_lt.mpr (journaled.txn_le inside same) above

theorem unchanged : Wrote env session log [] session.db.txnId session keys :=
  ⟨journaled, ⟨(AppendFrame.refl session).toCallFrame, (append_nil _).symm, .refl _ _⟩,
    fun _ member => by cases member⟩

variable {keys' : KeyState} {pending : List (List Byte × LogRecord)}

theorem extend {log' : Log} {limit : Nat} {records : List LogRecord}
    (holds : Holds env reached log' keys')
    (records' : log'.records env.crc = (log.appendAll env.crc limit records).records env.crc)
    (later : session.db.txnId.toNat ≤ reached.db.txnId.toNat)
    (tagged : ∀ record ∈ records, ∃ key id, record.Tagged key id ∧
      id.toNat ≤ reached.db.txnId.toNat) (blocks : Journal.Blocks
      (log.entries env.crc ++ (log.locate env.crc limit records).map Located.entry)) :
    Journaled env reached log' keys' := by
  rw [Log.records_appendAll] at records'
  have newest (found : Located) (member : found ∈ log.locate env.crc limit records) :
      found.2 ∈ records := by
    rw [← Log.locate_records env.crc limit log records]
    exact mem_map_of_mem member
  refine ⟨holds, fun found member => ?_, fun found member => ?_, ?_⟩
  · rw [records'] at member
    rcases mem_append.mp member with before | here
    · exact journaled.tagged found before
    · obtain ⟨key, id, tag, _⟩ := tagged found.2 (newest found here)
      exact ⟨key, id, tag⟩
  · rw [records'] at member
    rcases mem_append.mp member with before | here
    · exact Nat.le_trans (journaled.bounded found before) later
    · obtain ⟨key, id, tag, bound⟩ := tagged found.2 (newest found here)
      rw [show Located.txnId found = id from tag.txnId_eq found.1]
      exact bound
  · rw [Log.entries, records', map_append]
    exact blocks

theorem immediate {record : LogRecord} {key : List Byte} (tagged : record.Tagged key nonTxnId)
    (holds : Holds env reached (log.append env.crc session.limit record) keys')
    (stored : Stored env session log [record] reached) :
    Wrote env session log [record] session.db.txnId reached keys' := by
  have entry := tagged.entry (log.place env.crc session.limit record)
  refine ⟨journaled.extend holds rfl (Nat.le_of_eq ?_) (fun other member => ?_) ?_, stored,
    fun other member => ?_⟩
  · rw [stored.frame.txnId]
  · rw [mem_singleton.mp member]
    exact ⟨key, nonTxnId, tagged, Nat.zero_le _⟩
  · rw [Log.locate, Log.locate, map_singleton, entry, Located.entryFor, if_pos rfl]
    exact journaled.blocks.immediate _
  · rw [mem_singleton.mp member]
    exact ⟨key, nonTxnId, tagged, .inl rfl⟩

theorem committed {txnId : UInt64} (fresh : ∀ item ∈ pending, FreshPut item)
    (small : txnId.toNat < 2 ^ 28) (next : txnId.toNat = session.db.txnId.toNat + 1)
    (holds : Holds env reached (log.commit env.crc session.limit txnId pending) keys')
    (stored : Stored env (session.withTxnId txnId) log
      (txnRecords txnId pending ++ [finishRecord txnId]) reached) :
    Wrote env session log (txnRecords txnId pending ++ [finishRecord txnId]) txnId reached
      keys' := by
  have real : txnId ≠ nonTxnId := by
    rintro rfl
    cases next
  have last : reached.db.txnId = txnId := stored.frame.txnId
  refine ⟨journaled.extend holds rfl (by rw [last]; omega) (fun record member => ?_) ?_, stored,
    fun record member => ?_⟩
  · obtain ⟨key, tag⟩ := tagged_commit small member
    exact ⟨key, txnId, tag, by rw [last]⟩
  · have entries := log.entries_commit small real env.crc session.limit fresh
    rw [Log.commit, Log.entries, Log.records_appendAll, map_append] at entries
    rw [show (log.entries env.crc) = (log.records env.crc).map Located.entry from rfl, entries]
    exact journaled.blocks.committed (journaled.fresh (by omega)) _
  · obtain ⟨key, tag⟩ := tagged_commit small member
    exact ⟨key, txnId, tag, .inr ⟨rfl, by omega⟩⟩

theorem abandoned {log' : Log} {txnId : UInt64} (attached : Attached env reached log')
    (records' : log'.records env.crc = (log.appendAll env.crc session.limit
      (txnRecords txnId pending)).records env.crc) (index : reached.db.index = session.db.index)
    (last : reached.db.txnId = txnId) (fresh : ∀ item ∈ pending, FreshPut item)
    (small : txnId.toNat < 2 ^ 28) (later : session.db.txnId.toNat ≤ txnId.toNat)
    (owned : pending ≠ [] → session.db.txnId.toNat < txnId.toNat) :
    ∃ keys', Journaled env reached log' keys' ∧ keys'.live = keys.live := by
  have queued : ∃ actions : List KeyAction,
      (log.locate env.crc session.limit (txnRecords txnId pending)).map
        Located.entry = actions.map (Journal.Entry.queued txnId.toNat) ∧
      Journal.Blocks (log.entries env.crc ++ actions.map (Journal.Entry.queued txnId.toNat)) := by
    by_cases empty : pending = []
    · subst empty
      exact ⟨[], rfl, by simpa using journaled.blocks⟩
    · have above := owned empty
      have real : txnId ≠ nonTxnId := by
        rintro rfl
        cases above
      exact ⟨_, entries_txnRecords small real env.crc _ pending log fresh,
        journaled.blocks.abandoned (journaled.fresh above) _⟩
  obtain ⟨actions, entries, blocks⟩ := queued
  have replayed : Journal.replay .empty (log'.entries env.crc) = some { keys with
      pending := Function.update keys.pending txnId.toNat
        (keys.pending txnId.toNat ++ actions) } := by
    have before := journaled.holds.replayed
    rw [Log.entries] at before
    rw [Log.entries, records', Log.records_appendAll, map_append, Journal.replay_append,
      before, Option.bind_some, entries, Journal.replay_queued]
  refine ⟨_, journaled.extend ⟨attached, replayed, ?_⟩ records' (by rw [last]; exact later)
    (fun record member => ?_) (by rw [entries]; exact blocks), rfl⟩
  · rw [index]
    exact journaled.holds.index
  · obtain ⟨item, _, rfl⟩ := mem_map.mp member
    exact ⟨_, txnId, tagged_txnRecord small item.2, by rw [last]⟩

theorem run_put (key value : Bytes) :
    ∃ outcome reached records keys', (put env key value).run session = (outcome, reached) ∧
      returned outcome = true ∧ Wrote env session log records session.db.txnId reached keys' := by
  cases empty : key.empty with
  | true =>
    exact ⟨_, session, [], keys, run_put_empty empty value, rfl, journaled.unchanged⟩
  | false =>
    obtain ⟨reached, ran, holds, stored⟩ := journaled.holds.run_put empty value
    exact ⟨_, reached, _, _, ran, rfl, journaled.immediate
      (tagged_cString key value.cString .normal zero_small) holds stored⟩

theorem run_delete (key : Bytes) :
    ∃ outcome reached records keys', (delete env key).run session = (outcome, reached) ∧
      returned outcome = true ∧ Wrote env session log records session.db.txnId reached keys' := by
  cases empty : key.empty with
  | true =>
    exact ⟨_, session, [], keys, run_delete_empty empty, rfl, journaled.unchanged⟩
  | false =>
    cases live : keys.live key.cString with
    | none =>
      exact ⟨_, session, [], keys, journaled.holds.run_delete_missing empty live, rfl,
        journaled.unchanged⟩
    | some slot =>
      obtain ⟨reached, ran, holds, stored⟩ := journaled.holds.run_delete empty live
      exact ⟨_, reached, _, _, ran, rfl, journaled.immediate
        (tagged_cString key [] .deleted zero_small) holds stored⟩

theorem run_commitPending (batch : WriteBatch)
    (fresh : ∀ key record, batch.pendingWrites.lookup key = some record → FreshPut (key, record))
    (small : (session.db.txnId + 1).toNat < 2 ^ 28)
    (next : (session.db.txnId + 1).toNat = session.db.txnId.toNat + 1) :
    ∃ reached keys', (WriteBatch.commitPending env batch.pendingWrites.inOrder).run
        ⟨batch, session⟩ = (.ok .ok, reached) ∧
      Wrote env session log (txnRecords (session.db.txnId + 1) batch.pendingWrites.inOrder ++
        [finishRecord (session.db.txnId + 1)]) (session.db.txnId + 1) reached.session keys' := by
  have real : session.db.txnId + 1 ≠ nonTxnId := by
    intro zero
    rw [zero] at next
    cases next
  have puts : ∀ item ∈ batch.pendingWrites.inOrder, FreshPut item := fun item member =>
    fresh item.1 item.2 (PendingWrites.mem_inOrder member)
  have unused : Journal.Fresh (session.db.txnId + 1).toNat (log.entries env.crc) :=
    journaled.fresh (by omega)
  have clear := Journal.replay_pending_fresh journaled.holds.replayed unused
  obtain ⟨reached, live, committed, holds, stored⟩ :=
    Holds.run_commitPending ⟨batch, session⟩ journaled.holds puts PendingWrites.nodup_inOrder
      rfl small real clear
  exact ⟨reached, _, committed, journaled.committed puts small next holds stored⟩

theorem run_commit (batch : WriteBatch)
    (fresh : ∀ key record, batch.pendingWrites.lookup key = some record → FreshPut (key, record))
    (small : session.db.txnId.toNat + 1 < 2 ^ 28) :
    ∃ outcome reached txnId records keys',
      (WriteBatch.commit env).run ⟨batch, session⟩ = (outcome, reached) ∧
      returned outcome = true ∧ txnId.toNat ≤ session.db.txnId.toNat + 1 ∧
      Wrote env session log records txnId reached.session keys' := by
  have next := toNat_succ (Nat.lt_of_succ_lt small)
  rcases run_commit_cases env ⟨batch, session⟩ with ⟨outcome, ran, settled, _⟩ | ran
  · exact ⟨outcome, ⟨batch, session⟩, session.db.txnId, [], keys, ran, settled,
      Nat.le_succ _, journaled.unchanged⟩
  · obtain ⟨reached, keys', committed, wrote⟩ :=
      journaled.run_commitPending batch fresh (next ▸ small) next
    exact ⟨_, reached, _, _, _, ran.trans committed, rfl, Nat.le_of_eq next, wrote⟩

end Journaled

end Write

end Bitdb
