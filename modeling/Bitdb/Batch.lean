import Bitdb.DbLoadProperties

/-! Write batches (`bitdb/batch.h` and `batch.cpp`). A batch collects records under their keys and
writes them to the log as one transaction. `Commit` of a fresh batch of puts appends one finished
transaction to the log and shows its records in the index. -/

set_option autoImplicit false

namespace Bitdb

open Base Program

structure WriteBatchOptions where
  maxBatchNum : Nat
  deriving DecidableEq, Repr

/-- `pending_writes_`, a `std::map` by key. -/
abbrev PendingWrites := AList fun _ : List Byte => LogRecord

/-- `emplace`: the first record of a key stays. -/
def PendingWrites.emplace (pending : PendingWrites) (key : List Byte) (record : LogRecord) :
    PendingWrites :=
  if key ∈ pending then pending else pending.insert key record

/-- The records in the order of iteration: by key, bytes compared as unsigned numbers. -/
def PendingWrites.inOrder (pending : PendingWrites) : List (List Byte × LogRecord) :=
  (pending.entries.map fun entry => (entry.fst, entry.snd)).insertionSort
    fun left right => left.1 ≤ right.1

structure WriteBatch where
  options : WriteBatchOptions
  pendingWrites : PendingWrites
  committed : Bool
  rollbacked : Bool

def WriteBatch.new (options : WriteBatchOptions) : WriteBatch := ⟨options, ∅, false, false⟩

structure BatchSession where
  batch : WriteBatch
  session : Session

abbrev BatchMethod := Program BatchSession Stop

def onSession {α : Type} (method : Method α) : BatchMethod α :=
  focus BatchSession.session (fun session state => { state with session }) method

def modifyPending (change : PendingWrites → PendingWrites) : BatchMethod Unit :=
  modify fun state =>
    { state with
      batch := { state.batch with pendingWrites := change state.batch.pendingWrites } }

/-- Whether a call returns the status `NotFound`. Faults are not caught. -/
def returnsNotFound {α : Type} (method : Method α) : Method Bool := fun session =>
  match method session with
  | (.ok _, reached) => (.ok false, reached)
  | (.error (.failed status), reached) => (.ok status.isNotFound, reached)
  | (.error stop, reached) => (.error stop, reached)

namespace WriteBatch

def put (key value : Bytes) : BatchMethod Status := do
  if key.empty then stop (.failed (.invalidArgument "WriteBatch::Put" "key is empty"))
  modifyPending fun pending =>
    pending.emplace key.cString ⟨key.cString, value.cString, .normal⟩
  return .ok

/-- The database is asked for the key with a null pointer for its value. -/
def delete (env : Platform) (key : Bytes) : BatchMethod Status := do
  if key.empty then stop (.failed (.invalidArgument "DB::Delete" "key is empty"))
  if ← onSession (returnsNotFound (Bitdb.get env key false)) then
    modifyPending fun pending => pending.erase key.cString
  else
    modifyPending fun pending => pending.emplace key.cString ⟨key.cString, [], .deleted⟩
  return .ok

abbrev Positions := AList fun _ : List Byte => LogRecordPst

/-- The first loop of `Commit`. The records of the batch are changed in place: their
keys now carry the transaction id. -/
def appendPending (env : Platform) (txnId : UInt64) :
    List (List Byte × LogRecord) → Positions → BatchMethod Positions
  | [], positions => pure positions
  | (key, record) :: rest, positions => do
      let encodedKey ← ofExcept (encodeLogRecordWithTxnID (.ofString record.key) txnId)
      let record := { record with key := encodedKey }
      modifyPending fun pending => pending.replace key record
      let pst ← onSession (appendLogRecord env record)
      appendPending env txnId rest (positions.insert key pst)

def appendFinish (env : Platform) (txnId : UInt64) : Method LogRecordPst := do
  let encodedKey ← ofExcept (encodeLogRecordWithTxnID (.ofString txnFinishedKey) txnId)
  appendLogRecord env ⟨encodedKey, [], .txnFinished⟩

/-- What the second loop of `Commit` does for one record. -/
def indexRecord (key : Bytes) (type : LogRecordType) (pst : LogRecordPst) : Method Unit := do
  match type with
  | .normal =>
    let (holds, index) := (← readDb).index.put key pst
    modifyDb fun db => { db with index }
    checkTrueIn "bitdb/batch.cpp" holds "db_->index_->Put(key, pst)" 68 "Commit" ""
  | .deleted =>
    let (holds, index) := (← readDb).index.delete key
    modifyDb fun db => { db with index }
    checkTrueIn "bitdb/batch.cpp" holds "db_->index_->Delete(key, &pst)" 70 "Commit" ""
  | _ => return ()

/-- The second loop of `Commit`. Every key was given a position by the first. -/
def indexPending (positions : Positions) : List (List Byte × LogRecord) → Method Unit
  | [] => pure ()
  | (key, record) :: rest => do
      match positions.lookup key with
      | none => stop (.faulted .nullPointer)
      | some pst => indexRecord (.ofString key) record.type pst
      indexPending positions rest

/-- `Commit` of a batch whose size is accepted. -/
def commitPending (env : Platform) (pending : List (List Byte × LogRecord)) :
    BatchMethod Status := do
  onSession (modifyDb fun db => { db with txnId := db.txnId + 1 })
  let txnId := (← read).session.db.txnId
  let positions ← appendPending env txnId pending ∅
  let _ ← onSession (appendFinish env txnId)
  onSession (indexPending positions pending)
  modify fun state => { state with batch := { state.batch with committed := true } }
  return .ok

def commit (env : Platform) : BatchMethod Status := do
  let batch := (← read).batch
  let pending := batch.pendingWrites.inOrder
  if pending.isEmpty then return .ok
  else if batch.options.maxBatchNum < pending.length then
    stop (.failed (.notSupported "WriteBatch::Commit" "exceed max batch number"))
  else commitPending env pending

def rollback : BatchMethod Status := do
  let batch := (← read).batch
  if batch.committed then
    stop (.failed (.checkError "WriteBatch::Rollback()"
      "WriteBatch has been commited, could not rollback."))
  if batch.rollbacked then
    stop (.failed (.checkError "WriteBatch::Rollback()"
      "WriteBatch has been rollbaked."))
  modify fun state =>
    { state with batch := { state.batch with pendingWrites := ∅, rollbacked := true } }
  return .ok

end WriteBatch

open List Located AList

theorem run_onSession {α : Type} {method : Method α} {batch : WriteBatch}
    {session reached : Session} {outcome : Except Stop α}
    (ran : method.run session = (outcome, reached)) :
    (onSession method).run ⟨batch, session⟩ = (outcome, ⟨batch, reached⟩) :=
  run_focus ran

theorem run_onSession_bind {α β : Type} {method : Method α} {next : α → BatchMethod β}
    {batch : WriteBatch} {session reached : Session} {value : α}
    (ran : method.run session = (.ok value, reached)) :
    (onSession method >>= next).run ⟨batch, session⟩ = (next value).run ⟨batch, reached⟩ :=
  run_bind_ok (run_focus ran)

def txnRecord (txnId : UInt64) (record : LogRecord) : LogRecord :=
  { record with key := encodeVarint64 txnId ++ (Bytes.ofString record.key).cString }

def finishRecord (txnId : UInt64) : LogRecord :=
  ⟨encodeVarint64 txnId ++ txnFinishedKey, [], .txnFinished⟩

structure FreshPut (item : List Byte × LogRecord) : Prop where
  keyed : item.2.key = item.1
  nulFree : 0 ∉ item.1
  normal : item.2.type = .normal

theorem tagged_txnRecord {txnId : UInt64} (small : txnId.toNat < 2 ^ 28) (record : LogRecord) :
    (txnRecord txnId record).Tagged (Bytes.ofString record.key).cString txnId :=
  ⟨small, Bytes.nul_not_mem_cString _, rfl⟩

theorem FreshPut.tagged {item : List Byte × LogRecord} (fresh : FreshPut item) {txnId : UInt64}
    (small : txnId.toNat < 2 ^ 28) : (txnRecord txnId item.2).Tagged item.1 txnId := by
  have tagged := tagged_txnRecord small item.2
  rw [fresh.keyed, Bytes.cString_ofString fresh.nulFree] at tagged
  exact tagged

theorem tagged_finishRecord {txnId : UInt64} (small : txnId.toNat < 2 ^ 28) :
    (finishRecord txnId).Tagged txnFinishedKey txnId :=
  ⟨small, by decide, rfl⟩

def txnRecords (txnId : UInt64) (pending : List (List Byte × LogRecord)) : List LogRecord :=
  pending.map fun item => txnRecord txnId item.2

/-- What the records of a batch do to the index once they have their positions. -/
def batchActions (pending : List (List Byte × LogRecord)) (placed : List Located) :
    List KeyAction :=
  List.zipWith (fun item found => Located.action item.1 found) pending placed

section Append

variable {env : Platform} {txnId : UInt64}

open WriteBatch

theorem run_appendPending (small : txnId.toNat < 2 ^ 28) (pending : List (List Byte × LogRecord))
    (state : BatchSession) (log : Log) (positions : Positions)
    (attached : Attached env state.session log) (distinct : (pending.map Prod.fst).Nodup) :
    ∃ placed reached, (appendPending env txnId pending positions).run state =
        (.ok placed, reached) ∧
      Appended env state.session log (txnRecords txnId pending) reached.session ∧
      (∀ key ∉ pending.map Prod.fst, placed.lookup key = positions.lookup key) ∧
      (pending.map fun item => placed.lookup item.1) =
        (log.locate env.crc state.session.limit
          (txnRecords txnId pending)).map (fun found => some found.1) := by
  induction pending generalizing state log positions with
  | nil => exact ⟨positions, state, rfl, .nil attached, fun _ _ => rfl, rfl⟩
  | cons item rest ih =>
    obtain ⟨key, record⟩ := item
    obtain ⟨first, others⟩ := nodup_cons.mp distinct
    obtain ⟨middle, ran, appended⟩ := attached.run_appendLogRecord (txnRecord txnId record)
    obtain ⟨placed, reached, later, appended', outside, found⟩ := ih
      ⟨{ state.batch with pendingWrites :=
          state.batch.pendingWrites.replace key (txnRecord txnId record) }, middle⟩
      (log.append env.crc state.session.limit (txnRecord txnId record))
      (positions.insert key (log.place env.crc state.session.limit (txnRecord txnId record)))
      appended.attached others
    simp only [Session.limit, appended.frame.options] at found
    refine ⟨placed, reached, ?_, appended.append appended', ?_, ?_⟩
    · rw [appendPending, encodeLogRecordWithTxnID_small _ small, run_ofExcept_ok_bind]
      exact (run_onSession_bind ran).trans later
    · intro other absent
      obtain ⟨different, later⟩ := not_or.mp (mt mem_cons.mpr absent)
      rw [outside other later, lookup_insert_ne different]
    · rw [map_cons, outside key first, lookup_insert, found]
      rfl

theorem run_indexPending {placed : Positions} (pending : List (List Byte × LogRecord))
    (located : List Located) (session : Session) (live : List Byte → Option Slot)
    (shows : session.db.index.Shows live) (fresh : ∀ item ∈ pending, FreshPut item)
    (found : (pending.map fun item => placed.lookup item.1) = located.map fun found => some found.1)
    (kept : ∀ found ∈ located, found.2.type ≠ .deleted) :
    ∃ index, (indexPending placed pending).run session = (.ok (), session.withIndex index) ∧
      index.Shows ((batchActions pending located).foldl Journal.Action.overwrite live) := by
  induction pending generalizing located session live with
  | nil => exact ⟨session.db.index, rfl, shows⟩
  | cons item rest ih =>
    obtain ⟨key, record⟩ := item
    cases located with
    | nil => cases found
    | cons newest located =>
      have here := fresh (key, record) mem_cons_self
      obtain ⟨position, later⟩ := List.cons.inj found
      have shown : Indexer.Shows (session.db.index.insert key newest.1)
          ((Located.action key newest).overwrite live) := by
        rw [Located.action, if_neg (kept newest mem_cons_self), Journal.Action.overwrite]
        exact shows.insert key ⟨_, _⟩
      obtain ⟨index, ran, reached⟩ := ih located
        (session.withIndex (session.db.index.insert key newest.1)) _ shown
        (fun item member => fresh item (mem_cons_of_mem _ member)) later
        fun found member => kept found (mem_cons_of_mem _ member)
      refine ⟨index, ?_, reached⟩
      have indexed : (indexRecord (.ofString key) record.type newest.1).run session =
          (.ok (), session.withIndex (session.db.index.insert key newest.1)) := by
        have normal : record.type = .normal := here.normal
        simp only [normal, indexRecord, run_readDb_bind, Indexer.put,
          Bytes.cString_ofString here.nulFree]
        rfl
      have position' : placed.lookup key = some newest.1 := position
      rw [indexPending, position']
      exact (run_bind_ok indexed).trans ran

theorem run_indexRecord_frame (key : Bytes) (type : LogRecordType) (pst : LogRecordPst)
    (session : Session) : ∃ outcome index,
      (indexRecord key type pst).run session = (outcome, session.withIndex index) := by
  cases type with
  | normal => exact ⟨_, _, rfl⟩
  | deleted =>
    refine ⟨_, session.db.index.erase key.cString, Prod.ext rfl ?_⟩
    simp only [indexRecord, run_readDb_bind, Indexer.delete, run_modifyDb_bind]
    cases (session.db.index.lookup key.cString).isSome with
    | true | false => rfl
  | _ => exact ⟨_, session.db.index, rfl⟩

theorem run_indexPending_frame (placed : Positions) (pending : List (List Byte × LogRecord))
    (session : Session) : ∃ outcome index,
      (indexPending placed pending).run session = (outcome, session.withIndex index) := by
  induction pending generalizing session with
  | nil => exact ⟨_, session.db.index, rfl⟩
  | cons item rest ih =>
    obtain ⟨key, record⟩ := item
    rw [indexPending]
    cases placed.lookup key with
    | none => exact ⟨_, session.db.index, rfl⟩
    | some pst =>
      obtain ⟨outcome, index, ran⟩ := run_indexRecord_frame (.ofString key) record.type pst session
      cases outcome with
      | error stop => exact ⟨_, index, run_bind_error ran⟩
      | ok _ =>
        obtain ⟨outcome, later, next⟩ := ih (session.withIndex index)
        exact ⟨outcome, later, (run_bind_ok ran).trans next⟩

end Append

section Commit

variable {env : Platform}

variable {txnId : UInt64} {pending : List (List Byte × LogRecord)}

section

variable (small : txnId.toNat < 2 ^ 28)

include small

theorem toNat_succ : (txnId + 1).toNat = txnId.toNat + 1 := by
  rw [UInt64.toNat_add, show (1 : UInt64).toNat = 1 from rfl]
  omega

theorem toUInt32_small : txnId.toUInt32.toNat = txnId.toNat := by
  rw [UInt64.toNat_toUInt32]
  omega

theorem entries_txnRecords (real : txnId ≠ nonTxnId) (crc : Crc32c) (limit : Nat)
    (pending : List (List Byte × LogRecord)) (log : Log) (fresh : ∀ item ∈ pending, FreshPut item) :
    (log.locate crc limit (txnRecords txnId pending)).map entry =
      (batchActions pending (log.locate crc limit (txnRecords txnId pending))).map
        (Journal.Entry.queued txnId.toNat) := by
  induction pending generalizing log with
  | nil => rfl
  | cons item rest ih =>
    have here := fresh item mem_cons_self
    have unfinished : (txnRecord txnId item.2).type ≠ .txnFinished := by
      rw [txnRecord, here.normal]
      decide
    have queued : entry (log.place crc limit (txnRecord txnId item.2),
        txnRecord txnId item.2) = .queued txnId.toNat (Located.action item.1
          (log.place crc limit (txnRecord txnId item.2), txnRecord txnId item.2)) := by
      rw [(here.tagged small).entry, entryFor, if_neg real, if_neg unfinished, toUInt32_small small]
    have later := ih (log.append crc limit (txnRecord txnId item.2))
      fun other member => fresh other (mem_cons_of_mem _ member)
    simp only [txnRecords, map_cons, Log.locate, batchActions, zipWith_cons_cons] at later ⊢
    rw [queued, later]

theorem entry_finishRecord (real : txnId ≠ nonTxnId) (pst : LogRecordPst) :
    entry (pst, finishRecord txnId) = .finish txnId.toNat := by
  rw [(tagged_finishRecord small).entry, entryFor, if_neg real, toUInt32_small small]
  rfl

end

theorem mem_batchActions {placed : List Located} {action : KeyAction}
    (member : action ∈ batchActions pending placed) :
    ∃ key found, found ∈ placed ∧ Located.action key found = action := by
  obtain ⟨position, inside, same⟩ := mem_iff_getElem.mp member
  simp only [batchActions, getElem_zipWith] at same
  exact ⟨_, _, getElem_mem _, same⟩

theorem batchActions_puts (pending : List (List Byte × LogRecord)) (located : List Located)
    (kept : ∀ found ∈ located, found.2.type ≠ .deleted) :
    ∀ action ∈ batchActions pending located, ∃ key payload, action = .put key payload := by
  intro action member
  obtain ⟨key, found, inside, same⟩ := mem_batchActions member
  rw [← same, Located.action, if_neg (kept found inside)]
  exact ⟨_, _, rfl⟩

variable {log : Log}

theorem kept_txnRecords {crc : Crc32c} {limit : Nat} (fresh : ∀ item ∈ pending, FreshPut item) :
    ∀ found ∈ log.locate crc limit (txnRecords txnId pending), found.2.type ≠ .deleted := by
  intro found member
  have listed : found.2 ∈ txnRecords txnId pending := by
    rw [← Log.locate_records crc limit log (txnRecords txnId pending)]
    exact mem_map_of_mem member
  obtain ⟨item, inside, same⟩ := mem_map.mp listed
  rw [← same, txnRecord, (fresh item inside).normal]
  decide

def Log.commit (crc : Crc32c) (limit : Nat) (log : Log) (txnId : UInt64)
    (pending : List (List Byte × LogRecord)) : Log :=
  log.appendAll crc limit (txnRecords txnId pending ++ [finishRecord txnId])

theorem tagged_commit {record : LogRecord} (small : txnId.toNat < 2 ^ 28)
    (member : record ∈ txnRecords txnId pending ++ [finishRecord txnId]) :
    ∃ key, record.Tagged key txnId := by
  rcases mem_append.mp member with inside | last
  · obtain ⟨item, _, rfl⟩ := mem_map.mp inside
    exact ⟨_, tagged_txnRecord small item.2⟩
  · rw [mem_singleton.mp last]
    exact ⟨_, tagged_finishRecord small⟩

def Session.withTxnId (session : Session) (txnId : UInt64) : Session :=
  { session with db := { session.db with txnId } }

@[simp] theorem Session.withTxnId_options (session : Session) (txnId : UInt64) :
    (session.withTxnId txnId).db.options = session.db.options := rfl

theorem Attached.withTxnId {session : Session} (attached : Attached env session log)
    (txnId : UInt64) : Attached env (session.withTxnId txnId) log :=
  ⟨attached.reliable, attached.stored, attached.started, attached.active, attached.older,
    attached.olderOnly, attached.next⟩

theorem run_appendFinish {session reached : Session} {pst : LogRecordPst}
    (small : txnId.toNat < 2 ^ 28)
    (appended : (appendLogRecord env (finishRecord txnId)).run session = (.ok pst, reached)) :
    (WriteBatch.appendFinish env txnId).run session = (.ok pst, reached) := by
  rw [WriteBatch.appendFinish, encodeLogRecordWithTxnID_small _ small,
    Bytes.cString_ofString (by decide), run_ofExcept_ok_bind]
  exact appended

theorem Log.entries_commit (small : txnId.toNat < 2 ^ 28) (real : txnId ≠ nonTxnId) (crc : Crc32c)
    (limit : Nat) (log : Log) (fresh : ∀ item ∈ pending, FreshPut item) :
    (log.commit crc limit txnId pending).entries crc = log.entries crc ++
      ((batchActions pending (log.locate crc limit (txnRecords txnId pending))).map
        (Journal.Entry.queued txnId.toNat) ++ [.finish txnId.toNat]) := by
  rw [Log.entries, Log.commit, Log.records_appendAll, map_append, Log.locate_append,
    map_append, entries_txnRecords small real crc limit pending log fresh, Log.locate,
    map_cons, entry_finishRecord small real]
  rfl

theorem Attached.run_commitRecords (state : BatchSession)
    (attached : Attached env state.session log) (distinct : (pending.map Prod.fst).Nodup)
    (next : state.session.db.txnId + 1 = txnId) (small : txnId.toNat < 2 ^ 28) :
    ∃ placed batch session,
      Appended env (state.session.withTxnId txnId) log
        (txnRecords txnId pending ++ [finishRecord txnId]) session ∧
      (pending.map fun item => placed.lookup item.1) =
        (log.locate env.crc state.session.limit
          (txnRecords txnId pending)).map (fun found => some found.1) ∧
      (WriteBatch.commitPending env pending).run state =
        (do
          onSession (WriteBatch.indexPending placed pending)
          modify fun state => { state with batch := { state.batch with committed := true } }
          return .ok : BatchMethod Status).run ⟨batch, session⟩ := by
  obtain ⟨placed, middle, appended, records, _, positions⟩ :=
    run_appendPending small pending ⟨state.batch, state.session.withTxnId txnId⟩ log ∅
      (attached.withTxnId txnId) distinct
  obtain ⟨last, finished, ending⟩ := records.attached.run_appendLogRecord (finishRecord txnId)
  refine ⟨placed, middle.batch, last, records.append ending, positions, ?_⟩
  subst next
  exact (run_bind_ok appended).trans (run_onSession_bind (run_appendFinish small finished))

theorem Attached.run_commitPending {live : List Byte → Option Slot} (state : BatchSession)
    (attached : Attached env state.session log) (shows : state.session.db.index.Shows live)
    (fresh : ∀ item ∈ pending, FreshPut item) (distinct : (pending.map Prod.fst).Nodup)
    (next : state.session.db.txnId + 1 = txnId) (small : txnId.toNat < 2 ^ 28) :
    ∃ reached, (WriteBatch.commitPending env pending).run state = (.ok .ok, reached) ∧
      Attached env reached.session
        (log.commit env.crc state.session.limit txnId pending) ∧
      reached.session.db.index.Shows ((batchActions pending (log.locate env.crc
        state.session.limit (txnRecords txnId pending))).foldl
          Journal.Action.overwrite live) ∧
      Stored env (state.session.withTxnId txnId) log
        (txnRecords txnId pending ++ [finishRecord txnId]) reached.session := by
  obtain ⟨placed, batch, last, all, positions, ran⟩ :=
    attached.run_commitRecords state distinct next small
  have kept : last.db.index.Shows live := by
    intro key
    rw [all.frame.index]
    exact shows key
  obtain ⟨index, indexed, shown⟩ := run_indexPending pending _ last live kept fresh
    positions (kept_txnRecords fresh)
  exact ⟨⟨{ batch with committed := true }, last.withIndex index⟩,
    ran.trans (run_onSession_bind indexed), all.attached.withIndex index, shown, all.stored index⟩

theorem Attached.stored_commitPending (state : BatchSession)
    (attached : Attached env state.session log) (distinct : (pending.map Prod.fst).Nodup)
    (next : state.session.db.txnId + 1 = txnId) (small : txnId.toNat < 2 ^ 28) :
    ∃ outcome reached, (WriteBatch.commitPending env pending).run state = (outcome, reached) ∧
      Attached env reached.session
        (log.commit env.crc state.session.limit txnId pending) ∧
      Stored env (state.session.withTxnId txnId) log
        (txnRecords txnId pending ++ [finishRecord txnId]) reached.session := by
  obtain ⟨placed, batch, last, all, _, ran⟩ := attached.run_commitRecords state distinct next small
  obtain ⟨outcome, index, indexed⟩ := run_indexPending_frame placed pending last
  have attached' := all.attached.withIndex index
  cases outcome with
  | error stop =>
    exact ⟨_, ⟨batch, last.withIndex index⟩, ran.trans (run_bind_error
      (run_onSession indexed)), attached', all.stored index⟩
  | ok _ =>
    exact ⟨_, ⟨{ batch with committed := true }, last.withIndex index⟩,
      ran.trans (run_onSession_bind indexed), attached', all.stored index⟩

theorem Holds.run_commitPending {keys : KeyState} (state : BatchSession)
    (holds : Holds env state.session log keys) (fresh : ∀ item ∈ pending, FreshPut item)
    (distinct : (pending.map Prod.fst).Nodup) (next : state.session.db.txnId + 1 = txnId)
    (small : txnId.toNat < 2 ^ 28) (real : txnId ≠ nonTxnId)
    (clear : keys.pending txnId.toNat = []) :
    ∃ reached live, (WriteBatch.commitPending env pending).run state = (.ok .ok, reached) ∧
      Holds env reached.session (log.commit env.crc
        state.session.limit txnId pending) { keys with live } ∧
      Stored env (state.session.withTxnId txnId) log
        (txnRecords txnId pending ++ [finishRecord txnId]) reached.session := by
  obtain ⟨reached, ran, attached, shown, stored⟩ :=
    holds.attached.run_commitPending state holds.index fresh distinct next small
  have applied := Journal.applyAll_puts keys.live (batchActions_puts pending
    (log.locate env.crc state.session.limit (txnRecords txnId pending))
    (kept_txnRecords fresh))
  refine ⟨reached, _, ran, ⟨attached, ?_, shown⟩, stored⟩
  rw [log.entries_commit small real env.crc _ fresh, Journal.replay_append, holds.replayed,
    Option.bind_some, Journal.replay_committed keys clear, applied]
  rfl

theorem run_commitPending_large (env : Platform) (state : BatchSession)
    (pending : List (List Byte × LogRecord))
    (large : ¬ (state.session.db.txnId + 1).toNat < 2 ^ 28) :
    (WriteBatch.commitPending env pending).run state = (.error (.faulted .outOfBounds),
      ⟨state.batch, state.session.withTxnId (state.session.db.txnId + 1)⟩) := by
  rw [WriteBatch.commitPending, run_onSession_bind (run_modifyDb _), run_read_bind]
  cases pending with
  | nil =>
    have finishing : (WriteBatch.appendFinish env (state.session.db.txnId + 1)).run
        (state.session.withTxnId (state.session.db.txnId + 1)) = (.error (.faulted .outOfBounds),
          state.session.withTxnId (state.session.db.txnId + 1)) := by
      rw [WriteBatch.appendFinish, encodeLogRecordWithTxnID_large _ large, run_ofExcept_error_bind]
    simp only [WriteBatch.appendPending, run_pure_bind]
    exact run_bind_error (run_focus finishing)
  | cons item rest =>
    obtain ⟨key, record⟩ := item
    refine run_bind_error ?_
    rw [WriteBatch.appendPending]
    simp only [encodeLogRecordWithTxnID_large _ large]
    rfl

end Commit

section Pending

variable {pending : PendingWrites}

theorem PendingWrites.mem_inOrder_iff {key : List Byte} {record : LogRecord} :
    (key, record) ∈ pending.inOrder ↔ pending.lookup key = some record := by
  rw [inOrder, mem_insertionSort, mem_map, ← Option.mem_def, mem_lookup_iff]
  constructor
  · rintro ⟨entry, inside, same⟩
    cases same
    exact inside
  · exact fun inside => ⟨_, inside, rfl⟩

theorem PendingWrites.mem_inOrder {item : List Byte × LogRecord} (member : item ∈ pending.inOrder) :
    pending.lookup item.1 = some item.2 :=
  mem_inOrder_iff.mp member

theorem PendingWrites.keys_inOrder : (pending.inOrder.map Prod.fst).Perm pending.keys := by
  have sorted := (perm_insertionSort (fun left right : List Byte × LogRecord =>
    left.1 ≤ right.1) (pending.entries.map fun entry => (entry.fst, entry.snd))).map Prod.fst
  rw [map_map] at sorted
  exact sorted

theorem PendingWrites.nodup_inOrder : (pending.inOrder.map Prod.fst).Nodup :=
  keys_inOrder.nodup_iff.mpr pending.keys_nodup

theorem PendingWrites.emplace_all {good : List Byte × LogRecord → Prop} {key : List Byte}
    {record : LogRecord} (all : ∀ key record, pending.lookup key = some record → good (key, record))
    (newest : good (key, record)) :
    ∀ other stored, (pending.emplace key record).lookup other = some stored →
      good (other, stored) := by
  intro other stored found
  rw [emplace] at found
  split at found
  · exact all other stored found
  · by_cases same : other = key
    · subst same
      rw [lookup_insert] at found
      cases found
      exact newest
    · rw [lookup_insert_ne same] at found
      exact all other stored found

end Pending

theorem run_commit_eq (env : Platform) (state : BatchSession) :
    (WriteBatch.commit env).run state =
      if state.batch.pendingWrites.inOrder = [] then (.ok .ok, state)
      else if state.batch.options.maxBatchNum < state.batch.pendingWrites.inOrder.length then
        (.error (.failed (.notSupported "WriteBatch::Commit" "exceed max batch number")), state)
      else (WriteBatch.commitPending env state.batch.pendingWrites.inOrder).run state := by
  rw [WriteBatch.commit, run_read_bind]
  simp only [run_ite, List.isEmpty_iff]
  rfl

theorem run_commit_cases (env : Platform) (state : BatchSession) :
    (∃ outcome, (WriteBatch.commit env).run state = (outcome, state) ∧ returned outcome = true ∧
        (outcome = .ok .ok → state.batch.pendingWrites.inOrder = [])) ∨
      (WriteBatch.commit env).run state =
        (WriteBatch.commitPending env state.batch.pendingWrites.inOrder).run state := by
  rw [run_commit_eq]
  split
  · rename_i empty
    exact .inl ⟨_, rfl, rfl, fun _ => empty⟩
  · split
    · exact .inl ⟨_, rfl, rfl, by rintro ⟨⟩⟩
    · exact .inr rfl

section Delete

theorem getValueByLogRecordPst_null (env : Platform) (pst : LogRecordPst) (key : Bytes) :
    getValueByLogRecordPst env pst key false =
      getValueByLogRecordPst env pst key true >>= fun _ => stop (.faulted .nullPointer) := by
  funext session
  change run _ session = run _ session
  simp only [getValueByLogRecordPst, run_bind]
  cases (dataFilePtr pst.fid).run session with
  | mk outcome reached =>
    cases outcome with
    | error stop => rfl
    | ok file =>
      cases file with
      | none => rfl
      | some file =>
        simp only [run_bind]
        cases (io (file.readLogRecordAt env.crc pst.offset)).run reached with
        | mk outcome after =>
          cases outcome with
          | error stop => rfl
          | ok read =>
            simp only
            split
            · rfl
            · rfl

theorem get_null (env : Platform) (key : Bytes) :
    get env key false = get env key true >>= fun _ => stop (.faulted .nullPointer) := by
  funext session
  change run _ session = run _ session
  simp only [get, run_bind]
  cases key.empty with
  | true => rfl
  | false =>
    simp only [Bool.false_eq_true, ↓reduceIte, run_bind]
    cases readDb.run session with
    | mk outcome reached =>
      cases outcome with
      | error stop => rfl
      | ok db =>
        cases found : db.index.get key with
        | none =>
          simp only [found]
          rfl
        | some pst =>
          simp only [found]
          rw [getValueByLogRecordPst_null]
          rfl

theorem run_batchDelete_eq (env : Platform) (state : BatchSession) {key : Bytes}
    (nonempty : key.empty = false) :
    (WriteBatch.delete env key).run state = match (get env key true).run state.session with
      | (.ok _, reached) => (.error (.faulted .nullPointer), ⟨state.batch, reached⟩)
      | (.error (.failed status), reached) => (.ok .ok, ⟨{ state.batch with
          pendingWrites := if status.isNotFound then state.batch.pendingWrites.erase key.cString
            else state.batch.pendingWrites.emplace key.cString ⟨key.cString, [], .deleted⟩ },
          reached⟩)
      | (.error stop, reached) => (.error stop, ⟨state.batch, reached⟩) := by
  have asked : get env key false state.session =
      (get env key true >>= fun _ => stop (.faulted .nullPointer) : Method (List Byte)).run
        state.session := by rw [get_null]; rfl
  rw [run_bind] at asked
  have stops {outcome : Except Stop Bool} {reached : Session}
      (ran : (returnsNotFound (get env key false)).run state.session = (outcome, reached)) :
      (WriteBatch.delete env key).run state = match outcome with
        | .ok missing => (.ok .ok, ⟨{ state.batch with
            pendingWrites := if missing then state.batch.pendingWrites.erase key.cString
              else state.batch.pendingWrites.emplace key.cString ⟨key.cString, [], .deleted⟩ },
            reached⟩)
        | .error stop => (.error stop, ⟨state.batch, reached⟩) := by
    simp only [WriteBatch.delete, nonempty, Bool.false_eq_true, ↓reduceIte]
    cases outcome with
    | error stop => exact run_bind_error (run_onSession ran)
    | ok missing =>
      refine (run_onSession_bind ran).trans ?_
      cases missing with
      | true | false => rfl
  cases got : (get env key true).run state.session with
  | mk outcome reached =>
    rw [got] at asked
    cases outcome with
    | ok value => exact stops (by rw [run, returnsNotFound, asked])
    | error stop =>
      cases stop with
      | failed status => exact stops (by rw [run, returnsNotFound, asked])
      | exited => exact stops (by rw [run, returnsNotFound, asked])
      | faulted fault => exact stops (by rw [run, returnsNotFound, asked])
      | looping => exact stops (by rw [run, returnsNotFound, asked])

theorem mem_emplace (pending : PendingWrites) (key : List Byte) (record : LogRecord) :
    (pending.emplace key record).lookup key ≠ none := by
  rw [PendingWrites.emplace]
  split
  · rename_i present
    exact fun missing => absurd present (lookup_eq_none.mp missing)
  · rw [lookup_insert]
    exact Option.some_ne_none record

/-- For every state of the database and every batch: deleting a key returns `Ok` and leaves
what it should in the batch exactly if `Get` of the key says `NotFound`. The value of a key
that is there is written through a null pointer, and any other failure of `Get` is taken for a
key that is there. -/
theorem batch_delete_safe_iff (env : Platform) (state : BatchSession) {key : Bytes}
    (nonempty : key.empty = false) :
    (∃ reached, (WriteBatch.delete env key).run state = (.ok .ok, reached) ∧
        ((∃ value, ((get env key true).run state.session).1 = .ok value) →
          (reached.batch.pendingWrites.lookup key.cString).map (·.type) = some .deleted) ∧
        ((¬ ∃ value, ((get env key true).run state.session).1 = .ok value) →
          reached.batch.pendingWrites.lookup key.cString = none)) ↔
      ∃ status, ((get env key true).run state.session).1 = .error (.failed status) ∧
        status.isNotFound = true := by
  rw [run_batchDelete_eq env state nonempty]
  constructor
  · rintro ⟨reached, ran, _, absent⟩
    cases got : (get env key true).run state.session with
    | mk outcome session =>
      rw [got] at ran absent
      cases outcome with
      | ok value => cases ran
      | error stop =>
        cases stop with
        | failed status =>
          cases ran
          refine ⟨status, rfl, ?_⟩
          by_contra other
          have nothing := absent (by rintro ⟨_, ⟨⟩⟩)
          rw [Bool.not_eq_true] at other
          simp only [other, Bool.false_eq_true, ↓reduceIte] at nothing
          exact mem_emplace _ _ _ nothing
        | exited | faulted | looping => cases ran
  · rintro ⟨status, got, missing⟩
    cases ran : (get env key true).run state.session with
    | mk outcome session =>
      rw [ran] at got
      cases got
      refine ⟨_, rfl, by rintro ⟨_, ⟨⟩⟩, fun _ => ?_⟩
      simp only [missing, ↓reduceIte]
      exact AList.lookup_erase _ _

theorem batch_delete_absent_key :
    let session : Session := ⟨DB.new ⟨⟨"db", 0⟩, 64, false, .skipListIndex⟩, .on ⟨[∅]⟩⟩
    ∃ reached, (WriteBatch.delete .reference (.ofString [97])).run ⟨.new ⟨10000⟩, session⟩ =
        (.ok .ok, reached) ∧ reached.batch.pendingWrites.lookup [97] = none := by
  intro session
  have missing : ((get .reference (.ofString [97]) true).run session).1 =
    .error (.failed (.notFound "index" "index of key a not_found")) := by decide +kernel
  obtain ⟨reached, ran, _, absent⟩ := (batch_delete_safe_iff .reference
    ⟨.new ⟨10000⟩, session⟩ rfl).mpr ⟨_, missing, rfl⟩
  refine ⟨reached, ran, absent ?_⟩
  rintro ⟨value, got⟩
  rw [missing] at got
  cases got

/-- A key that was put before is deleted in an empty batch. -/
theorem batch_delete_present_key :
    let session := ((put .reference (.ofString [97]) (.ofString [49])).run
      ⟨DB.new ⟨⟨"db", 0⟩, 64, false, .skipListIndex⟩, .on ⟨[∅]⟩⟩).2
    ((get .reference (.ofString [97]) true).run session).1 = .ok [49] ∧
      ((WriteBatch.delete .reference (.ofString [97])).run ⟨.new ⟨10000⟩, session⟩).1 =
        .error (.faulted .nullPointer) := by
  refine ⟨by decide +kernel, by decide +kernel⟩

end Delete

end Bitdb
