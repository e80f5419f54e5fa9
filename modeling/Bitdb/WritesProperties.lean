import Bitdb.Batch
import Bitdb.DbOpenProperties

/-! What a batch commits, compared with the same writes made on the database itself. -/

set_option autoImplicit false

namespace Bitdb

open Base List Program Function Option PendingWrites

inductive Write where
  | put (key value : Bytes)
  | delete (key : Bytes)

def Write.onBatch (env : Platform) : Write → BatchMethod Status
  | .put key value => WriteBatch.put key value
  | .delete key => WriteBatch.delete env key

def Write.onDb (env : Platform) : Write → Method Status
  | .put key value => Bitdb.put env key value
  | .delete key => Bitdb.delete env key

/-- Calls one after the other, whatever status they return. `none` when the process ends
inside one of them. -/
def callAll {σ : Type} : List (Program σ Stop Status) → σ → Option σ
  | [], state => some state
  | call :: rest, state =>
    if returned (call.run state).1 then callAll rest (call.run state).2 else none

def Write.apply (contents : Contents) : Write → Contents
  | .put key value =>
    if key.empty then contents else update contents key.cString (some value.cString)
  | .delete key => if key.empty then contents else update contents key.cString none

/-- What a batch keeps of a write: the first value of a key since it was deleted. -/
def Write.collect (pending : Contents) : Write → Contents
  | .put key value =>
    if key.empty then pending
    else update pending key.cString ((pending key.cString).or (some value.cString))
  | .delete key => if key.empty then pending else update pending key.cString none

/-- The records of the write can be transferred in one call each, in a transaction and
without one. -/
def Write.Fits (crc : Crc32c) (txnId : UInt64) : Write → Prop
  | .put key value =>
    (⟨encodeVarint64 txnId ++ key.cString, value.cString, .normal⟩ : LogRecord).Storable crc
  | .delete key =>
    (⟨encodeVarint64 nonTxnId ++ key.cString, [], .deleted⟩ : LogRecord).Storable crc

section

variable {env : Platform} {session : Session} {log : Log} {live : List Byte → Option Slot}

theorem Write.Fits.storable_put {txnId : UInt64} {key value : Bytes}
    (fits : (Write.put key value).Fits env.crc txnId) : (putRecord key value).Storable env.crc := by
  have positive := encodeVarint64_length_pos txnId
  have one : (encodeVarint64 nonTxnId).length = 1 := by decide
  refine LogRecord.Storable.of_shorter fits
    (tagged_cString key value.cString .normal zero_small).keyed ?_ (Nat.le_refl _)
  rw [putRecord, length_append, length_append, one]
  omega

section

variable (serves : Serves env session log live)

include serves

theorem Serves.appended {records : List LogRecord} {reached : Session} {log' : Log}
    {live' : List Byte → Option Slot} (attached : Attached env reached log')
    (records' : log'.records env.crc =
      (log.appendAll env.crc session.limit records).records env.crc)
    (storable : ∀ record ∈ records, record.Storable env.crc) (shows : reached.db.index.Shows live')
    (carried : ∀ key slot, live' key = some slot → live key = some slot ∨
      ∃ found ∈ log.locate env.crc session.limit records,
        found.1 = slot.pst ∧ found.2.value = slot.value ∧ found.2.type ≠ .deleted) :
    Serves env reached log' live' := by
  refine ⟨attached, serves.whole.of_records records' storable, shows, fun key slot here => ?_⟩
  rw [records', Log.records_appendAll]
  rcases carried key slot here with old | ⟨found, new, facts⟩
  · obtain ⟨found, member, facts⟩ := serves.carried key slot old
    exact ⟨found, mem_append_left _ member, facts⟩
  · exact ⟨found, mem_append_right _ new, facts⟩

theorem Serves.run_put {key : Bytes} (nonempty : key.empty = false) {value : Bytes}
    (storable : (putRecord key value).Storable env.crc) :
    ∃ reached log' live', (put env key value).run session = (.ok .ok, reached) ∧
      Serves env reached log' live' ∧ reached.db.txnId = session.db.txnId ∧
      contentsOf live' = update (contentsOf live) key.cString (some value.cString) := by
  obtain ⟨middle, appended, ran⟩ := serves.attached.run_put nonempty value
  let slot : Slot := ⟨log.place env.crc session.limit (putRecord key value), value.cString⟩
  refine ⟨_, _, update live key.cString (some slot), ran,
    serves.appended (appended.attached.withIndex _) rfl (by simpa using storable)
      (serves.shows.insert key.cString slot) fun other found here => ?_,
    appended.frame.txnId, contentsOf_update live key.cString (some slot)⟩
  by_cases same : other = key.cString
  · subst same
    rw [update_self] at here
    cases here
    exact .inr ⟨_, mem_singleton_self _, rfl, rfl, by rintro ⟨⟩⟩
  · rw [update_of_ne same] at here
    exact .inl here

theorem Serves.run_delete {key : Bytes} (nonempty : key.empty = false)
    (storable : contentsOf live key.cString ≠ none → (deleteRecord key).Storable env.crc) :
    ∃ status reached log' live', (delete env key).run session = (.ok status, reached) ∧
      Serves env reached log' live' ∧ reached.db.txnId = session.db.txnId ∧
      contentsOf live' = update (contentsOf live) key.cString none := by
  have found := serves.shows key.cString
  cases here : live key.cString with
  | none =>
    rw [here] at found
    refine ⟨_, session, log, live, run_delete_missing nonempty found, serves, rfl, ?_⟩
    exact (update_eq_self_iff.mpr (by rw [contentsOf, here]; rfl)).symm
  | some slot =>
    rw [here] at found
    obtain ⟨middle, appended, ran⟩ := serves.attached.run_delete nonempty found
    have shown := (serves.shows.insert key.cString ⟨log.place env.crc
      session.limit (deleteRecord key), []⟩).erase key.cString
    rw [update_idem] at shown
    have storable := storable (by simp [contentsOf, here])
    refine ⟨_, _, _, update live key.cString none, ran,
      serves.appended (appended.attached.withIndex _) rfl (by simpa using storable) shown
        fun other slot here => ?_, appended.frame.txnId, contentsOf_update live key.cString none⟩
    by_cases same : other = key.cString
    · subst same
      rw [update_self] at here
      cases here
    · rw [update_of_ne same] at here
      exact .inl here

theorem Serves.run_write {txnId : UInt64} (write : Write) (fits : write.Fits env.crc txnId) :
    ∃ outcome reached log' live', (write.onDb env).run session = (outcome, reached) ∧
      returned outcome = true ∧ Serves env reached log' live' ∧
      contentsOf live' = write.apply (contentsOf live) := by
  cases write with
  | put key value =>
    cases empty : key.empty with
    | true =>
      exact ⟨_, session, log, live, run_put_empty empty value, rfl, serves,
        by simp [Write.apply, empty]⟩
    | false =>
      obtain ⟨reached, log', live', ran, served, _, contents⟩ :=
        serves.run_put empty fits.storable_put
      exact ⟨_, reached, log', live', ran, rfl, served, by simpa [Write.apply, empty]⟩
  | delete key =>
    cases empty : key.empty with
    | true =>
      exact ⟨_, session, log, live, run_delete_empty empty, rfl, serves,
        by simp [Write.apply, empty]⟩
    | false =>
      obtain ⟨status, reached, log', live', ran, served, _, contents⟩ :=
        serves.run_delete empty fun _ => fits
      exact ⟨_, reached, log', live', ran, rfl, served, by simpa [Write.apply, empty]⟩

end

theorem Serves.callAll {txnId : UInt64} (writes : List Write)
    (fits : ∀ write ∈ writes, write.Fits env.crc txnId) (serves : Serves env session log live) :
    ∃ reached log' live', Bitdb.callAll (writes.map (Write.onDb env)) session = some reached ∧
      Serves env reached log' live' ∧
      contentsOf live' = writes.foldl Write.apply (contentsOf live) := by
  induction writes generalizing session log live with
  | nil => exact ⟨session, log, live, rfl, serves, rfl⟩
  | cons write writes ih =>
    obtain ⟨outcome, middle, log', live', ran, answered, served, contents⟩ :=
      serves.run_write write (fits write mem_cons_self)
    obtain ⟨reached, last, final, rest, ends, applied⟩ :=
      ih (fun later member => fits later (mem_cons_of_mem _ member)) served
    refine ⟨reached, last, final, ?_, ends, ?_⟩
    · rw [map_cons, Bitdb.callAll, ran, if_pos answered]
      exact rest
    · rw [applied, contents, foldl_cons]

variable {crc : Crc32c} {txnId : UInt64} {pending : PendingWrites} {values : Contents}

structure Collects (crc : Crc32c) (txnId : UInt64) (pending : PendingWrites)
    (values : Contents) : Prop where
  lookup : ∀ key, pending.lookup key = (values key).map fun value => ⟨key, value, .normal⟩
  nulFree : ∀ key value, values key = some value → 0 ∉ key
  fits : ∀ key value, values key = some value →
    (⟨encodeVarint64 txnId ++ key, value, .normal⟩ : LogRecord).Storable crc

theorem collects_new : Collects crc txnId ∅ fun _ => none where
  lookup _ := rfl
  nulFree := by rintro _ _ ⟨⟩
  fits := by rintro _ _ ⟨⟩

theorem Collects.put (collects : Collects crc txnId pending values) {key value : Bytes}
    (fits : (Write.put key value).Fits crc txnId) :
    Collects crc txnId (pending.emplace key.cString ⟨key.cString, value.cString, .normal⟩)
      (update values key.cString ((values key.cString).or (some value.cString))) := by
  cases here : values key.cString with
  | some old =>
    have present : key.cString ∈ pending := by
      rw [← AList.lookup_isSome, collects.lookup, here]
      rfl
    rw [emplace, if_pos present, some_or, update_eq_self_iff.mpr here.symm]
    exact collects
  | none =>
    have missing : key.cString ∉ pending := by
      rw [← AList.lookup_eq_none, collects.lookup, here]
      rfl
    rw [emplace, if_neg missing, none_or]
    refine ⟨fun other => ?_, fun other stored found => ?_, fun other stored found => ?_⟩
    all_goals by_cases same : other = key.cString
    · subst same
      rw [AList.lookup_insert, update_self]
      rfl
    · rw [AList.lookup_insert_ne same, update_of_ne same]
      exact collects.lookup other
    · subst same
      exact key.nul_not_mem_cString
    · rw [update_of_ne same] at found
      exact collects.nulFree other stored found
    · subst same
      rw [update_self] at found
      cases found
      exact fits
    · rw [update_of_ne same] at found
      exact collects.fits other stored found

theorem Collects.erase (collects : Collects crc txnId pending values) (key : List Byte) :
    Collects crc txnId (pending.erase key) (update values key none) := by
  have before (other value : List Byte)
      (found : update values key none other = some value) :
      values other = some value := by
    by_cases same : other = key
    · subst same
      rw [update_self] at found
      cases found
    · rwa [update_of_ne same] at found
  refine ⟨fun other => ?_, fun other value found => collects.nulFree other value
    (before other value found), fun other value found => collects.fits other value
    (before other value found)⟩
  by_cases same : other = key
  · subst same
    rw [AList.lookup_erase, update_self]
    rfl
  · rw [AList.lookup_erase_ne same, update_of_ne same]
    exact collects.lookup other

def Write.Deletes (key : List Byte) : Write → Prop
  | .put _ _ => False
  | .delete deleted => deleted.empty = false ∧ deleted.cString = key

variable {batch : WriteBatch}

theorem Serves.run_batchDelete (serves : Serves env session log live) {key : Bytes}
    (nonempty : key.empty = false) :
    (WriteBatch.delete env key).run ⟨batch, session⟩ =
      if live key.cString = none then
        (.ok .ok, ⟨{ batch with pendingWrites := batch.pendingWrites.erase key.cString }, session⟩)
      else (.error (.faulted .nullPointer), ⟨batch, session⟩) := by
  rw [run_batchDelete_eq env _ nonempty, serves.run_get nonempty true]
  cases live key.cString with
  | none | some => rfl

theorem Serves.run_onBatch (serves : Serves env session log live)
    (collects : Collects env.crc txnId batch.pendingWrites values) (write : Write)
    (fits : write.Fits env.crc txnId)
    (answered : returned ((write.onBatch env).run ⟨batch, session⟩).1 = true) :
    ∃ batch', ((write.onBatch env).run ⟨batch, session⟩).2 = ⟨batch', session⟩ ∧
      Collects env.crc txnId batch'.pendingWrites (write.collect values) ∧
      ∀ key, write.Deletes key → live key = none := by
  cases write with
  | put key value =>
    cases empty : key.empty with
    | true =>
      simp only [Write.onBatch, WriteBatch.put, Write.collect, empty, ↓reduceIte]
      exact ⟨batch, rfl, collects, fun _ deleted => deleted.elim⟩
    | false =>
      simp only [Write.onBatch, WriteBatch.put, Write.collect, empty, Bool.false_eq_true,
        ↓reduceIte]
      exact ⟨_, rfl, collects.put fits, fun _ deleted => deleted.elim⟩
  | delete key =>
    cases empty : key.empty with
    | true =>
      simp only [Write.onBatch, WriteBatch.delete, Write.collect, Write.Deletes, empty, ↓reduceIte]
      exact ⟨batch, rfl, collects, fun _ deleted => by cases deleted.1⟩
    | false =>
      rw [Write.onBatch, serves.run_batchDelete empty] at answered ⊢
      by_cases missing : live key.cString = none
      · simp only [if_pos missing, Write.collect, empty, Bool.false_eq_true, ↓reduceIte]
        exact ⟨_, rfl, collects.erase key.cString, fun _ deleted => deleted.2 ▸ missing⟩
      · rw [if_neg missing] at answered
        cases answered

theorem Serves.fill (writes : List Write) (fits : ∀ write ∈ writes, write.Fits env.crc txnId)
    (serves : Serves env session log live) {filled : BatchSession}
    (collects : Collects env.crc txnId batch.pendingWrites values)
    (filling : Bitdb.callAll (writes.map (Write.onBatch env)) ⟨batch, session⟩ = some filled) :
    filled.session = session ∧
      Collects env.crc txnId filled.batch.pendingWrites (writes.foldl Write.collect values) ∧
      ∀ write ∈ writes, ∀ key, write.Deletes key → live key = none := by
  induction writes generalizing batch values with
  | nil =>
    cases filling
    exact ⟨rfl, collects, by rintro _ ⟨⟩⟩
  | cons write writes ih =>
    rw [map_cons, Bitdb.callAll] at filling
    split at filling
    · rename_i answered
      obtain ⟨batch', ran, collected, missing⟩ :=
        serves.run_onBatch collects write (fits write mem_cons_self) answered
      rw [ran] at filling
      obtain ⟨same, rest, later⟩ :=
        ih (fun other member => fits other (mem_cons_of_mem _ member)) collected filling
      refine ⟨same, rest, fun other member => ?_⟩
      rcases mem_cons.mp member with here | there
      · subst here
        exact missing
      · exact later other there
    · cases filling

theorem storable_finishRecord (crc : Crc32c) (small : txnId.toNat < 2 ^ 28) :
    (finishRecord txnId).Storable crc := by
  have keyed := (tagged_finishRecord small).keyed
  have head := logRecordHead_length_le crc (finishRecord txnId)
  have tag : (encodeVarint64 txnId).length ≤ 4 := encodeVarintLoop_length_le small (by decide)
  have name : txnFinishedKey.length = 12 := by decide
  refine ⟨keyed, ?_⟩
  rw [encodeLogRecord_length keyed, maxTransfer]
  rw [maxLogRecordHeaderSize] at head
  simp only [finishRecord, length_append, length_nil, name]
  rw [finishRecord] at head
  omega

theorem contentsOf_batchActions {pending : List (List Byte × LogRecord)} {placed : List Located}
    (fresh : ∀ item ∈ pending, FreshPut item)
    (records : placed.map Prod.snd = txnRecords txnId pending)
    (agree : ∀ item ∈ pending, values item.1 = some item.2.value) (key : List Byte) :
    contentsOf ((batchActions pending placed).foldl Journal.Action.overwrite live) key =
      if key ∈ pending.map Prod.fst then values key else contentsOf live key := by
  induction pending generalizing placed live with
  | nil => rfl
  | cons item pending ih =>
    cases placed with
    | nil => cases records
    | cons found placed =>
      obtain ⟨here, rest⟩ := List.cons.inj records
      have put : Located.action item.1 found = .put item.1 ⟨found.1, item.2.value⟩ := by
        have normal := (fresh item mem_cons_self).normal
        rw [Located.action, show found.2 = txnRecord txnId item.2 from here, txnRecord, normal]
        rfl
      have first := agree item mem_cons_self
      rw [batchActions, zipWith_cons_cons, put, foldl_cons, ← batchActions,
        ih (fun other member => fresh other (mem_cons_of_mem _ member)) rest
          (fun other member => agree other (mem_cons_of_mem _ member)),
        Journal.Action.overwrite, contentsOf_update, map_cons]
      by_cases later : key ∈ pending.map Prod.fst
      · rw [if_pos later, if_pos (mem_cons_of_mem _ later)]
      · rw [if_neg later]
        by_cases same : key = item.1
        · subst same
          rw [update_self, if_pos mem_cons_self, first]
          rfl
        · rw [update_of_ne same, if_neg (by simp [same, later])]

section

variable {batch : WriteBatch} {crc : Crc32c}
  (collects : Collects crc txnId batch.pendingWrites values)

include collects

theorem Collects.found {item : List Byte × LogRecord}
    (member : item ∈ batch.pendingWrites.inOrder) :
    ∃ value, values item.1 = some value ∧ item.2 = ⟨item.1, value, .normal⟩ := by
  have lookup := collects.lookup item.1
  rw [mem_inOrder member] at lookup
  obtain ⟨value, here, same⟩ := map_eq_some_iff.mp lookup.symm
  exact ⟨value, here, same.symm⟩

theorem Collects.overlay (contents : Contents) (key : List Byte) :
    (if key ∈ batch.pendingWrites.inOrder.map Prod.fst then values key else contents key) =
      (values key).or (contents key) := by
  have listed : key ∈ batch.pendingWrites.inOrder.map Prod.fst ↔ (values key).isSome = true := by
    rw [keys_inOrder.mem_iff, ← AList.mem_keys, ← AList.lookup_isSome, collects.lookup, isSome_map]
  cases here : values key with
  | none => rw [if_neg (by simp [listed, here]), none_or]
  | some value => rw [if_pos (by simp [listed, here]), some_or]

end

theorem Serves.run_commitPending (serves : Serves env session log live) {batch : WriteBatch}
    (collects : Collects env.crc (session.db.txnId + 1) batch.pendingWrites values)
    (small : (session.db.txnId + 1).toNat < 2 ^ 28) :
    ∃ reached log' live', (WriteBatch.commitPending env batch.pendingWrites.inOrder).run
        ⟨batch, session⟩ = (.ok .ok, reached) ∧
      Serves env reached.session log' live' ∧
      reached.session.db.txnId = session.db.txnId + 1 ∧
      contentsOf live' = fun key => (values key).or (contentsOf live key) := by
  have fresh : ∀ item ∈ batch.pendingWrites.inOrder, FreshPut item := by
    intro item member
    obtain ⟨value, here, same⟩ := collects.found member
    exact ⟨by rw [same], collects.nulFree item.1 value here, by rw [same]⟩
  obtain ⟨after, wrote, attached, shows, stored⟩ := serves.attached.run_commitPending
    ⟨batch, session⟩ serves.shows fresh nodup_inOrder rfl small
  refine ⟨after, _, _, wrote, serves.appended attached rfl (fun record member => ?_) shows
    (fun key slot here => ?_), stored.frame.txnId, funext fun key => ?_⟩
  · rcases mem_append.mp member with inside | last
    · obtain ⟨item, listed, rfl⟩ := mem_map.mp inside
      obtain ⟨value, here, same⟩ := collects.found listed
      have fits := collects.fits item.1 value here
      rw [txnRecord, same, Bytes.cString_ofString (collects.nulFree item.1 value here)]
      exact fits
    · rw [mem_singleton.mp last]
      exact storable_finishRecord env.crc small
  · rcases Journal.foldl_overwrite_some here with old | put
    · exact .inl old
    · obtain ⟨item, found, member, action⟩ := mem_batchActions put
      rw [Located.action] at action
      split at action
      · cases action
      · rename_i kept
        cases action
        refine .inr ⟨found, ?_, rfl, rfl, kept⟩
        rw [Log.locate_append]
        exact mem_append_left _ member
  · rw [← collects.overlay, contentsOf_batchActions fresh
      (Log.locate_records env.crc session.limit log _)
      fun item member => ?_]
    obtain ⟨value, here, same⟩ := collects.found member
    rw [here, same]

theorem Serves.commit (serves : Serves env session log live) {batch : WriteBatch}
    {reached : BatchSession}
    (collects : Collects env.crc (session.db.txnId + 1) batch.pendingWrites values)
    (committed : (WriteBatch.commit env).run ⟨batch, session⟩ = (.ok .ok, reached)) :
    ∃ log' live', Serves env reached.session log' live' ∧
      contentsOf live' = fun key => (values key).or (contentsOf live key) := by
  rcases run_commit_cases env ⟨batch, session⟩ with ⟨outcome, ran, _, empty⟩ | ran
  · rw [ran] at committed
    cases committed
    refine ⟨log, live, serves, funext fun key => ?_⟩
    rw [← collects.overlay, show batch.pendingWrites.inOrder = [] from empty rfl]
    rfl
  · rw [ran] at committed
    by_cases small : (session.db.txnId + 1).toNat < 2 ^ 28
    · obtain ⟨after, log', live', wrote, served, _, contents⟩ :=
        serves.run_commitPending collects small
      rw [wrote] at committed
      cases committed
      exact ⟨log', live', served, contents⟩
    · rw [run_commitPending_large env ⟨batch, session⟩ _ small] at committed
      cases committed

theorem isSome_collect_eq_apply (writes : List Write) {pending contents : Contents}
    (same : ∀ key, (pending key).isSome = (contents key).isSome) (key : List Byte) :
    (writes.foldl Write.collect pending key).isSome =
      (writes.foldl Write.apply contents key).isSome := by
  induction writes generalizing pending contents with
  | nil => exact same key
  | cons write writes ih =>
    refine ih fun other => ?_
    cases write with
    | put key value | delete key =>
      rw [Write.collect, Write.apply]
      split
      · exact same other
      · by_cases here : other = key.cString
        · subst here
          simp
        · rw [update_of_ne here, update_of_ne here]
          exact same other

theorem foldl_apply_or (writes : List Write) (contents below : Contents)
    (missing : ∀ write ∈ writes, ∀ key, write.Deletes key → below key = none) :
    writes.foldl Write.apply (fun key => (contents key).or (below key)) =
      fun key => (writes.foldl Write.apply contents key).or (below key) := by
  induction writes generalizing contents with
  | nil => rfl
  | cons write writes ih =>
    have first := missing write mem_cons_self
    have step : write.apply (fun key => (contents key).or (below key)) =
        fun key => (write.apply contents key).or (below key) := by
      funext other
      cases write with
      | put key value =>
        rw [Write.apply, Write.apply]
        split
        · rfl
        · by_cases here : other = key.cString
          · subst here
            simp
          · rw [update_of_ne here, update_of_ne here]
      | delete key =>
        rw [Write.apply, Write.apply]
        split
        · rfl
        · rename_i nonempty
          by_cases here : other = key.cString
          · subst here
            simp [first _ ⟨by simpa using nonempty, rfl⟩]
          · rw [update_of_ne here, update_of_ne here]
    rw [foldl_cons, step]
    exact ih _ fun other member => missing other (mem_cons_of_mem _ member)

/-- A committed batch leaves the same values as its writes one by one exactly when the first
value of each key since its last deletion is also the last one. -/
theorem commit_agrees_iff (serves : Serves env session log live) (options : WriteBatchOptions)
    (writes : List Write)
    (fits : ∀ write ∈ writes, write.Fits env.crc (session.db.txnId + 1))
    {filled reached : BatchSession}
    (filling : callAll (writes.map (Write.onBatch env)) ⟨.new options, session⟩ = some filled)
    (committed : (WriteBatch.commit env).run filled = (.ok .ok, reached)) :
    ∃ direct, callAll (writes.map (Write.onDb env)) session = some direct ∧
      ((∀ key, ((get env key true).run reached.session).1 = ((get env key true).run direct).1) ↔
        ∀ key, writes.foldl Write.collect (fun _ => none) key =
          writes.foldl Write.apply (fun _ => none) key) := by
  obtain ⟨direct, log', live', ran, served, applied⟩ := serves.callAll writes fits
  refine ⟨direct, ran, ?_⟩
  obtain ⟨batch, stays⟩ := filled
  obtain ⟨rfl, collects, missing⟩ := serves.fill writes fits collects_new filling
  obtain ⟨log'', live'', shown, overlaid⟩ := serves.commit collects committed
  have below : writes.foldl Write.apply (contentsOf live) =
      fun key => (writes.foldl Write.apply (fun _ => none) key).or (contentsOf live key) := by
    refine foldl_apply_or writes (fun _ => none) (contentsOf live)
      fun write member key deletes => ?_
    rw [contentsOf, missing write member key deletes]
    rfl
  rw [shown.same_gets_iff served]
  constructor
  · intro same key
    have present := isSome_collect_eq_apply writes (fun _ => rfl : ∀ key : List Byte,
      ((fun _ => none : Contents) key).isSome = ((fun _ => none : Contents) key).isSome) key
    cases kept : writes.foldl Write.collect (fun _ => none) key with
    | none =>
      rw [kept] at present
      exact (isNone_iff_eq_none.mp (by simpa using present.symm)).symm
    | some value =>
      have agree := same key (collects.nulFree key value kept)
      rw [kept] at present
      obtain ⟨last, put⟩ := isSome_iff_exists.mp present.symm
      rw [overlaid, applied, below] at agree
      simpa [kept, put] using agree
  · intro same key nulFree
    simp only [overlaid, applied, below, same]

end

theorem commit_agrees_one_key :
    let options : Options := ⟨⟨"db", 0⟩, 64, false, .skipListIndex⟩
    let session : Session := ⟨DB.new options, .on ⟨[∅]⟩⟩
    let key := Bytes.ofString [97]
    let writes : List Write := [.put key (.ofString [49]), .delete key, .put key (.ofString [50])]
    ∃ filled reached direct,
      callAll (writes.map (Write.onBatch .reference)) ⟨.new ⟨8⟩, session⟩ = some filled ∧
      (WriteBatch.commit .reference).run filled = (.ok .ok, reached) ∧
      callAll (writes.map (Write.onDb .reference)) session = some direct ∧
      ∀ key, ((get .reference key true).run reached.session).1 =
        ((get .reference key true).run direct).1 := by
  intro options session key writes
  have empty : EmptyDir (.on ⟨[∅]⟩) := ⟨rfl, rfl⟩
  have holds : Holds .reference session .empty .empty :=
    (loaded_blank empty.reliable (empty.stored Platform.reference.crc)).holds
  have serves := holds.serves (by rintro _ ⟨⟩)
  have fits : ∀ write ∈ writes, write.Fits Platform.reference.crc (session.db.txnId + 1) := by
    intro write member
    simp only [writes, mem_cons, not_mem_nil, or_false] at member
    rcases member with rfl | rfl | rfl <;> exact ⟨by decide, by decide +kernel⟩
  have ends : (callAll (writes.map (Write.onBatch .reference)) ⟨.new ⟨8⟩, session⟩).map
      (fun filled => ((WriteBatch.commit .reference).run filled).1) = some (.ok .ok) := by
    decide +kernel
  obtain ⟨filled, filling, committed⟩ := map_eq_some_iff.mp ends
  obtain ⟨direct, ran, iff⟩ :=
    commit_agrees_iff serves ⟨8⟩ writes fits filling (run_of_outcome committed)
  refine ⟨filled, _, direct, filling, run_of_outcome committed, ran, iff.mpr fun other => ?_⟩
  simp [writes, Write.collect, Write.apply, key]

theorem commit_keeps_first_put :
    let options : Options := ⟨⟨"db", 0⟩, 64, false, .skipListIndex⟩
    let session : Session := ⟨DB.new options, .on ⟨[∅]⟩⟩
    let key := Bytes.ofString [97]
    let writes : List Write := [.put key (.ofString [49]), .put key (.ofString [50])]
    ∃ filled reached direct,
      (openDb .reference options false).run (.on ⟨[∅]⟩) = (.ok session.db, session.world) ∧
      callAll (writes.map (Write.onBatch .reference)) ⟨.new ⟨8⟩, session⟩ = some filled ∧
      (WriteBatch.commit .reference).run filled = (.ok .ok, reached) ∧
      callAll (writes.map (Write.onDb .reference)) session = some direct ∧
      ((get .reference key true).run reached.session).1 = .ok [49] ∧
      ((get .reference key true).run direct).1 = .ok [50] := by
  intro options session key writes
  have inBatch : (callAll (writes.map (Write.onBatch .reference)) ⟨.new ⟨8⟩, session⟩).map
      (fun filled => let result := (WriteBatch.commit .reference).run filled
        (result.1, ((get .reference key true).run result.2.session).1)) =
      some (.ok .ok, .ok [49]) := by
    decide +kernel
  have inDb : (callAll (writes.map (Write.onDb .reference)) session).map
      (fun direct => ((get .reference key true).run direct).1) = some (.ok [50]) := by
    decide +kernel
  obtain ⟨filled, filling, facts⟩ := map_eq_some_iff.mp inBatch
  obtain ⟨committed, kept⟩ := Prod.mk.inj facts
  obtain ⟨direct, ran, last⟩ := map_eq_some_iff.mp inDb
  exact ⟨filled, _, direct, rfl, filling, run_of_outcome committed, ran, kept, last⟩

end Bitdb
