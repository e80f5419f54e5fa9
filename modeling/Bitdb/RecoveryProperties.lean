import Bitdb.Lifecycle
import Bitdb.JournaledProperties

/-! Runs of writing calls and crashes. Transaction ids are never used twice in one log. -/

set_option autoImplicit false

namespace Bitdb

open Base List Located Log

structure Recoverable (env : Platform) (history : List Event) (session : Session) (log : Log)
    (keys : KeyState) : Prop extends Journaled env session log keys where
  traced : session.world.trace = (log.records env.crc).map (Located.write env.crc 0)
  plain : PlainDir session.world.fs 0
  top : session.db.options.dirPath.level = 0
  few : session.db.txnId.toNat ≤ transactions history

/-- Records were added, in transactions above `txnId` if in any. -/
def Log.Extended (crc : Crc32c) (txnId : UInt64) (log reached : Log) : Prop :=
  ∃ added, reached.records crc = log.records crc ++ added ∧
    ∀ found ∈ added, ∀ txn, (Located.entry found).txn = some txn → txnId.toNat < txn

/-- How an event changes the log: calls add records, and a crash cuts it. -/
def Event.Changes (crc : Crc32c) (txnId : UInt64) (log reached : Log) (event : Event) : Prop :=
  match event with
  | .recover _ after => reached.records crc = (log.records crc).take after.trace.length
  | _ => log.Extended crc txnId reached

@[simp] theorem transactions_append (front back : List Event) :
    transactions (front ++ back) = transactions front + transactions back :=
  countP_append

section Step

variable {env : Platform} {history : List Event} {session reached : Session} {log : Log}
  {keys : KeyState}

theorem Wrote.extended {records : List LogRecord} {txnId : UInt64}
    (wrote : Wrote env session log records txnId reached keys) :
    log.Extended env.crc session.db.txnId
      (log.appendAll env.crc session.limit records) := by
  refine ⟨_, records_appendAll _ _ _ _, ?_⟩
  intro found member txn same
  have inside : found.2 ∈ records := by
    rw [← locate_records env.crc session.limit log records]
    exact mem_map_of_mem member
  obtain ⟨key, id, tagged, placed⟩ := wrote.tagged found.2 inside
  rw [show (entry found).txn = _ from tagged.entry_txn found.1] at same
  split at same
  · cases same
  · cases same
    rcases placed with outside | ⟨_, above⟩
    · contradiction
    · exact above

theorem fillBatch_spec (pairs : List (Bytes × Bytes)) (state : BatchSession)
    (fresh : ∀ key record, state.batch.pendingWrites.lookup key = some record →
      FreshPut (key, record)) :
    (fillBatch pairs state).session = state.session ∧
      ∀ key record, (fillBatch pairs state).batch.pendingWrites.lookup key = some record →
        FreshPut (key, record) := by
  induction pairs generalizing state with
  | nil => exact ⟨rfl, fresh⟩
  | cons pair rest ih =>
    obtain ⟨key, value⟩ := pair
    cases empty : key.empty with
    | true =>
      have refused : ((WriteBatch.put key value).run state).2 = state := by
        simp only [WriteBatch.put, empty, ↓reduceIte]
        rfl
      rw [fillBatch, refused]
      exact ih state fresh
    | false =>
      have stored : ((WriteBatch.put key value).run state).2 =
          ⟨{ state.batch with
            pendingWrites := state.batch.pendingWrites.emplace key.cString
              ⟨key.cString, value.cString, .normal⟩ }, state.session⟩ := by
        simp only [WriteBatch.put, empty]
        rfl
      rw [fillBatch, stored]
      exact ih _ (PendingWrites.emplace_all fresh ⟨rfl, key.nul_not_mem_cString, rfl⟩)

theorem checkOptions_of_opened {options : Options} {mergeAfterOpen : Bool} {world reached : World}
    {db : DB} (opened : (openDb env options mergeAfterOpen).run world = (.ok db, reached)) :
    checkOptions options = .ok () := by
  cases checked : checkOptions options with
  | ok value => rfl
  | error stop =>
    rw [openDb, openDepth, checked, Program.run_ofExcept_error_bind] at opened
    cases opened

section

variable (recoverable : Recoverable env history session log keys)

include recoverable

theorem Recoverable.few_more (event : Event) :
    session.db.txnId.toNat ≤ transactions (history ++ [event]) := by
  rw [transactions_append]
  exact Nat.le_add_right_of_le recoverable.few

theorem Recoverable.wrote {history' : List Event} {records : List LogRecord} {txnId : UInt64}
    {keys' : KeyState} (wrote : Wrote env session log records txnId reached keys')
    (counted : txnId.toNat ≤ transactions history') :
    Recoverable env history' reached
      (log.appendAll env.crc session.limit records) keys' := by
  have frame := wrote.stored.frame
  have top : reached.level = 0 := by
    rw [frame.level]
    exact recoverable.top
  refine ⟨wrote.journaled, ?_, ?_, top, ?_⟩
  · rw [wrote.stored.trace, records_appendAll, map_append, Session.withTxnId_options,
      recoverable.top, ← recoverable.traced]
    rfl
  · have plain := recoverable.plain
    rw [← recoverable.top] at plain
    rw [← top]
    exact frame.plain plain
  · rw [frame.txnId]
    exact counted

theorem Recoverable.step_commit (options : WriteBatchOptions) (pairs : List (Bytes × Bytes))
    (few : transactions history + 1 < 2 ^ 28) :
    ∃ log' keys', Recoverable env (history ++ [.commit options pairs])
        (commitPuts env options pairs session).2 log' keys' ∧
      log.Extended env.crc session.db.txnId log' := by
  obtain ⟨same, fresh⟩ := fillBatch_spec pairs ⟨.new options, session⟩ fun key record found => by
    simp [WriteBatch.new] at found
  rw [commitPuts]
  generalize fillBatch pairs ⟨.new options, session⟩ = filled at same fresh
  obtain ⟨batch, other⟩ := filled
  obtain rfl : other = session := same
  have bound := recoverable.few
  obtain ⟨outcome, reached, txnId, records, keys', ran, _, next, wrote⟩ :=
    recoverable.run_commit batch fresh (by omega)
  simp only [ran]
  refine ⟨_, keys', recoverable.wrote wrote ?_, wrote.extended⟩
  rw [transactions_append]
  exact Nat.le_trans next (Nat.add_le_add_right bound 1)

theorem Recoverable.recover {after : World} {options : Options} (crash : Crash session.world after)
    (noEmpty : NoEmptyDataFile after.fs 0) (valid : checkOptions options = .ok ())
    (top : options.dirPath.level = 0) :
    ∃ db log' keys', (openDb env options false).run after = (.ok db, after) ∧
      Recoverable env history ⟨db, after⟩ log' keys' ∧
      log'.records env.crc = (log.records env.crc).take after.trace.length ∧
      after.fs.readLog env.crc 0 = log'.records env.crc := by
  have stored := recoverable.holds.attached.stored
  rw [recoverable.top] at stored
  obtain ⟨files, left⟩ := crash.left noEmpty stored recoverable.traced recoverable.keyed
  have records : (Log.ofFiles files).records env.crc =
      (log.records env.crc).take after.trace.length := by
    rw [Log.records, files_ofFiles]
    exact left.cut
  have entries : (Log.ofFiles files).entries env.crc =
      (log.entries env.crc).take after.trace.length := by
    rw [Log.entries, records, map_take]
    rfl
  have replays := recoverable.holds.replayed
  rw [← take_append_drop after.trace.length (log.entries env.crc), ← entries] at replays
  obtain ⟨keys', replayed, _⟩ := Journal.replay_front replays
  have members : ∀ found ∈ (Log.ofFiles files).records env.crc, found ∈ log.records env.crc := by
    intro found member
    rw [records] at member
    exact mem_of_mem_take member
  have plain : PlainDir after.fs 0 := by
    refine ⟨?_, ?_, ?_⟩
    · have missing := recoverable.plain.noMergence
      rw [Fs.dir?, List.getElem?_eq_none_iff] at missing ⊢
      rw [crash.levels]
      exact missing
    · exact (crash.others _ (.inr fun _ same => by cases same)).trans recoverable.plain.noHint
    · exact (crash.others _ (.inr fun _ same => by cases same)).trans recoverable.plain.noMerged
  have loadable : ∀ file ∈ (Log.ofFiles files).files, file.Loadable env.crc := by
    intro file member
    rw [files_ofFiles] at member
    refine ⟨⟨left.storable file member, ?_⟩, left.full file member⟩
    intro record inside
    obtain ⟨pst, found⟩ := file.mem_located env.crc inside
    refine recoverable.tagged (pst, record) (members _ ?_)
    rw [Log.records, files_ofFiles]
    exact mem_flatMap.mpr ⟨file, member, found⟩
  have found := left.stored
  rw [← files_ofFiles files, ← top] at found
  rw [← top] at plain
  obtain ⟨db, opened, loaded⟩ := run_openDepth_loaded valid crash.reliable plain found
    started_ofFiles loadable replayed
  have largest : (maxTxnId nonTxnId ((Log.ofFiles files).records env.crc)).toNat ≤
      session.db.txnId.toNat :=
    maxTxnId_le (Nat.zero_le _) fun found member => recoverable.bounded found (members found member)
  refine ⟨db, Log.ofFiles files, keys', opened, ⟨⟨loaded.holds, ?_, ?_, ?_⟩, ?_, ?_, ?_, ?_⟩,
    records, ?_⟩
  · exact fun found member => recoverable.tagged found (members found member)
  · rw [loaded.txnId]
    exact (le_maxTxnId _ _).2
  · rw [entries]
    exact recoverable.blocks.take _
  · rw [Log.records, files_ofFiles]
    exact left.traced
  · rw [← top]
    exact plain
  · rw [loaded.options]
    exact top
  · rw [loaded.txnId]
    exact Nat.le_trans largest recoverable.few
  · rw [left.stored.readLog left.full left.storable, Log.records, files_ofFiles]

theorem Recoverable.step {event : Event} (stepped : Event.Step env session event reached)
    (few : transactions (history ++ [event]) < 2 ^ 28) :
    ∃ log' keys', Recoverable env (history ++ [event]) reached log' keys' ∧
      event.Changes env.crc session.db.txnId log log' := by
  cases event with
  | put key value =>
    cases stepped
    obtain ⟨_, _, records, keys', ran, _, wrote⟩ := recoverable.run_put key value
    rw [ran]
    exact ⟨_, keys', recoverable.wrote wrote (recoverable.few_more _), wrote.extended⟩
  | delete key =>
    cases stepped
    obtain ⟨_, _, records, keys', ran, _, wrote⟩ := recoverable.run_delete key
    rw [ran]
    exact ⟨_, keys', recoverable.wrote wrote (recoverable.few_more _), wrote.extended⟩
  | commit options pairs =>
    cases stepped
    rw [transactions_append] at few
    exact recoverable.step_commit options pairs few
  | recover options after =>
    obtain ⟨crash, noEmpty, top, opened⟩ := stepped
    obtain ⟨db, log', keys', again, recovered, cut, _⟩ :=
      recoverable.recover crash noEmpty (checkOptions_of_opened opened) top
    rw [opened] at again
    obtain ⟨rfl, rfl⟩ : reached.db = db ∧ reached.world = after := by
      injection again with outcome world
      injection outcome with same
      exact ⟨same, world⟩
    exact ⟨log', keys', { recovered with few := recovered.few_more _ }, cut⟩

theorem Recoverable.index (key : List Byte) : session.db.index.lookup key =
      (Journal.contents (log.entries env.crc) key).map (·.pst) := by
  rw [recoverable.holds.index, recoverable.blocks.replay_live recoverable.holds.replayed]

theorem Recoverable.hidden {found : Located} {txn : Nat} (member : found ∈ log.records env.crc)
    (owned : (entry found).txn = some txn)
    (unfinished : Journal.finished (log.entries env.crc) txn = false) (key : List Byte) :
    session.db.index.lookup key ≠ some found.1 := by
  intro shown
  rw [recoverable.index] at shown
  obtain ⟨slot, offered, position⟩ := Option.map_eq_some_iff.mp shown
  obtain ⟨entry, inside, offers, finished⟩ := Journal.contents_offered offered
  obtain ⟨other, here, rfl⟩ := mem_map.mp inside
  have same : other = found := eq_of_position
    (records_pairwise recoverable.holds.attached.stored.ascending recoverable.keyed) here member
    ((carries_of_offers offers).pst.trans position)
  rw [same] at finished
  rw [finished txn owned] at unfinished
  cases unfinished

end

/-- A record that stays in the log without the end of its transaction. -/
structure Abandoned (env : Platform) (session : Session) (log : Log) (first : List Located)
    (txn : Nat) : Prop where
  kept : first <+: log.records env.crc
  unfinished : Journal.finished (log.entries env.crc) txn = false
  below : txn ≤ session.db.txnId.toNat

section

variable {first : List Located} {txn : Nat} (abandoned : Abandoned env session log first txn)

include abandoned

theorem Abandoned.step {log' : Log} {keys' : KeyState} {event : Event}
    (recoverable : Recoverable env (history ++ [event]) reached log' keys')
    (changed : event.Changes env.crc session.db.txnId log log') (spared : event.Spares first.length)
    (owned : ∃ found ∈ first, (entry found).txn = some txn) :
    Abandoned env reached log' first txn := by
  have kept : first <+: log'.records env.crc ∧
      Journal.finished (log'.entries env.crc) txn = false := by
    have extended (more : log.Extended env.crc session.db.txnId log') :
        first <+: log'.records env.crc ∧ Journal.finished (log'.entries env.crc) txn = false := by
      obtain ⟨added, records, above⟩ := more
      have fresh : Journal.Fresh txn (added.map entry) := by
        intro entry member same
        obtain ⟨found, inside, rfl⟩ := mem_map.mp member
        exact absurd (above found inside txn same) (Nat.not_lt.mpr abandoned.below)
      have unfinished := abandoned.unfinished
      rw [Log.entries] at unfinished ⊢
      rw [records, map_append, Journal.finished_append, unfinished, fresh.finished]
      exact ⟨abandoned.kept.trans (prefix_append _ _), rfl⟩
    cases event with
    | put | delete | commit => exact extended changed
    | recover options after =>
      have cut : log'.records env.crc = (log.records env.crc).take after.trace.length := changed
      have unfinished := abandoned.unfinished
      rw [Log.entries, ← take_append_drop after.trace.length (log.records env.crc),
        map_append, Journal.finished_append, Bool.or_eq_false_iff] at unfinished
      rw [Log.entries, cut]
      exact ⟨prefix_take_iff.mpr ⟨abandoned.kept, spared⟩, unfinished.1⟩
  refine ⟨kept.1, kept.2, ?_⟩
  obtain ⟨found, member, same⟩ := owned
  exact recoverable.txn_le (kept.1.subset member) same

theorem Abandoned.run {events : List Event} (recoverable : Recoverable env history session log keys)
    (owned : ∃ found ∈ first, (entry found).txn = some txn)
    (run : Run (Event.Step env) session events reached)
    (few : transactions (history ++ events) < 2 ^ 28)
    (spared : ∀ event ∈ events, event.Spares first.length) :
    ∃ log' keys', Recoverable env (history ++ events) reached log' keys' ∧
      Abandoned env reached log' first txn := by
  refine Run.invariant (fun before state => transactions (history ++ before) < 2 ^ 28 →
    (∀ event ∈ before, Event.Spares first.length event) →
      ∃ log' keys', Recoverable env (history ++ before) state log' keys' ∧
        Abandoned env state log' first txn) ?_ []
    (fun _ _ => ⟨log, keys, by rw [append_nil]; exact recoverable, abandoned⟩) run few spared
  intro before state event next ready stepped few spared
  rw [← append_assoc] at few ⊢
  have earlier : transactions (history ++ before) < 2 ^ 28 := by
    rw [transactions_append] at few
    omega
  obtain ⟨log', keys', here, waiting⟩ := ready earlier fun other member =>
    spared other (mem_append_left _ member)
  obtain ⟨log'', keys'', there, changed⟩ := here.step stepped few
  exact ⟨log'', keys'', there, waiting.step there changed (spared event (by simp)) owned⟩

end

theorem Recoverable.run (recoverable : Recoverable env history session log keys)
    {events : List Event} (run : Run (Event.Step env) session events reached)
    (few : transactions (history ++ events) < 2 ^ 28) :
    ∃ log' keys', Recoverable env (history ++ events) reached log' keys' := by
  refine Run.invariant (fun before state => transactions before < 2 ^ 28 →
    ∃ log' keys', Recoverable env before state log' keys') ?_ history
    (fun _ => ⟨log, keys, recoverable⟩) run few
  intro before state event next ready stepped few
  have earlier : transactions before < 2 ^ 28 := by
    rw [transactions_append] at few
    omega
  obtain ⟨log', keys', here⟩ := ready earlier
  obtain ⟨log'', keys'', there, _⟩ := here.step stepped few
  exact ⟨log'', keys'', there⟩

end Step

theorem recoverable_start {env : Platform} {world : World} {options : Options} {db : DB}
    (empty : EmptyDir world) (unwritten : world.trace = []) (top : options.dirPath.level = 0)
    (loaded : Loaded env world options .empty .empty ⟨db, world⟩) :
    Recoverable env [] ⟨db, world⟩ .empty .empty where
  holds := loaded.holds
  tagged := fun _ member => by cases member
  bounded := fun _ member => by cases member
  blocks := .nil
  traced := unwritten
  plain := empty.plain
  top := by
    rw [loaded.options]
    exact top
  few := by
    rw [loaded.txnId]
    exact Nat.zero_le _

end Bitdb
