import Bitdb.JournaledProperties
import Bitdb.Lifecycle
import Bitdb.MergeProperties

/-! A database that a process has open. Every call keeps it so. `Open` of a directory that can be
opened, and runs of a whole life. -/

set_option autoImplicit false

namespace Bitdb

open Base Program

/-- A directory that can be opened: its data files hold a log that replays, and no merge
has been installed in it. -/
structure Resting (crc : Crc32c) (fs : Fs) (log : Log) (keys : KeyState) : Prop where
  stored : FilesStored crc fs 0 log.files
  started : log.active = none → log.older = []
  readable : log.Readable crc
  replayed : Journal.replay .empty (log.entries crc) = some keys
  blocks : Journal.Blocks (log.entries crc)
  noHint : fs.content? ⟨0, .hintIndex⟩ = none
  noMerged : fs.content? ⟨0, .merged⟩ = none
  levels : fs.dirs.length ≤ 2

namespace Resting

variable {crc : Crc32c} {fs disk : Fs} {log : Log} {keys : KeyState}

variable (resting : Resting crc fs log keys)

include resting

theorem outer : 1 ≤ fs.dirs.length :=
  Fs.dir?_isSome_iff.mp resting.stored.present

theorem of_same (outer : 1 ≤ disk.dirs.length) (levels : disk.dirs.length ≤ 2)
    (same : ∀ name, disk.content? ⟨0, name⟩ = fs.content? ⟨0, name⟩) : Resting crc disk log keys :=
  { resting with
    stored := resting.stored.of_same (Fs.dir?_isSome_iff.mpr outer) fun _ => same _
    noHint := (same _).trans resting.noHint
    noMerged := (same _).trans resting.noMerged
    levels }

theorem thinned (thinned : Thinned 1 fs disk) : Resting crc disk log keys :=
  resting.of_same thinned.outer thinned.levels fun _ => thinned.others _ (Nat.zero_ne_one)

theorem relocated {log' : Log} (stored : FilesStored crc disk 0 log'.files)
    (started : log'.active = none → log'.older = []) (records : log'.records crc = log.records crc)
    (noHint : disk.content? ⟨0, .hintIndex⟩ = none) (noMerged : disk.content? ⟨0, .merged⟩ = none)
    (levels : disk.dirs.length ≤ 2) : Resting crc disk log' keys := by
  have entries : log'.entries crc = log.entries crc := by rw [Log.entries, records]; rfl
  refine ⟨stored, started, ⟨?_, ?_⟩, ?_, ?_, noHint, noMerged, levels⟩
  · intro found member
    rw [records] at member
    exact resting.readable.whole found member
  · intro found member
    rw [records] at member
    exact resting.readable.tagged found member
  · rw [entries]
    exact resting.replayed
  · rw [entries]
    exact resting.blocks

theorem loadable (full : ∀ file ∈ log.files, file.records ≠ []) :
    ∀ file ∈ log.files, file.Loadable crc :=
  fun file member => ⟨resting.readable.files file member, full file member⟩

theorem noEmptyDataFile_iff : NoEmptyDataFile fs 0 ↔ ∀ file ∈ log.files, file.records ≠ [] := by
  constructor
  · intro noEmpty file member none
    apply noEmpty file.fileId
    have content := resting.stored.content file member
    rw [none] at content
    exact content
  · intro full fileId empty
    obtain ⟨file, member, rfl⟩ := resting.stored.only fileId (by rw [empty]; rfl)
    have content : fs.content? ⟨0, .data file.fileId⟩ = _ := resting.stored.content file member
    have readable := resting.readable.files file member
    rw [empty, logBytes_eq_fileBytes readable.storable] at content
    injection content with bytes
    exact fileBytes_ne_nil (fun record inside => (readable.storable record inside).keyed)
      (full file member) bytes.symm

theorem front {files : List FileLog} (stored : FilesStored crc disk 0 files)
    (begins : files.flatMap (·.located crc) <+: log.records crc)
    (noHint : disk.content? ⟨0, .hintIndex⟩ = none) (noMerged : disk.content? ⟨0, .merged⟩ = none)
    (levels : disk.dirs.length ≤ 2) : ∃ keys', Resting crc disk (Log.ofFiles files) keys' := by
  have records : (Log.ofFiles files).records crc = files.flatMap (·.located crc) := by
    rw [Log.records, Log.files_ofFiles]
  rw [← records] at begins
  have entries : (Log.ofFiles files).entries crc <+: log.entries crc := begins.map Located.entry
  obtain ⟨back, split⟩ := entries
  have replays := resting.replayed
  rw [← split] at replays
  obtain ⟨keys', replayed, _⟩ := Journal.replay_front replays
  refine ⟨keys', by rw [Log.files_ofFiles]; exact stored, Log.started_ofFiles, ⟨?_, ?_⟩, replayed,
    ?_, noHint, noMerged, levels⟩
  · exact fun found member => resting.readable.whole found (begins.subset member)
  · exact fun found member => resting.readable.tagged found (begins.subset member)
  · have blocks := resting.blocks.take ((Log.ofFiles files).entries crc).length
    rw [← split, List.take_left] at blocks
    exact blocks

end Resting

section Unfinished

variable {env : Platform} {world : World} {options : Options}

theorem run_loadMergenceFiles_unfinished {db : DB} {cleared : World}
    (there : (world.fs.dir? (getMergenceDirectory db.options.dirPath.level)).isSome)
    (unmarked : world.fs.content? ⟨getMergenceDirectory db.options.dirPath.level, .merged⟩ = none)
    (removed : (removeDir env.os (getMergenceDirectory db.options.dirPath.level)).run world =
      (.ok (), cleared)) :
    (loadMergenceFiles env).run ⟨db, world⟩ =
      (.ok (.okWith "DB::LoadMergenceFiles" "mergence is not finished"), ⟨db, cleared⟩) := by
  have unlisted : .file .merged ∉
      env.os.readdir world.fs (getMergenceDirectory db.options.dirPath.level) := by
    rw [(env.os.readdir_perm _ _).mem_iff, Fs.mem_entries_file, unmarked]
    exact Bool.false_ne_true
  have installed : (installMergence env db.options.dirPath.level (env.os.readdir world.fs
      (getMergenceDirectory db.options.dirPath.level))).run world =
        (.ok (.okWith "DB::LoadMergenceFiles" "mergence is not finished"), world) := by
    rw [installMergence, if_neg unlisted]
    rfl
  have cleaned : ((installMergence env db.options.dirPath.level (env.os.readdir world.fs
      (getMergenceDirectory db.options.dirPath.level))).withCleanup Stop.unwinds
        (removeDir env.os (getMergenceDirectory db.options.dirPath.level))).run world = _ :=
    run_withCleanup installed (fun _ impossible => by cases impossible) removed
  simp only [loadMergenceFiles, run_readDb_bind, run_read_bind,
    Option.isNone_eq_false_iff.mpr there, Bool.false_eq_true, ↓reduceIte]
  exact run_io cleaned

/-- `Open` removes an unfinished merge and goes on as if there had been none. -/
structure Clears (env : Platform) (world cleared : World) : Prop where
  reliable : cleared.script = []
  trace : cleared.trace = world.trace
  levels : cleared.fs.dirs.length = 1
  others : ∀ handle : Handle, handle.level ≠ 1 →
    cleared.fs.content? handle = world.fs.content? handle
  passes : Passes (Thinned 1 world.fs) world cleared
  same : ∀ depth options mergeAfterOpen, options.dirPath.level = 0 → checkOptions options = .ok () →
      (openDepth env (depth + 1) options mergeAfterOpen).run world =
        (openDepth env (depth + 1) options mergeAfterOpen).run cleared

theorem exists_clears (env : Platform) (reliable : world.script = [])
    (outer : 1 ≤ world.fs.dirs.length) (levels : world.fs.dirs.length ≤ 2)
    (unmarked : ¬ world.fs.Marked) : ∃ cleared, Clears env world cleared := by
  by_cases flat : world.fs.dirs.length = 1
  · exact ⟨world, reliable, rfl, flat, fun _ _ => rfl, .refl _ _, fun _ _ _ _ _ => rfl⟩
  · have innermost : world.fs.dirs.length = getMergenceDirectory 0 + 1 := by
      rw [getMergenceDirectory]
      omega
    have missing : world.fs.content? ⟨getMergenceDirectory 0, .merged⟩ = none :=
      Option.not_isSome_iff_eq_none.mp unmarked
    obtain ⟨cleared, removing, removed⟩ := run_removeDir env.os reliable innermost
    refine ⟨cleared, removed.reliable, removed.trace, removed.levels, removed.thinned.others,
      removed.passes, ?_⟩
    intro depth options mergeAfterOpen top valid
    have there : (world.fs.dir? (getMergenceDirectory 0)).isSome :=
      Fs.dir?_isSome_iff.mpr (by omega)
    have gone : cleared.fs.dir? (getMergenceDirectory 0) = none := by
      rw [← Option.not_isSome_iff_eq_none, Fs.dir?_isSome_iff, removed.levels]
      exact Nat.lt_irrefl _
    have outside : (world.fs.dir? 0).isSome := Fs.dir?_isSome_iff.mpr outer
    have outside' : (cleared.fs.dir? 0).isSome :=
      Fs.dir?_isSome_iff.mpr (by rw [removed.levels]; exact Nat.one_pos)
    rw [← top] at missing removing there gone outside outside'
    have loading : (loadMergenceFiles env).run ⟨DB.new options, world⟩ = _ :=
      run_loadMergenceFiles_unfinished there missing removing
    have skipping : (loadMergenceFiles env).run ⟨DB.new options, cleared⟩ = _ :=
      run_loadMergenceFiles_none gone
    have bodies : (openBody env depth mergeAfterOpen).run ⟨DB.new options, world⟩ =
        (openBody env depth mergeAfterOpen).run ⟨DB.new options, cleared⟩ := by
      have loads : (loadAll env).run ⟨DB.new options, world⟩ =
          (loadAll env).run ⟨DB.new options, cleared⟩ := by
        rw [loadAll, run_bind_ok loading, run_bind_ok skipping]
      rw [openBody, run_bind, run_bind, loads]
    have objects : (onDb (DB.new options) (openBody env depth mergeAfterOpen)).run world =
        (onDb (DB.new options) (openBody env depth mergeAfterOpen)).run cleared := by
      simp only [run] at bodies
      simp only [run, onDb, bodies]
    rw [run_openDepth valid (run_checkOrCreateDirectory_there outside),
      run_openDepth valid (run_checkOrCreateDirectory_there outside'), run_bind, run_bind, objects]

end Unfinished

/-- An open database in a directory that could be opened again. -/
structure Live (env : Platform) (session : Session) (log : Log) (keys : KeyState) : Prop
    extends Journaled env session log keys where
  resting : Resting env.crc session.world.fs log keys
  small : session.db.txnId.toNat < 2 ^ 28
  noNull : ∀ fileId, session.db.olderFiles.lookup fileId ≠ some none
  top : session.db.options.dirPath.level = 0
  valid : checkOptions session.db.options = .ok ()
  idle : session.db.isMerging = false

/-- What a call may make of a log: it has got some way in appending records to it, or has put
an empty file behind the others. -/
def Log.Later (crc : Crc32c) (limit : Nat) (log log' : Log) : Prop :=
  (∃ records, Within log'.files (log.appendAll crc limit records).files) ∨
    ∃ last, log.active = some last ∧ log' = log.rotated last

theorem Log.Later.refl (crc : Crc32c) (limit : Nat) (log : Log) : log.Later crc limit log :=
  .inl ⟨[], .refl _⟩

structure Served (env : Platform) (session : Session) (log : Log) (result : Bool × Session) :
    Prop where
  live : result.1 = true → ∃ log' keys,
    log.Later env.crc session.db.options.dataFileSize log' ∧ Live env result.2 log' keys
  reliable : result.2.world.script = []
  disks : ∀ disk ∈ session.world.passed result.2.world, ∃ log' keys,
    log.Later env.crc session.db.options.dataFileSize log' ∧ Resting env.crc disk log' keys

theorem Passes.of_passed {good : Fs → Prop} {before after : World}
    (passes : Passes good before after) (last : good after.fs) :
    ∀ disk ∈ before.passed after, good disk := by
  obtain ⟨between, disks, all⟩ := passes
  intro disk member
  rw [World.passed, disks, List.drop_left] at member
  rcases List.mem_append.mp member with inside | here
  · exact all disk inside
  · rw [List.mem_singleton.mp here]
    exact last

section Serve

variable {env : Platform} {session reached : Session} {log : Log} {keys keys' : KeyState}
  {records : List LogRecord} {txnId : UInt64}

theorem storable_of_trace {limit level : Nat} (trace : reached.world.trace = session.world.trace ++
      (log.locate env.crc limit records).map (Located.write env.crc level))
    (whole : reached.world.WholeWrites) (keyed : ∀ record ∈ records, record.key ≠ []) :
    ∀ record ∈ records, record.Storable env.crc := by
  intro record member
  refine ⟨keyed record member, ?_⟩
  rw [← Log.locate_records env.crc limit log records] at member
  obtain ⟨found, inside, rfl⟩ := List.mem_map.mp member
  refine whole (Located.write env.crc level found) ?_
  rw [trace]
  exact List.mem_append_right _ (List.mem_map_of_mem inside)

theorem Wrote.storable (wrote : Wrote env session log records txnId reached keys)
    (whole : reached.world.WholeWrites) : ∀ record ∈ records, record.Storable env.crc := by
  refine storable_of_trace wrote.stored.trace whole fun record member => ?_
  obtain ⟨key, id, tagged, _⟩ := wrote.tagged record member
  exact tagged.keyed

theorem Live.between (live : Live env reached (log.appendAll env.crc session.limit records) keys')
    (noHint : session.world.fs.content? ⟨0, .hintIndex⟩ = none)
    (noMerged : session.world.fs.content? ⟨0, .merged⟩ = none)
    (levels : session.world.fs.dirs.length ≤ 2) {disk : Fs}
    (between : Between env.crc 0 session.limit session.world.fs log records
      disk) : ∃ log' keys', log.Later env.crc session.limit log' ∧
        Resting env.crc disk log' keys' := by
  obtain ⟨files, stored, partway⟩ := between.stored
  have later : log.Later env.crc session.limit (Log.ofFiles files) := by
    refine .inl ⟨records, ?_⟩
    rw [Log.files_ofFiles]
    exact partway.upper
  obtain ⟨keys', resting⟩ := live.resting.front stored partway.begins
    ((between.others _ (.inr fun _ same => by cases same)).trans noHint)
    ((between.others _ (.inr fun _ same => by cases same)).trans noMerged)
    (between.levels.trans_le levels)
  exact ⟨Log.ofFiles files, keys', later, resting⟩

section

variable (live : Live env session log keys)

include live

theorem Live.reliable : session.world.script = [] :=
  live.holds.attached.reliable

theorem Live.serves : Serves env session log keys.live :=
  live.holds.serves live.resting.readable.whole

theorem Live.unchanged {answered : Bool} : Served env session log (answered, session) where
  live _ := ⟨log, keys, .refl _ _ _, live⟩
  reliable := live.reliable
  disks := (Passes.refl _ _).of_passed ⟨log, keys, .refl _ _ _, live.resting⟩

theorem Live.resting_of_frame {log' : Log} (attached : Attached env reached log')
    (frame : CallFrame (session.withTxnId txnId) reached) (readable : log'.Readable env.crc)
    (replayed : Journal.replay .empty (log'.entries env.crc) = some keys')
    (blocks : Journal.Blocks (log'.entries env.crc)) :
    Resting env.crc reached.world.fs log' keys' := by
  have stored := attached.stored
  rw [show reached.db.options = session.db.options from frame.options, live.top] at stored
  have outside (name : FileName) (noData : ∀ fileId, name ≠ .data fileId) :
      reached.world.fs.content? ⟨0, name⟩ = session.world.fs.content? ⟨0, name⟩ :=
    frame.others _ (.inr noData)
  refine ⟨stored, attached.started, readable, replayed, blocks, ?_, ?_, ?_⟩
  · exact (outside _ fun _ same => by cases same).trans live.resting.noHint
  · exact (outside _ fun _ same => by cases same).trans live.resting.noMerged
  · rw [frame.levels]
    exact live.resting.levels

theorem Live.of_frame {log' : Log} (journaled : Journaled env reached log' keys')
    (frame : CallFrame (session.withTxnId txnId) reached) (small : txnId.toNat < 2 ^ 28)
    (whole : log'.Whole env.crc) : Live env reached log' keys' := by
  have options : reached.db.options = session.db.options := frame.options
  refine ⟨journaled, live.resting_of_frame journaled.holds.attached frame
    ⟨whole, journaled.tagged⟩ journaled.holds.replayed journaled.blocks, ?_, ?_, ?_, ?_, ?_⟩
  · rw [frame.txnId]
    exact small
  · exact fun fileId null => live.noNull fileId (frame.nulls fileId null)
  · rw [options]
    exact live.top
  · rw [options]
    exact live.valid
  · rw [frame.isMerging]
    exact live.idle

theorem Live.wrote (wrote : Wrote env session log records txnId reached keys')
    (small : txnId.toNat < 2 ^ 28) (whole : reached.world.WholeWrites) :
    Live env reached (log.appendAll env.crc session.limit records) keys' :=
  live.of_frame wrote.journaled wrote.stored.frame small
    (live.resting.readable.whole.of_records rfl (wrote.storable whole))

theorem Live.served_write (wrote : Wrote env session log records txnId reached keys')
    (small : txnId.toNat < 2 ^ 28) (whole : reached.world.WholeWrites) :
    Served env session log (true, reached) := by
  have after := live.wrote wrote small whole
  have later : log.Later env.crc session.limit
    (log.appendAll env.crc session.limit records) := .inl ⟨records, .refl _⟩
  refine ⟨fun _ => ⟨_, keys', later, after⟩, after.reliable, ?_⟩
  have passes := wrote.stored.passes
  rw [Session.withTxnId_options, live.top] at passes
  refine (passes.mono fun disk between => ?_).of_passed
    ⟨_, _, later, after.resting⟩
  exact after.between live.resting.noHint live.resting.noMerged live.resting.levels between

end

theorem run_commit_large (env : Platform) (batch : WriteBatch)
    (small : session.db.txnId.toNat < 2 ^ 28) (large : 2 ^ 28 ≤ session.db.txnId.toNat + 1) :
    ∃ outcome reached, (WriteBatch.commit env).run ⟨batch, session⟩ = (outcome, reached) ∧
      (returned outcome = true → reached.session = session) ∧
      reached.session.world = session.world := by
  have next : ¬ (session.db.txnId + 1).toNat < 2 ^ 28 := by
    rw [toNat_succ small]
    omega
  rcases run_commit_cases env ⟨batch, session⟩ with ⟨outcome, ran, _⟩ | ran
  · exact ⟨outcome, _, ran, fun _ => rfl, rfl⟩
  · exact ⟨_, _, ran.trans (run_commitPending_large env ⟨batch, session⟩ _ next),
      fun impossible => (by cases impossible), rfl⟩

end Serve

section Serve

variable {env : Platform} {session reached : Session} {log : Log} {keys : KeyState}
  {last : FileLog} {outcome : Except Stop Status}

theorem Live.run_mergeDb (live : Live env session log keys) :
    (log.active = none ∧ (mergeDb env).run session = (.ok .ok, session)) ∨
      ∃ last outcome reached, log.active = some last ∧
        (mergeDb env).run session = (outcome, reached) ∧
        Merges env session log last outcome reached := by
  cases active : log.active with
  | none =>
    have unstarted := live.holds.attached.active
    rw [active] at unstarted
    exact .inl ⟨rfl, run_merge_unstarted unstarted⟩
  | some last =>
    obtain ⟨outcome, reached, ran, merges⟩ := live.holds.attached.run_mergeDb active
      live.resting.readable live.idle live.valid
      (by rw [Session.level, live.top]; exact live.resting.levels)
    exact .inr ⟨last, outcome, reached, rfl, ran, merges⟩

theorem Resting.mergeDisk {crc : Crc32c} {fs disk : Fs} {limit : Nat} {picked : List Located}
    (resting : Resting crc fs log keys) (active : log.active = some last)
    (merging : MergeDisk crc 0 limit fs log last picked disk) :
    ∃ log', (log' = log ∨ log' = log.rotated last) ∧ Resting crc disk log' keys := by
  have noHint : disk.content? ⟨0, .hintIndex⟩ = none :=
    (merging.others _ Nat.zero_ne_one (.inr fun _ same => by cases same)).trans resting.noHint
  have noMerged : disk.content? ⟨0, .merged⟩ = none :=
    (merging.others _ Nat.zero_ne_one (.inr fun _ same => by cases same)).trans resting.noMerged
  rcases merging.stored with same | rotated
  · exact ⟨log, .inl rfl, resting.relocated same resting.started rfl noHint noMerged merging.levels⟩
  · exact ⟨_, .inr rfl, resting.relocated rotated (fun missing => by cases missing)
      (Log.records_rotated active crc) noHint noMerged merging.levels⟩

variable (live : Live env session log keys)

include live

theorem Live.merged_resting (active : log.active = some last)
    (merges : Merges env session log last outcome reached) :
    Resting env.crc reached.world.fs (log.rotated last) keys := by
  have merging := merges.disk
  have stored := merges.attached.stored
  rw [live.top] at merging
  rw [merges.options, live.top] at stored
  refine live.resting.relocated stored (fun missing => by cases missing)
    (Log.records_rotated active env.crc) ?_ ?_ merging.levels
  · exact (merging.others _ Nat.zero_ne_one (.inr fun _ same => by cases same)).trans
      live.resting.noHint
  · exact (merging.others _ Nat.zero_ne_one (.inr fun _ same => by cases same)).trans
      live.resting.noMerged

theorem Live.merged (active : log.active = some last)
    (merges : Merges env session log last outcome reached) (answered : returned outcome = true) :
    Live env reached (log.rotated last) keys := by
  have resting := live.merged_resting active merges
  have records := Log.records_rotated active env.crc
  refine ⟨⟨⟨merges.attached, resting.replayed, ?_⟩, ?_, ?_, resting.blocks⟩, resting, ?_, ?_, ?_, ?_,
    merges.idle answered⟩
  · rw [merges.index]
    exact live.holds.index
  · rw [records]
    exact live.tagged
  · rw [records, merges.txnId]
    exact live.bounded
  · rw [merges.txnId]
    exact live.small
  · exact fun fileId null => live.noNull fileId (merges.nulls fileId null)
  · rw [merges.options]
    exact live.top
  · rw [merges.options]
    exact live.valid

theorem Live.merge_disks :
    ∀ disk ∈ session.world.passed ((mergeDb env).run session).2.world, ∃ log',
      (log' = log ∨ ∃ last, log.active = some last ∧ log' = log.rotated last) ∧
        Resting env.crc disk log' keys := by
  rcases live.run_mergeDb with ⟨_, ran⟩ | ⟨last, outcome, reached, active, ran, merges⟩
  · rw [ran]
    exact (Passes.refl _ _).of_passed ⟨log, .inl rfl, live.resting⟩
  · rw [ran]
    have passes := merges.passes
    rw [live.top] at passes
    refine (passes.mono fun disk merging => ?_).of_passed
      ⟨_, .inr ⟨last, active, rfl⟩, live.merged_resting active merges⟩
    obtain ⟨log', same | rotated, resting⟩ := live.resting.mergeDisk active merging
    · exact ⟨log', .inl same, resting⟩
    · exact ⟨log', .inr ⟨last, active, rotated⟩, resting⟩

theorem Live.served_merge : Served env session log (answer ((mergeDb env).run session)) := by
  refine ⟨?_, ?_, fun disk passed => ?_⟩
  · rcases live.run_mergeDb with ⟨_, ran⟩ | ⟨last, outcome, reached, active, ran, merges⟩
    · rw [ran]
      exact fun _ => ⟨log, keys, .refl _ _ _, live⟩
    · rw [ran]
      exact fun answered => ⟨_, keys, .inr ⟨last, active, rfl⟩, live.merged active merges answered⟩
  · rcases live.run_mergeDb with ⟨_, ran⟩ | ⟨_, _, _, _, ran, merges⟩
    · rw [ran]
      exact live.reliable
    · rw [ran]
      exact merges.attached.reliable
  · obtain ⟨log', rfl | rotated, resting⟩ := live.merge_disks disk passed
    · exact ⟨_, keys, .refl _ _ _, resting⟩
    · exact ⟨log', keys, .inr rotated, resting⟩

variable (live : Live env session log keys)

include live

theorem Live.run_get (key : Bytes) :
    ∃ outcome, (get env key true).run session = (outcome, session) ∧ returned outcome = true := by
  cases empty : key.empty with
  | true =>
    refine ⟨.error (.failed (.invalidArgument "DB::Get" "key is empty")), ?_, rfl⟩
    simp only [get, empty, ↓reduceIte]
    rfl
  | false =>
    have ran := live.holds.run_get live.resting.readable.whole empty
    split at ran
    · exact ⟨_, ran, rfl⟩
    · exact ⟨_, ran, rfl⟩

theorem Live.run_sync : ∃ outcome, sync.run session = (outcome, session) := by
  cases active : session.db.activeFile with
  | none =>
    refine ⟨.error (.faulted .nullPointer), ?_⟩
    rw [sync, Program.run_bind_error (run_derefActive_none active)]
  | some file =>
    refine ⟨.ok .ok, ?_⟩
    rw [sync, Program.run_bind_ok (run_derefActive active),
      run_io_bind (DataFile.run_sync live.reliable)]
    rfl

theorem Live.served (request : Request) (fresh : ∀ batch, request = .commit batch → batch.Fresh)
    (whole : (request.run env session).2.world.WholeWrites) :
    Served env session log (request.run env session) := by
  cases request with
  | put key value =>
    obtain ⟨outcome, reached, records, keys', ran, answered, wrote⟩ := live.run_put key value
    simp only [Request.run, answer, ran, answered] at whole ⊢
    exact live.served_write wrote live.small whole
  | get key =>
    obtain ⟨outcome, ran, answered⟩ := live.run_get key
    simp only [Request.run, answer, ran]
    exact live.unchanged
  | delete key =>
    obtain ⟨outcome, reached, records, keys', ran, answered, wrote⟩ := live.run_delete key
    simp only [Request.run, answer, ran, answered] at whole ⊢
    exact live.served_write wrote live.small whole
  | commit batch =>
    by_cases small : session.db.txnId.toNat + 1 < 2 ^ 28
    · obtain ⟨outcome, reached, txnId, records, keys', ran, answered, next, wrote⟩ :=
        live.run_commit batch (fresh batch rfl) small
      simp only [Request.run, ran, answered] at whole ⊢
      exact live.served_write wrote (Nat.lt_of_le_of_lt next small) whole
    · obtain ⟨outcome, reached, ran, unchanged, world⟩ :=
        run_commit_large env batch live.small (Nat.not_lt.mp small)
      simp only [Request.run, ran]
      refine ⟨fun answered => ⟨log, keys, .refl _ _ _, ?_⟩, ?_, ?_⟩
      · rw [unchanged answered]
        exact live
      · rw [world]
        exact live.reliable
      · rw [world]
        exact (Passes.refl _ _).of_passed ⟨log, keys, .refl _ _ _, live.resting⟩
  | sync =>
    obtain ⟨outcome, ran⟩ := live.run_sync
    simp only [Request.run, answer, ran]
    exact live.unchanged
  | merge => exact live.served_merge

end Serve

section Open

variable {env : Platform} {world : World} {options : Options} {log : Log} {keys : KeyState}

section

variable {cleared : World} (clears : Clears env world cleared)

include clears

theorem Clears.resting (resting : Resting env.crc world.fs log keys) :
    Resting env.crc cleared.fs log keys :=
  resting.of_same (Nat.le_of_eq clears.levels.symm) (by rw [clears.levels]; exact Nat.le_succ 1)
    fun _ => clears.others _ Nat.zero_ne_one

theorem Clears.plain (resting : Resting env.crc world.fs log keys) : PlainDir cleared.fs 0 := by
  refine ⟨?_, (clears.resting resting).noHint, (clears.resting resting).noMerged⟩
  rw [← Option.not_isSome_iff_eq_none, Fs.dir?_isSome_iff, clears.levels]
  exact Nat.lt_irrefl _

theorem Clears.disks (resting : Resting env.crc world.fs log keys) :
    Passes (fun disk => Resting env.crc disk log keys) world cleared :=
  clears.passes.mono fun _ thinned => resting.thinned thinned

end

theorem Loaded.live {session : Session} (loaded : Loaded env world options log keys session)
    (resting : Resting env.crc world.fs log keys) (valid : checkOptions options = .ok ())
    (top : options.dirPath.level = 0) : Live env session log keys := by
  refine ⟨⟨loaded.holds, resting.readable.tagged, ?_, resting.blocks⟩, ?_, ?_, loaded.noNull, ?_, ?_,
    loaded.idle⟩
  · rw [loaded.txnId]
    exact (le_maxTxnId _ _).2
  · rw [loaded.world]
    exact resting
  · rw [loaded.txnId]
    refine Nat.lt_of_le_sub_one (by decide) (maxTxnId_le (Nat.zero_le _) ?_)
    intro found member
    obtain ⟨key, txnId, tagged⟩ := resting.readable.tagged found member
    rw [show Located.txnId found = txnId from tagged.txnId_eq found.1]
    exact Nat.le_sub_one_of_lt tagged.small
  · rw [loaded.options]
    exact top
  · rw [loaded.options]
    exact valid

section

variable (resting : Resting env.crc world.fs log keys)

include resting

theorem Resting.run_openDb_full (reliable : world.script = []) (unmarked : ¬ world.fs.Marked)
    (full : ∀ file ∈ log.files, file.records ≠ []) (top : options.dirPath.level = 0)
    (valid : checkOptions options = .ok ()) :
    ∃ db cleared, Clears env world cleared ∧ Live env ⟨db, cleared⟩ log keys ∧
      db.options = options ∧
      (openDb env options false).run world = (.ok db, cleared) ∧
      ∀ outcome reached, (mergeDb env).run ⟨db, cleared⟩ = (outcome, reached) →
        (openDb env options true).run world = (outcome.map fun _ => reached.db, reached.world) := by
  obtain ⟨cleared, clears⟩ := exists_clears env reliable resting.outer resting.levels unmarked
  have rested := clears.resting resting
  have plain := clears.plain resting
  have stored := rested.stored
  rw [← top] at plain stored
  have loading := run_loadAll log clears.reliable plain stored rested.started (rested.loadable full)
  rw [rested.replayed] at loading
  obtain ⟨session, ran, loaded⟩ := loading
  obtain ⟨db, last⟩ := session
  obtain rfl : last = cleared := loaded.world
  have there := run_checkOrCreateDirectory_there stored.present
  refine ⟨db, last, clears, loaded.live rested valid top, loaded.options, ?_, ?_⟩
  · have body : (openBody env 1 false).run ⟨DB.new options, last⟩ = (.ok (), ⟨db, last⟩) :=
      run_bind_ok ran
    rw [openDb, clears.same 1 options false top valid, run_openDepth valid there,
      run_bind_ok (run_onDb body)]
    rfl
  · intro outcome reached merging
    rw [openDb, clears.same 1 options true top valid, run_openDepth valid there]
    cases outcome with
    | ok status =>
      have body : (openBody env 1 true).run ⟨DB.new options, last⟩ = (.ok (), reached) :=
        (run_bind_ok ran).trans (run_bind_ok merging)
      rw [run_bind_ok (run_onDb body)]
      rfl
    | error stop =>
      have body : (openBody env 1 true).run ⟨DB.new options, last⟩ = (.error stop, reached) :=
        (run_bind_ok ran).trans (run_bind_error merging)
      exact run_bind_error (run_onDb_error body)

theorem Resting.run_openDb_emptyFile (reliable : world.script = []) (unmarked : ¬ world.fs.Marked)
    (empty : ∃ file ∈ log.files, file.records = []) (top : options.dirPath.level = 0)
    (valid : checkOptions options = .ok ()) (mergeAfterOpen : Bool) :
    ∃ status cleared, Clears env world cleared ∧
      (openDb env options mergeAfterOpen).run world = (.error (.failed status), cleared) := by
  obtain ⟨cleared, clears⟩ := exists_clears env reliable resting.outer resting.levels unmarked
  have rested := clears.resting resting
  have plain := clears.plain resting
  have stored := rested.stored
  rw [← top] at plain stored
  obtain ⟨status, session, failed, same⟩ := run_loadAll_emptyFile log clears.reliable plain stored
    rested.started rested.readable.files empty
  refine ⟨status, cleared, clears, ?_⟩
  rw [openDb, clears.same 1 options mergeAfterOpen top valid,
    run_openDepth_failed mergeAfterOpen valid stored.present failed, same]

theorem Resting.reopens {other : Session} {log' : Log} {live : List Byte → Option Slot}
    (reliable : world.script = []) (unmarked : ¬ world.fs.Marked)
    (serves : Serves env other log' live) (agree : (contentsOf live).Agree (contentsOf keys.live))
    (top : options.dirPath.level = 0) (valid : checkOptions options = .ok ()) :
    (∃ db opened, (openDb env options false).run world = (.ok db, opened) ∧
      ∀ key, ((get env key true).run ⟨db, opened⟩).1 = ((get env key true).run other).1) ↔
      NoEmptyDataFile world.fs 0 := by
  rw [resting.noEmptyDataFile_iff]
  constructor
  · rintro ⟨db, opened, ran, _⟩
    by_contra full
    have empty : ∃ file ∈ log.files, file.records = [] := by simpa using full
    obtain ⟨status, cleared, _, failed⟩ := resting.run_openDb_emptyFile reliable unmarked empty top
      valid false
    rw [failed] at ran
    cases ran
  · intro full
    obtain ⟨db, cleared, _, still, _, ran, _⟩ := resting.run_openDb_full reliable unmarked full top
      valid
    exact ⟨db, cleared, ran, (still.serves.same_gets_iff serves).mpr fun key nulFree =>
      (agree key nulFree).symm⟩

end

def Log.Follows (log log' : Log) : Prop :=
  log' = log ∨ ∃ last, log.active = some last ∧ log' = log.rotated last

theorem Log.Follows.later {log' : Log} (follows : log.Follows log') (crc : Crc32c) (limit : Nat) :
    log.Later crc limit log' := by
  rcases follows with rfl | rotated
  · exact .refl _ _ _
  · exact .inr rotated

structure Opens (env : Platform) (world : World) (log : Log) (keys : KeyState)
    (result : Except Stop DB × World) : Prop where
  live : ∀ db, result.1 = .ok db → ∃ log', log.Follows log' ∧ Live env ⟨db, result.2⟩ log' keys
  reliable : result.2.script = []
  disks : ∀ disk ∈ world.passed result.2, ∃ log', log.Follows log' ∧ Resting env.crc disk log' keys

theorem Resting.opens (resting : Resting env.crc world.fs log keys) (reliable : world.script = [])
    (unmarked : ¬ world.fs.Marked) (top : options.dirPath.level = 0) (mergeAfterOpen : Bool) :
    Opens env world log keys ((openDb env options mergeAfterOpen).run world) := by
  cases checked : checkOptions options with
  | error stop =>
    have refused : (openDb env options mergeAfterOpen).run world = (.error stop, world) := by
      rw [openDb, openDepth, checked, run_ofExcept_error_bind]
    rw [refused]
    exact ⟨fun _ impossible => (by cases impossible), reliable,
      (Passes.refl _ _).of_passed ⟨log, .inl rfl, resting⟩⟩
  | ok value =>
    by_cases empty : ∃ file ∈ log.files, file.records = []
    · obtain ⟨status, cleared, clears, ran⟩ := resting.run_openDb_emptyFile reliable unmarked
        empty top checked mergeAfterOpen
      rw [ran]
      exact ⟨fun _ impossible => (by cases impossible), clears.reliable,
        (clears.disks resting |>.mono fun _ rests => ⟨log, .inl rfl, rests⟩).of_passed
          ⟨log, .inl rfl, clears.resting resting⟩⟩
    · have full : ∀ file ∈ log.files, file.records ≠ [] := fun file member none =>
        empty ⟨file, member, none⟩
      obtain ⟨db, cleared, clears, live, _, plainly, merging⟩ :=
        resting.run_openDb_full reliable unmarked full top checked
      have before := (clears.disks resting).mono fun disk rests =>
        (⟨log, .inl rfl, rests⟩ : ∃ log', log.Follows log' ∧ Resting env.crc disk log' keys)
      cases mergeAfterOpen with
      | false =>
        rw [plainly]
        refine ⟨fun other same => ⟨log, .inl rfl, ?_⟩, clears.reliable,
          before.of_passed ⟨log, .inl rfl, live.resting⟩⟩
        cases same
        exact live
      | true =>
        rcases live.run_mergeDb with ⟨_, ran⟩ | ⟨last, outcome, reached, active, ran, merges⟩
        · rw [merging _ _ ran]
          refine ⟨fun other same => ⟨log, .inl rfl, ?_⟩, clears.reliable,
            before.of_passed ⟨log, .inl rfl, live.resting⟩⟩
          cases same
          exact live
        · rw [merging _ _ ran]
          refine ⟨?_, merges.attached.reliable, ?_⟩
          · intro other same
            cases outcome with
            | error stop => cases same
            | ok status =>
              cases same
              exact ⟨_, .inr ⟨last, active, rfl⟩, live.merged active merges rfl⟩
          · have passes := merges.passes
            rw [live.top] at passes
            refine (before.trans (passes.mono fun disk merging => ?_)).of_passed
              ⟨_, .inr ⟨last, active, rfl⟩, live.merged_resting active merges⟩
            obtain ⟨log', follows, rests⟩ := live.resting.mergeDisk active merging
            rcases follows with rfl | rfl
            · exact ⟨_, .inl rfl, rests⟩
            · exact ⟨_, .inr ⟨last, active, rfl⟩, rests⟩

end Open

def Process.Sound (env : Platform) : Process → Prop
  | .closed world => world.script = [] ∧ ∃ log keys, Resting env.crc world.fs log keys
  | .running session => ∃ log keys, Live env session log keys

def Process.Logged (env : Platform) (log : Log) (keys : KeyState) : Process → Prop
  | .closed world => world.script = [] ∧ Resting env.crc world.fs log keys
  | .running session => Live env session log keys

variable {env : Platform} {process : Process}

theorem Process.sound_iff : process.Sound env ↔ ∃ log keys, process.Logged env log keys := by
  cases process with
  | closed world => exact ⟨fun ⟨reliable, log, keys, resting⟩ => ⟨log, keys, reliable, resting⟩,
      fun ⟨log, keys, reliable, resting⟩ => ⟨reliable, log, keys, resting⟩⟩
  | running session => exact Iff.rfl

theorem Process.Logged.step {reached : Process} {act : Act} {log : Log} {keys : KeyState}
    (logged : process.Logged env log keys) (stepped : act.CleanStep env process reached)
    (limit : Nat) :
    ∃ log' keys', log.Later env.crc (process.dataFileSize limit) log' ∧
      reached.Logged env log' keys' := by
  obtain ⟨step, clean⟩ := stepped
  cases step with
  | @opened world reached options mergeAfterOpen db top ran =>
    obtain ⟨reliable, resting⟩ := logged
    have opens := resting.opens reliable (clean.unmarked _ _ rfl) top mergeAfterOpen
    rw [ran] at opens
    obtain ⟨log', follows, live⟩ := opens.live _ rfl
    exact ⟨log', keys, follows.later _ _, live⟩
  | @notOpened world reached options mergeAfterOpen stop top ran =>
    obtain ⟨reliable, resting⟩ := logged
    have opens := resting.opens reliable (clean.unmarked _ _ rfl) top mergeAfterOpen
    rw [ran] at opens
    obtain ⟨log', follows, rests⟩ :=
      opens.disks _ (List.mem_append_right _ (List.mem_singleton_self _))
    exact ⟨log', keys, follows.later _ _, opens.reliable, rests⟩
  | @openStopped world options mergeAfterOpen disk top passed =>
    obtain ⟨reliable, resting⟩ := logged
    have opens := resting.opens reliable (clean.unmarked _ _ rfl) top mergeAfterOpen
    obtain ⟨log', follows, rests⟩ := opens.disks _ passed
    exact ⟨log', keys, follows.later _ _, opens.reliable, rests⟩
  | @answered session reached request ran =>
    have served := Live.served logged request
      (fun batch same => clean.fresh batch (by rw [same])) (by rw [ran]; exact clean.whole)
    rw [ran] at served
    exact served.live rfl
  | @ended session reached request ran =>
    have served := Live.served logged request
      (fun batch same => clean.fresh batch (by rw [same])) (by rw [ran]; exact clean.whole)
    rw [ran] at served
    obtain ⟨log', keys', later, rests⟩ :=
      served.disks _ (List.mem_append_right _ (List.mem_singleton_self _))
    exact ⟨log', keys', later, served.reliable, rests⟩
  | @callStopped session request disk passed =>
    have served := Live.served logged request
      (fun batch same => clean.fresh batch (by rw [same])) clean.whole
    obtain ⟨log', keys', later, rests⟩ := served.disks _ passed
    exact ⟨log', keys', later, served.reliable, rests⟩
  | closed => exact ⟨log, keys, .refl _ _ _, Live.reliable logged, Live.resting logged⟩

theorem Process.Sound.step {reached : Process} {act : Act} (sound : process.Sound env)
    (stepped : act.CleanStep env process reached) : reached.Sound env := by
  obtain ⟨log, keys, logged⟩ := Process.sound_iff.mp sound
  obtain ⟨log', keys', _, after⟩ := logged.step stepped 0
  exact Process.sound_iff.mpr ⟨log', keys', after⟩

theorem EmptyDir.resting {world : World} (empty : EmptyDir world) (crc : Crc32c) :
    Resting crc world.fs .empty .empty where
  stored := empty.stored crc
  started := fun _ => rfl
  readable := ⟨fun _ member => (by cases member), fun _ member => (by cases member)⟩
  replayed := rfl
  blocks := .nil
  noHint := empty.plain.noHint
  noMerged := empty.plain.noMerged
  levels := by simp [empty.dirs]

theorem sound_of_run {world : World} {acts : List Act} (empty : EmptyDir world)
    (run : Run (Act.CleanStep env) (.closed world) acts process) : process.Sound env :=
  Run.invariant (fun _ process => process.Sound env)
    (fun _ _ _ _ sound stepped => sound.step stepped) []
    ⟨empty.reliable, .empty, .empty, empty.resting env.crc⟩ run

end Bitdb
