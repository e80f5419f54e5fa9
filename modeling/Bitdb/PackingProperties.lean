import Bitdb.Base.NextFit
import Bitdb.MergeOutputProperties
import Mathlib.Data.List.Induction

/-! How many files a merge needs: the live records of one data file open at most one new file in the
mergence directory. -/

set_option autoImplicit false

namespace Bitdb

open Base NextFit List

/-- The file keeps to the limit or holds a single record, which did not fit the first file. -/
def FileLog.Packed (crc : Crc32c) (limit : Nat) (file : FileLog) : Prop :=
  file.size crc ≤ limit ∨ file.records.length = 1 ∧ file.fileId ≠ 0

def Log.Packed (crc : Crc32c) (limit : Nat) (log : Log) : Prop :=
  ∀ file ∈ log.files, file.Packed crc limit

section Packed

variable {crc : Crc32c} {limit bound : Nat} {log : Log}

theorem FileLog.packed_empty (crc : Crc32c) (limit fileId : Nat) :
    FileLog.Packed crc limit ⟨fileId, []⟩ := .inl (Nat.zero_le _)

theorem FileLog.Packed.mono {file : FileLog} (packed : file.Packed crc limit)
    (more : limit ≤ bound) : file.Packed crc bound :=
  packed.imp_left fun fits => fits.trans more

theorem FileLog.Packed.front {file whole : FileLog} (packed : whole.Packed crc limit)
    (same : whole.fileId = file.fileId) (begins : file.records <+: whole.records) :
    file.Packed crc limit := by
  obtain ⟨back, split⟩ := begins
  rcases packed with fits | ⟨single, other⟩
  · refine .inl (Nat.le_trans ?_ fits)
    rw [FileLog.size, FileLog.size, ← split, logBytes_append, length_append]
    exact Nat.le_add_right _ _
  · cases records : file.records with
    | nil =>
      refine .inl ?_
      rw [FileLog.size, records]
      exact Nat.zero_le _
    | cons record rest =>
      refine .inr ⟨?_, same ▸ other⟩
      rw [← split, records, length_append, length_cons] at single
      rw [records, length_cons]
      omega

theorem Log.Packed.mono (packed : log.Packed crc limit) (more : limit ≤ bound) :
    log.Packed crc bound := fun file member => (packed file member).mono more

theorem Log.packed_empty (crc : Crc32c) (limit : Nat) : Log.empty.Packed crc limit := by
  rintro _ ⟨⟩

theorem Log.Packed.current (packed : log.Packed crc limit) : log.current.Packed crc limit := by
  cases active : log.active with
  | none =>
    rw [Log.current, active]
    exact FileLog.packed_empty crc limit 0
  | some file =>
    rw [Log.current, active]
    exact packed file (Log.mem_files_active active)

theorem Log.Packed.rotated {last : FileLog} (packed : log.Packed crc limit)
    (active : log.active = some last) : (log.rotated last).Packed crc limit := by
  intro file member
  rw [Log.files_rotated active] at member
  rcases mem_append.mp member with inside | newest
  · exact packed file inside
  · rw [mem_singleton.mp newest]
    exact FileLog.packed_empty _ _ _

theorem Log.Packed.append (packed : log.Packed crc bound) (less : limit ≤ bound)
    (record : LogRecord) : (log.append crc limit record).Packed crc bound := by
  have older : ∀ file ∈ log.older, file.Packed crc bound := fun file member =>
    packed file (mem_append_left _ member)
  rw [Log.append]
  split
  case isTrue fits =>
      intro file member
      rcases mem_append.mp member with inside | newest
      · exact older file inside
      · rw [Option.mem_toList.mp newest |> Option.some.inj |>.symm]
        refine .inl (Nat.le_trans ?_ (Nat.le_trans fits less))
        rw [FileLog.size, logBytes_append, length_append]
        refine Nat.add_le_add_left ?_ _
        rw [logBytes_cons, logBytes_nil, append_nil, writtenBytes, length_take]
        exact Nat.min_le_right _ _
  case isFalse =>
      intro file member
      rcases mem_append.mp member with inside | newest
      · rcases mem_append.mp inside with before | last
        · exact older file before
        · rw [mem_singleton.mp last]
          exact packed.current
      · rw [Option.mem_toList.mp newest |> Option.some.inj |>.symm]
        exact .inr ⟨rfl, Nat.succ_ne_zero _⟩

theorem Log.Packed.appendAll (packed : log.Packed crc bound) (less : limit ≤ bound)
    (records : List LogRecord) : (log.appendAll crc limit records).Packed crc bound := by
  induction records generalizing log with
  | nil => exact packed
  | cons record records ih => exact ih (packed.append less record)

end Packed

section Bins

variable {crc : Crc32c} {limit : Nat} {log : Log}

def Log.bin (crc : Crc32c) (log : Log) : Bin := ⟨log.current.fileId, log.current.size crc⟩

theorem Log.bin_append {record : LogRecord} (storable : record.Storable crc) :
    (log.append crc limit record).bin crc =
      (log.bin crc).place limit (encodeLogRecord crc record).length := by
  have written (front : List LogRecord) : (logBytes crc (front ++ [record])).length =
      (logBytes crc front).length + (encodeLogRecord crc record).length := by
    rw [logBytes_append, length_append, logBytes_cons, logBytes_nil, append_nil,
      storable.writtenBytes_eq]
  rw [Log.append, Bin.place]
  split
  case isTrue fits =>
      rw [if_pos (show (log.bin crc).used + _ ≤ limit from fits)]
      exact congrArg (Bin.mk _) (written _)
  case isFalse full =>
      rw [if_neg (show ¬ (log.bin crc).used + _ ≤ limit from full)]
      exact congrArg (Bin.mk _) ((written []).trans (Nat.zero_add _))

theorem Log.bin_appendAll {records : List LogRecord}
    (storable : ∀ record ∈ records, record.Storable crc) :
    (log.appendAll crc limit records).bin crc =
      (log.bin crc).pack limit (records.map fun record => (encodeLogRecord crc record).length) := by
  induction records generalizing log with
  | nil => rfl
  | cons record records ih =>
    rw [Log.appendAll, foldl_cons, ← Log.appendAll,
      ih fun other member => storable other (mem_cons_of_mem _ member),
      Log.bin_append (storable record mem_cons_self)]
    rfl

theorem Log.fileId_le_current {records : List LogRecord}
    (before : ∀ file ∈ log.files, file.fileId ≤ log.current.fileId) :
    ∀ file ∈ (log.appendAll crc limit records).files,
      file.fileId ≤ (log.appendAll crc limit records).current.fileId := by
  induction records generalizing log with
  | nil => exact before
  | cons record records ih =>
    refine ih fun file member => ?_
    rw [Log.append] at member ⊢
    split
    case isTrue fits =>
        rw [if_pos fits] at member
        rcases mem_append.mp member with inside | newest
        · exact before file (mem_append_left _ inside)
        · rw [Option.mem_toList.mp newest |> Option.some.inj |>.symm]
          exact Nat.le_refl _
    case isFalse full =>
        rw [if_neg full] at member
        have next : log.current.fileId ≤ log.current.fileId + 1 := Nat.le_succ _
        rcases mem_append.mp member with inside | newest
        · rcases mem_append.mp inside with older | last
          · exact (before file (mem_append_left _ older)).trans next
          · rw [mem_singleton.mp last]
            exact next
        · rw [Option.mem_toList.mp newest |> Option.some.inj |>.symm]
          exact Nat.le_refl _

theorem FileLog.Packed.group {file : FileLog} (packed : file.Packed crc limit)
    (readable : file.Readable crc) (index : Indexer) :
    Group limit ((index.liveRecords (file.located crc)).map fun found =>
        (encodeLogRecord crc found.copy).length) ∧
      (file.fileId = 0 → ((index.liveRecords (file.located crc)).map fun found =>
        (encodeLogRecord crc found.copy).length).sum ≤ limit) := by
  have total : ((index.liveRecords (file.located crc)).map fun found =>
      (encodeLogRecord crc found.copy).length).sum ≤ file.size crc := by
    calc ((index.liveRecords (file.located crc)).map fun found =>
          (encodeLogRecord crc found.copy).length).sum
        ≤ ((file.located crc).map fun found => (encodeLogRecord crc found.copy).length).sum :=
          (filter_sublist.map _).sum_le_sum fun _ _ => Nat.zero_le _
      _ ≤ ((file.located crc).map fun found => (encodeLogRecord crc found.2).length).sum :=
          sum_le_sum fun found member => by
            have inside : found.2 ∈ file.records := by
              rw [← located_records crc file.fileId 0 file.records]
              exact mem_map_of_mem member
            obtain ⟨key, txnId, tagged⟩ := readable.tagged found.2 inside
            exact tagged.copy_length_le (readable.storable found.2 inside)
      _ = file.size crc := by
          have records := located_records crc file.fileId 0 file.records
          rw [FileLog.size, logBytes_eq_fileBytes readable.storable, fileBytes, length_flatMap]
          conv => rhs; rw [← records, map_map]
          rfl
  rcases packed with fits | ⟨single, other⟩
  · exact ⟨.inl (total.trans fits), fun _ => total.trans fits⟩
  · refine ⟨.inr ?_, fun first => absurd first other⟩
    rw [length_map]
    refine (length_filter_le _ _).trans ?_
    rw [FileLog.located, located_length, single]

theorem Indexer.liveRecords_concat (index : Indexer) (crc : Crc32c) (files : List FileLog)
    (file : FileLog) : index.liveRecords ((files ++ [file]).flatMap (·.located crc)) =
      index.liveRecords (files.flatMap (·.located crc)) ++
        index.liveRecords (file.located crc) := by
  rw [flatMap_append, flatMap_singleton]
  exact filter_append ..

theorem mergedLog_number_le {files : List FileLog} (index : Indexer)
    (ascending : files.Pairwise fun left right => left.fileId < right.fileId)
    (readable : ∀ file ∈ files, file.Readable crc) (packed : ∀ file ∈ files, file.Packed crc limit)
    {last : Nat} (bounded : ∀ file ∈ files, file.fileId ≤ last) :
    ((mergedLog crc limit (index.liveRecords (files.flatMap (·.located crc)))).bin crc).number ≤
      last := by
  induction files using List.reverseRecOn generalizing last with
  | nil => exact Nat.zero_le _
  | append_singleton files file ih =>
    have storable : ∀ record ∈ (index.liveRecords (file.located crc)).map Located.copy,
        record.Storable crc := by
      intro record member
      obtain ⟨found, picked, rfl⟩ := mem_map.mp member
      have inside : found.2 ∈ file.records := by
        rw [← located_records crc file.fileId 0 file.records]
        exact mem_map_of_mem (mem_filter.mp picked).1
      have here := readable file (mem_append_right _ mem_cons_self)
      obtain ⟨key, txnId, tagged⟩ := here.tagged found.2 inside
      exact tagged.storable_copy (here.storable found.2 inside)
    obtain ⟨group, first⟩ := (packed file (mem_append_right _ mem_cons_self)).group
      (readable file (mem_append_right _ mem_cons_self)) index
    have split := index.liveRecords_concat crc files file
    have here := bounded file (mem_append_right _ mem_cons_self)
    rw [split, mergedLog_append, Log.bin_appendAll storable, map_map]
    have ids := pairwise_append.mp ascending
    by_cases zero : file.fileId = 0
    · -- The first file was never larger than the limit, and nothing is in front of it.
      have none : files = [] := by
        refine eq_nil_iff_forall_not_mem.mpr fun other member => ?_
        have less := ids.2.2 other member file mem_cons_self
        omega
      subst none
      have fits := Bin.pack_fits (show ((Log.empty.bin crc).used + _ ≤ limit) from
        (Nat.zero_add _).trans_le (first zero))
      exact (congrArg Bin.number fits).trans_le (Nat.zero_le _)
    · have before := ih ids.1 (fun other member => readable other (mem_append_left _ member))
        (fun other member => packed other (mem_append_left _ member))
        (fun other member => Nat.le_sub_one_of_lt (ids.2.2 other member file mem_cons_self))
      refine (Bin.number_pack_le group _).trans ?_
      omega

theorem mergedRecords_fid_le_number {picked : List Located} {placed : Located}
    (member : placed ∈ mergedRecords crc limit picked) :
    placed.1.fid ≤ ((mergedLog crc limit picked).bin crc).number := by
  rw [← records_mergedLog] at member
  obtain ⟨file, inside, here⟩ := mem_flatMap.mp member
  rw [fid_of_mem_located here]
  exact Log.fileId_le_current (by rintro _ ⟨⟩) file inside

theorem mergedRecords_fid_le {files : List FileLog} (index : Indexer)
    (ascending : files.Pairwise fun left right => left.fileId < right.fileId)
    (readable : ∀ file ∈ files, file.Readable crc)
    (packed : ∀ file ∈ files, file.Packed crc limit) {found placed : Located}
    (zipped : (found, placed) ∈ (index.liveRecords (files.flatMap (·.located crc))).zip
      (mergedRecords crc limit (index.liveRecords (files.flatMap (·.located crc))))) :
    placed.1.fid ≤ found.1.fid := by
  induction files using List.reverseRecOn with
  | nil => cases zipped
  | append_singleton files file ih =>
    have ids := pairwise_append.mp ascending
    have bounded : ∀ other ∈ files ++ [file], other.fileId ≤ file.fileId := by
      intro other member
      rcases mem_append.mp member with before | last
      · exact (ids.2.2 other before file mem_cons_self).le
      · rw [mem_singleton.mp last]
    have number := (mergedRecords_fid_le_number (of_mem_zip zipped).2).trans
      (mergedLog_number_le index ascending readable packed bounded)
    rw [index.liveRecords_concat crc files file, mergedRecords_append,
      zip_append (length_mergedRecords crc limit _).symm] at zipped
    rcases mem_append.mp zipped with before | here
    · exact ih ids.1 (fun other member => readable other (mem_append_left _ member))
        (fun other member => packed other (mem_append_left _ member)) before
    · have own := (mem_filter.mp (of_mem_zip here).1).1
      rw [fid_of_mem_located own]
      exact number

end Bins

section Bounded

variable {env : Platform} {log : Log} {keys : KeyState}

theorem Log.Packed.later {crc : Crc32c} {limit : Nat} {log log' : Log}
    (packed : log.Packed crc limit) (later : log.Later crc limit log') : log'.Packed crc limit := by
  rcases later with ⟨records, within⟩ | ⟨last, active, rfl⟩
  · intro file member
    obtain ⟨whole, inside, same, begins⟩ := within file member
    exact (packed.appendAll (Nat.le_refl _) records whole inside).front same begins
  · exact packed.rotated active

/-- The log keeps to the limit, which is that of the database if it is open. -/
structure Process.Tight (env : Platform) (state : Nat × Process) (log : Log) (keys : KeyState) :
    Prop where
  logged : state.2.Logged env log keys
  packed : log.Packed env.crc state.1
  limit : state.2.dataFileSize state.1 = state.1

theorem Process.Tight.step {state reached : Nat × Process} {act : Act}
    (tight : Process.Tight env state log keys) (stepped : act.GrowingStep env state reached) :
    ∃ log' keys', Process.Tight env reached log' keys' := by
  obtain ⟨log', keys', later, logged⟩ := tight.logged.step stepped.clean state.1
  rw [tight.limit] at later
  refine ⟨log', keys', logged, (tight.packed.later later).mono stepped.grows, ?_⟩
  obtain ⟨limit, process⟩ := reached
  cases process with
  | closed world => rfl
  | running session => exact stepped.limit.symm

theorem tight_of_run {world : World} {acts : List Act} {state : Nat × Process}
    (empty : EmptyDir world) (run : Run (Act.GrowingStep env) (0, .closed world) acts state) :
    ∃ log keys, Process.Tight env state log keys := by
  have start : Process.Tight env (0, .closed world) .empty .empty :=
    ⟨⟨empty.reliable, empty.resting env.crc⟩, Log.packed_empty _ _, rfl⟩
  refine Run.invariant (fun _ state => ∃ log keys, Process.Tight env state log keys) ?_ []
    ⟨.empty, .empty, start⟩ run
  rintro _ _ _ _ ⟨log, keys, tight⟩ stepped
  exact tight.step stepped

theorem Live.mergedLog_number_le {session : Session} {last : FileLog} {limit : Nat}
    (live : Live env session log keys) (active : log.active = some last)
    (packed : log.Packed env.crc limit) :
    ((mergedLog env.crc limit (session.liveRecords env log)).bin env.crc).number ≤ last.fileId :=
  Bitdb.mergedLog_number_le session.db.index live.resting.stored.ascending
    live.resting.readable.files packed (live.holds.attached.le_active active)

theorem merges_of_run {world : World} {acts : List Act} {limit : Nat} {session merged : Session}
    {active : DataFile} (empty : EmptyDir world)
    (run : Run (Act.GrowingStep env) (0, .closed world) acts (limit, .running session))
    (started : session.db.activeFile = some active)
    (ran : (mergeDb env).run session = (.ok .ok, merged)) :
    ∃ log keys last, Live env session log keys ∧
      log.Packed env.crc session.limit ∧ log.active = some last ∧
      last.fileId = active.fileId ∧ Merges env session log last (.ok .ok) merged := by
  obtain ⟨log, keys, tight⟩ := tight_of_run empty run
  have live : Live env session log keys := tight.logged
  have packed : log.Packed env.crc session.limit := by
    rw [show session.limit = limit from tight.limit]
    exact tight.packed
  have attached := live.holds.attached
  rcases live.run_mergeDb with ⟨unstarted, _⟩ | ⟨last, outcome, reached, opened, ran', merges⟩
  · rw [attached.active, unstarted] at started
    cases started
  · cases ran.symm.trans ran'
    rw [attached.active, opened] at started
    cases started
    exact ⟨log, keys, last, live, packed, opened, rfl, merges⟩

/-- As long as no database is opened with a smaller `data_file_size` than the one before, a
merge marks the id of the active file and produces no data file with an id behind it. -/
theorem merge_files_bounded {world : World} {acts : List Act} {limit : Nat}
    {session merged : Session} {active : DataFile} (empty : EmptyDir world)
    (run : Run (Act.GrowingStep env) (0, .closed world) acts (limit, .running session))
    (started : session.db.activeFile = some active)
    (ran : (mergeDb env).run session = (.ok .ok, merged)) :
    merged.world.fs.content? ⟨getMergenceDirectory 0, .merged⟩ =
        some (writtenBytes env.crc (mergedRecord active.fileId)) ∧
      ∀ fileId, (merged.world.fs.content? ⟨getMergenceDirectory 0, .data fileId⟩).isSome →
        fileId ≤ active.fileId := by
  obtain ⟨log, keys, last, live, packed, opened, same, merges⟩ :=
    merges_of_run empty run started ran
  rw [← same]
  cases merges.ended with
  | finished _ _ _ finished =>
    rw [live.top] at finished
    refine ⟨finished.marker, fun fileId present => ?_⟩
    obtain ⟨file, member, rfl⟩ := finished.stored.only fileId present
    exact (Log.fileId_le_current (by rintro _ ⟨⟩) file member).trans
      (live.mergedLog_number_le opened packed)

theorem growingRun_oneKeySession : Run (Act.GrowingStep .reference) (0, .closed (.on ⟨[∅]⟩))
    [.open ⟨⟨"db", 0⟩, 64, false, .skipListIndex⟩ false,
      .call (.put (.ofString [97]) (.ofString [49]))] (64, .running oneKeySession) := by
  let opened : Session := ⟨DB.new ⟨⟨"db", 0⟩, 64, false, .skipListIndex⟩, .on ⟨[∅]⟩⟩
  have opening : Act.GrowingStep .reference (0, .closed (.on ⟨[∅]⟩))
      (.open ⟨⟨"db", 0⟩, 64, false, .skipListIndex⟩ false) (64, .running opened) :=
    ⟨oneKeySession_opening, rfl, Nat.zero_le _⟩
  have putting : Act.GrowingStep .reference (64, .running opened)
      (.call (.put (.ofString [97]) (.ofString [49]))) (64, .running oneKeySession) :=
    ⟨oneKeySession_putting, rfl, Nat.le_refl 64⟩
  exact .cons opening (.cons putting (.nil _))

theorem exists_active_oneKeySession :
    ∃ file, oneKeySession.db.activeFile = some file ∧ file.fileId = 0 := by
  have active : oneKeySession.db.activeFile.map (·.fileId) = some 0 := by decide +kernel
  exact Option.map_eq_some_iff.mp active

theorem merge_files_bounded_one_key :
    let merged := (mergeDb .reference).run oneKeySession
    merged.1 = .ok .ok ∧
      ∀ fileId, (merged.2.world.fs.content? ⟨getMergenceDirectory 0, .data fileId⟩).isSome →
        fileId ≤ 0 := by
  intro merged
  have finished : merged.1 = .ok .ok := by decide +kernel
  obtain ⟨file, started, zero⟩ := exists_active_oneKeySession
  have ran : (mergeDb .reference).run oneKeySession = (.ok .ok, merged.2) :=
    Program.run_of_outcome finished
  clear_value merged
  obtain ⟨_, bounded⟩ := merge_files_bounded ⟨rfl, rfl⟩ growingRun_oneKeySession started ran
  rw [zero] at bounded
  exact ⟨finished, bounded⟩

/-- Two records of one file, merged by a database with a smaller `data_file_size`: the merge
produces file 1 although it has marked file 0. -/
theorem merge_passes_smaller_limit :
    let large : Options := ⟨⟨"db", 0⟩, 64, false, .skipListIndex⟩
    let small : Options := ⟨⟨"db", 0⟩, 10, false, .skipListIndex⟩
    let first := (put .reference (.ofString [97]) (.ofString [49])).run
      ⟨DB.new large, .on ⟨[∅]⟩⟩
    let second := (put .reference (.ofString [98]) (.ofString [50])).run first.2
    let reopened := (openDb .reference small false).run second.2.world
    (openDb .reference large false).run (.on ⟨[∅]⟩) = (.ok (DB.new large), .on ⟨[∅]⟩) ∧
      first.1 = .ok .ok ∧ second.1 = .ok .ok ∧
      ∃ db, reopened.1 = .ok db ∧ ((mergeDb .reference).run ⟨db, reopened.2⟩).1 = .ok .ok ∧
        db.activeFile.map (·.fileId) = some 0 ∧
        (((mergeDb .reference).run ⟨db, reopened.2⟩).2.world.fs.content?
          ⟨getMergenceDirectory 0, .data 1⟩).isSome := by
  intro large small first second reopened
  refine ⟨rfl, by decide +kernel, by decide +kernel, ?_⟩
  have checked : (reopened.1.toOption.map fun db =>
      (((mergeDb .reference).run ⟨db, reopened.2⟩).1, db.activeFile.map (·.fileId),
        (((mergeDb .reference).run ⟨db, reopened.2⟩).2.world.fs.content?
          ⟨getMergenceDirectory 0, .data 1⟩).isSome)) = some (.ok .ok, some 0, true) := by
    decide +kernel
  obtain ⟨db, opened, same⟩ := Option.map_eq_some_iff.mp checked
  cases result : reopened.1 with
  | error stop =>
    rw [result] at opened
    cases opened
  | ok other =>
    rw [result] at opened
    cases opened
    obtain ⟨merged, active, present⟩ := Prod.mk.inj same |>.imp_right Prod.mk.inj
    exact ⟨db, rfl, merged, active, present⟩

end Bounded

end Bitdb
