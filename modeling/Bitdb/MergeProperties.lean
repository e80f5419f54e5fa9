import Bitdb.Merge

/-! `Merge` from beginning to end: how it may end, and what the disk looks like whenever
it is stopped on the way. -/

set_option autoImplicit false

namespace Bitdb

open Base List Program DataFile World

section RenewDirectory

variable {level : Nat} {world : World}

structure Renewed (level : Nat) (before after : World) : Prop where
  reliable : after.script = []
  trace : after.trace = before.trace
  levels : after.fs.dirs.length = level + 1
  empty : ∀ name, after.fs.content? ⟨level, name⟩ = none
  others : ∀ handle : Handle, handle.level ≠ level →
    after.fs.content? handle = before.fs.content? handle
  passes : Passes (Thinned level before.fs) before after

theorem run_renewDirectory (os : Os) (reliable : world.script = [])
    (outer : level ≤ world.fs.dirs.length) (levels : world.fs.dirs.length ≤ level + 1) :
    ∃ renewed, (renewDirectory os level).run world = (.ok true, renewed) ∧
      Renewed level world renewed := by
  rcases Nat.eq_or_lt_of_le outer with missing | more
  · have absent : (isDirectoryExist level).run world = (.ok false, world) := by
      simp [isDirectoryExist, Fs.dir?, ← missing]
    have made := run_checkOrCreateDirectory_new reliable missing.symm
    refine ⟨_, (run_bind_ok absent).trans made, reliable, rfl, ?_, ?_, ?_,
      .once rfl (.refl outer levels)⟩
    · simp [← missing]
    · intro name
      rw [changed_fs, content?_create missing.symm]
      exact Fs.content?_of_level (Nat.le_of_eq missing.symm) name
    · intro handle outside
      exact content?_create missing.symm handle
  · have innermost : world.fs.dirs.length = level + 1 := by omega
    have there : (isDirectoryExist level).run world = (.ok true, world) := by
      have present : (world.fs.dir? level).isSome := Fs.dir?_isSome_iff.mpr more
      simp [isDirectoryExist, present]
    obtain ⟨middle, ran, removed⟩ := run_removeDir os reliable innermost
    have made := run_checkOrCreateDirectory_new removed.reliable removed.levels
    refine ⟨_, (run_bind_ok there).trans ((run_bind_ok ran).trans made),
      removed.reliable, removed.trace, ?_, ?_, ?_, removed.passes.trans (.once rfl removed.thinned)⟩
    · simp [removed.levels]
    · intro name
      rw [changed_fs, content?_create removed.levels]
      exact Fs.content?_of_level (Nat.le_of_eq removed.levels) name
    · intro handle outside
      rw [changed_fs, content?_create removed.levels]
      exact removed.thinned.others handle outside

end RenewDirectory

section FilesToBeMerged

theorem mapM_id_cases {α : Type} (items : List (Option α)) :
    (items.mapM id = none ∧ none ∈ items) ∨
      ∃ values, items.mapM id = some values ∧ items = values.map some := by
  induction items with
  | nil => exact .inr ⟨[], rfl, rfl⟩
  | cons item rest ih =>
    cases item with
    | none => exact .inl ⟨rfl, mem_cons_self⟩
    | some value =>
      rcases ih with ⟨ran, member⟩ | ⟨values, ran, same⟩
      · exact .inl ⟨by simp [ran], mem_cons_of_mem _ member⟩
      · exact .inr ⟨value :: values, by simp [ran], by rw [same]; rfl⟩

section Values

variable {κ α : Type} [DecidableEq κ] {table : AList fun _ : κ => Option α} {values : List α}

variable (same : (table.entries.map fun entry => entry.snd) = values.map some)

include same

theorem mem_values_iff {value : α} :
    value ∈ values ↔ ∃ key, table.lookup key = some (some value) := by
  have inside : value ∈ values ↔ some value ∈ table.entries.map fun entry => entry.snd := by
    rw [same, mem_map_of_injective (Option.some_injective α)]
  rw [inside, mem_map]
  constructor
  · rintro ⟨⟨key, item⟩, member, equal⟩
    rw [show item = some value from equal] at member
    exact ⟨key, AList.mem_lookup_iff.mpr member⟩
  · rintro ⟨key, found⟩
    exact ⟨_, AList.mem_lookup_iff.mp found, rfl⟩

theorem map_values_eq_keys {keyOf : α → κ}
    (keyed : ∀ key value, table.lookup key = some (some value) → keyOf value = key) :
    values.map keyOf = table.keys := by
  have each : ∀ entry ∈ table.entries, entry.snd.map keyOf = some entry.fst := by
    rintro ⟨key, item⟩ inside
    have present : item ∈ values.map some := by
      rw [← same]
      exact mem_map_of_mem inside
    obtain ⟨value, _, rfl⟩ := mem_map.mp present
    rw [Option.map_some, keyed key value (AList.mem_lookup_iff.mpr inside)]
  have mapped : (table.entries.map fun entry => entry.snd).map (Option.map keyOf) =
      table.keys.map some := by
    rw [map_map, AList.keys, List.keys, map_map]
    exact map_congr_left each
  rw [same, map_map] at mapped
  refine map_injective_iff.mpr (Option.some_injective κ) ?_
  simpa [map_map] using mapped

end Values

variable {env : Platform} {session : Session} {log : Log}

theorem map_insertionSort_fileId {files : List DataFile} {ids : List Nat}
    (ascending : ids.Pairwise (· < ·)) (perm : (files.map (·.fileId)).Perm ids) :
    (files.insertionSort fun left right => left.fileId ≤ right.fileId).map (·.fileId) = ids := by
  have total : Std.Total fun left right : DataFile => left.fileId ≤ right.fileId :=
    ⟨fun left right => Nat.le_total _ _⟩
  have transitive : IsTrans DataFile fun left right => left.fileId ≤ right.fileId :=
    ⟨fun _ _ _ => Nat.le_trans⟩
  have sorted := pairwise_insertionSort
    (fun left right : DataFile => left.fileId ≤ right.fileId) files
  have arranged := perm_insertionSort
    (fun left right : DataFile => left.fileId ≤ right.fileId) files
  exact ((arranged.map _).trans perm).eq_of_pairwise' (pairwise_map.mpr sorted)
    (ascending.imp fun less => Nat.le_of_lt less)

section

variable (attached : Attached env session log)

include attached

theorem Attached.olderFile_eq {fileId : Nat} {file : DataFile}
    (found : session.db.olderFiles.lookup fileId = some (some file)) :
    file.fileId = fileId ∧ file.handle = ⟨session.level, .data file.fileId⟩ := by
  obtain ⟨other, older, id⟩ := attached.olderOnly fileId file found
  obtain ⟨writeOff, stored⟩ := attached.older other older
  rw [id, found] at stored
  cases stored
  exact ⟨rfl, by rw [← id]; rfl⟩

theorem Attached.mem_olderFiles_iff
    (filled : ∀ fileId, session.db.olderFiles.lookup fileId ≠ some none) {fileId : Nat} :
    fileId ∈ session.db.olderFiles.keys ↔ fileId ∈ log.older.map (·.fileId) := by
  rw [← AList.mem_keys, ← AList.lookup_isSome, mem_map]
  constructor
  · intro present
    obtain ⟨item, found⟩ := Option.isSome_iff_exists.mp present
    cases item with
    | none => exact absurd found (filled fileId)
    | some file => exact attached.olderOnly fileId file found
  · rintro ⟨file, older, rfl⟩
    obtain ⟨writeOff, found⟩ := attached.older file older
    exact Option.isSome_of_mem found

theorem Attached.filesToBeMerged_cases :
    (filesToBeMerged session.db = .error (.faulted .nullPointer) ∧
      ∃ fileId, session.db.olderFiles.lookup fileId = some none) ∨
    ∃ files, filesToBeMerged session.db = .ok files ∧
      (∀ fileId, session.db.olderFiles.lookup fileId ≠ some none) ∧
      files.map (·.fileId) = log.older.map (·.fileId) ∧
      ∀ file ∈ files, file.handle = ⟨session.level, .data file.fileId⟩ := by
  have ascending : (log.older.map (·.fileId)).Pairwise (· < ·) :=
    pairwise_map.mpr (pairwise_append.mp attached.stored.ascending).1
  rcases mapM_id_cases (session.db.olderFiles.entries.map fun entry => entry.snd) with
    ⟨ran, member⟩ | ⟨values, ran, same⟩
  · obtain ⟨⟨fileId, file⟩, inside, null⟩ := mem_map.mp member
    have found : session.db.olderFiles.lookup fileId = some file := AList.mem_lookup_iff.mpr inside
    rw [show file = none from null] at found
    exact .inl ⟨by rw [filesToBeMerged, ran], fileId, found⟩
  · have filled (fileId : Nat) : session.db.olderFiles.lookup fileId ≠ some none := by
      intro null
      have inside : (none : Option DataFile) ∈
          session.db.olderFiles.entries.map fun entry => entry.snd :=
        mem_map.mpr ⟨_, AList.mem_lookup_iff.mp null, rfl⟩
      rw [same] at inside
      obtain ⟨value, _, impossible⟩ := mem_map.mp inside
      cases impossible
    have ids : values.map (·.fileId) = session.db.olderFiles.keys :=
      map_values_eq_keys same fun fileId file found => (attached.olderFile_eq found).1
    have perm : (values.map (·.fileId)).Perm (log.older.map (·.fileId)) := by
      rw [ids]
      exact (perm_ext_iff_of_nodup session.db.olderFiles.keys_nodup
        (ascending.imp fun less => Nat.ne_of_lt less)).mpr
          fun fileId => attached.mem_olderFiles_iff filled
    refine .inr ⟨_, by rw [filesToBeMerged, ran], filled,
      map_insertionSort_fileId ascending perm, fun file member => ?_⟩
    rw [mem_insertionSort] at member
    obtain ⟨fileId, found⟩ := (mem_values_iff same).mp member
    exact (attached.olderFile_eq found).2

end

end FilesToBeMerged

section Finish

variable {env : Platform} {base world : World} {level limit nonMergedFileId : Nat}
  {picked : List Located} {tempDb : DB} {hintFile : DataFile}

theorem mergedLog_active (crc : Crc32c) (limit : Nat) {picked : List Located} :
    (mergedLog crc limit picked).active = none ↔ picked = [] := by
  constructor
  · intro unstarted
    rcases eq_nil_or_concat picked with rfl | ⟨front, found, rfl⟩
    · rfl
    · rw [concat_eq_append, mergedLog_append, map_singleton] at unstarted
      simp only [Log.appendAll, foldl_cons, foldl_nil, Log.append] at unstarted
      split at unstarted <;> cases unstarted
  · rintro rfl
    rfl

structure Marking (crc : Crc32c) (base : Fs) (level limit nonMergedFileId : Nat)
    (picked : List Located) (disk : Fs) : Prop where
  stored : ∃ files, FilesStored crc disk (getMergenceDirectory level) files ∧
    Within files (mergedLog crc limit picked).files
  levels : disk.dirs.length = base.dirs.length
  outside : ∀ handle : Handle, handle.level ≠ getMergenceDirectory level →
    disk.content? handle = base.content? handle
  marker : disk.content? ⟨getMergenceDirectory level, .merged⟩ = none ∨
    disk.content? ⟨getMergenceDirectory level, .merged⟩ = some [] ∨
    disk.content? ⟨getMergenceDirectory level, .merged⟩ =
      some (writtenBytes crc (mergedRecord nonMergedFileId))

theorem Building.marking {crc : Crc32c} {base disk : Fs}
    (building : Building crc base level limit picked disk) (nonMergedFileId : Nat) :
    Marking crc base level limit nonMergedFileId picked disk :=
  ⟨building.stored, building.levels, building.outside, .inl building.unfinished⟩

structure Finished (crc : Crc32c) (level limit nonMergedFileId : Nat) (picked : List Located)
    (world : World) : Prop where
  stored : FilesStored crc world.fs (getMergenceDirectory level) (mergedLog crc limit picked).files
  hint : world.fs.content? ⟨getMergenceDirectory level, .hintIndex⟩ =
    some (logBytes crc (mergedHints crc limit picked))
  marker : world.fs.content? ⟨getMergenceDirectory level, .merged⟩ =
    some (writtenBytes crc (mergedRecord nonMergedFileId))
  written : ∀ entry ∈ mergedHints crc limit picked,
    (⟨getMergenceDirectory level, .hintIndex⟩, encodeLogRecord crc entry) ∈ world.trace

theorem Marking.put {crc : Crc32c} {base disk : Fs} {name : FileName} {bytes : List Byte}
    (marking : Marking crc base level limit nonMergedFileId picked disk)
    (noData : ∀ fileId, name ≠ .data fileId)
    (marker : (disk.put ⟨getMergenceDirectory level, name⟩ bytes).content?
        ⟨getMergenceDirectory level, .merged⟩ = none ∨
      (disk.put ⟨getMergenceDirectory level, name⟩ bytes).content?
        ⟨getMergenceDirectory level, .merged⟩ = some [] ∨
      (disk.put ⟨getMergenceDirectory level, name⟩ bytes).content?
        ⟨getMergenceDirectory level, .merged⟩ =
          some (writtenBytes crc (mergedRecord nonMergedFileId))) :
    Marking crc base level limit nonMergedFileId picked
      (disk.put ⟨getMergenceDirectory level, name⟩ bytes) := by
  obtain ⟨files, stored, within⟩ := marking.stored
  refine ⟨⟨files, stored.of_same ?_ ?_, within⟩, ?_, ?_, marker⟩
  · rw [Fs.dir?_put_isSome]
    exact stored.present
  · intro fileId
    refine Fs.content?_put_ne fun same => ?_
    injection same with _ names
    exact noData fileId names
  · rw [Fs.dirs_length_put]
    exact marking.levels
  · intro handle outside
    refine (Fs.content?_put_ne ?_).trans (marking.outside handle outside)
    rintro rfl
    exact outside rfl

theorem Copying.run_finishMerge_nothing
    (copying : Copying env base level limit [] tempDb hintFile world) (nonMergedFileId : Nat) :
    (finishMerge env (getMergenceDirectory level) nonMergedFileId tempDb hintFile).run world =
      (.error (.faulted .nullPointer), world) := by
  have stopped : sync.run ⟨tempDb, world⟩ = (.error (.faulted .nullPointer), ⟨tempDb, world⟩) :=
    run_bind_error (run_derefActive_none copying.temp.active)
  rw [finishMerge, run_bind_ok (run_sync copying.reliable)]
  exact run_bind_error (run_onDb_error stopped)

theorem Copying.run_finishMerge
    (copying : Copying env base level limit picked tempDb hintFile world) (some : picked ≠ [])
    (nonMergedFileId : Nat) :
    ∃ reached, (finishMerge env (getMergenceDirectory level) nonMergedFileId tempDb hintFile).run
        world = (.ok .ok, reached) ∧ reached.script = [] ∧
      Finished env.crc level limit nonMergedFileId picked reached ∧
      Marking env.crc base.fs level limit nonMergedFileId picked reached.fs ∧
      Passes (Marking env.crc base.fs level limit nonMergedFileId picked) base reached := by
  have flushed : sync.run ⟨tempDb, world⟩ = (.ok .ok, ⟨tempDb, world⟩) := by
    cases active : (mergedLog env.crc limit picked).active with
    | none => exact absurd ((mergedLog_active _ _).mp active) some
    | some last =>
      have pointed := copying.temp.active
      rw [active] at pointed
      rw [sync, run_bind_ok (run_derefActive pointed)]
      exact run_io_bind (run_sync copying.reliable)
  have created : (openMergedFile (getMergenceDirectory level)).run world = _ :=
    run_bind_ok (run_openFile_new copying.reliable copying.disk.unfinished)
  have present : (world.fs.dir? (getMergenceDirectory level)).isSome := by
    obtain ⟨files, stored, _⟩ := copying.disk.stored
    exact stored.present
  have empty : (world.fs.put ⟨getMergenceDirectory level, .merged⟩ []).content?
      ⟨getMergenceDirectory level, .merged⟩ = Option.some [] := Fs.content?_put_same present
  have written := @run_write
    (world.changed (world.fs.put ⟨getMergenceDirectory level, .merged⟩ []))
    ⟨0, 0, ⟨getMergenceDirectory level, .merged⟩⟩ []
    (encodeLogRecord env.crc (mergedRecord nonMergedFileId)) copying.reliable empty
  have other (name : FileName) (different : name ≠ .merged) (bytes : List Byte) (disk : Fs) :
      (disk.put ⟨getMergenceDirectory level, .merged⟩ bytes).content?
        ⟨getMergenceDirectory level, name⟩ = disk.content? ⟨getMergenceDirectory level, name⟩ := by
    refine Fs.content?_put_ne fun same => ?_
    injection same with _ names
    exact different names.symm
  have marking := copying.disk.marking nonMergedFileId
  have opened := marking.put (fun _ same => by cases same) (.inr (.inl empty))
  have marker := @Fs.content?_put_same (world.fs.put ⟨getMergenceDirectory level, .merged⟩ [])
    ⟨getMergenceDirectory level, .merged⟩ (writtenBytes env.crc (mergedRecord nonMergedFileId))
    (by rw [Fs.dir?_put_isSome]; exact present)
  have marked := opened.put (fun _ same => by cases same) (.inr (.inr marker))
  have passes : Passes (Marking env.crc base.fs level limit nonMergedFileId picked) base
      (world.changed (world.fs.put ⟨getMergenceDirectory level, .merged⟩ [])) :=
    (copying.passes.mono fun disk building => building.marking nonMergedFileId).trans
      (.once rfl marking)
  refine ⟨(world.changed (world.fs.put ⟨getMergenceDirectory level, .merged⟩ [])).written
    ⟨getMergenceDirectory level, .merged⟩ (writtenBytes env.crc (mergedRecord nonMergedFileId))
    (encodeLogRecord env.crc (mergedRecord nonMergedFileId)), ?_, copying.reliable,
    ⟨?_, ?_, marker, ?_⟩, marked, passes.trans (.once rfl opened)⟩
  · rw [finishMerge, run_bind_ok (run_sync copying.reliable),
      run_bind_ok (run_onDb flushed), run_bind_ok created]
    exact (run_bind_ok written).trans
      (run_bind_ok (run_sync copying.reliable))
  · have stored := copying.temp.stored
    rw [copying.tempLevel] at stored
    refine stored.of_same ?_ fun fileId => ?_
    · rw [written_fs, changed_fs, Fs.dir?_put_isSome, Fs.dir?_put_isSome]
      exact present
    · rw [written_fs, other _ (by simp), changed_fs, other _ (by simp)]
  · rw [written_fs, other _ (by simp), changed_fs, other _ (by simp)]
    exact copying.hint
  · intro entry member
    exact mem_append_left _ (copying.written entry member)

end Finish

def Log.rotated (log : Log) (last : FileLog) : Log :=
  ⟨log.older ++ [last], some ⟨last.fileId + 1, []⟩⟩

theorem Log.files_rotated {log : Log} {last : FileLog} (active : log.active = some last) :
    (log.rotated last).files = log.files ++ [⟨last.fileId + 1, []⟩] := by
  simp [files, rotated, active]

theorem Log.records_rotated {log : Log} {last : FileLog} (active : log.active = some last)
    (crc : Crc32c) : (log.rotated last).records crc = log.records crc := by
  rw [records, files_rotated active, flatMap_append]
  exact append_nil _

/-- A disk on the way of `Merge`. The mergence directory still holds what was there
before, or it holds a part of the merge and the active file has been closed. -/
structure MergeDisk (crc : Crc32c) (level limit : Nat) (before : Fs) (log : Log) (last : FileLog)
    (picked : List Located) (disk : Fs) : Prop where
  stored : FilesStored crc disk level log.files ∨
    FilesStored crc disk level (log.rotated last).files
  levels : disk.dirs.length ≤ level + 2
  others : ∀ handle : Handle, handle.level ≠ getMergenceDirectory level →
    (handle.level ≠ level ∨ ∀ fileId, handle.name ≠ .data fileId) →
      disk.content? handle = before.content? handle
  side : (∀ name, disk.content? ⟨getMergenceDirectory level, name⟩ = none ∨
      disk.content? ⟨getMergenceDirectory level, name⟩ =
        before.content? ⟨getMergenceDirectory level, name⟩) ∨
    (FilesStored crc disk level (log.rotated last).files ∧
      ∃ base, Marking crc base level limit last.fileId picked disk)

inductive MergeEnd (crc : Crc32c) (options : Options)
    (olderFiles : AList fun _ : Nat => Option DataFile) (log : Log) (last : FileLog)
    (picked : List Located) (world : World) : Except Stop Status → Prop where
  /-- The file table holds a null pointer, which the sorting follows. -/
  | nullFile (fileId : Nat) (null : olderFiles.lookup fileId = some none) :
      MergeEnd crc options olderFiles log last picked world (.error (.faulted .nullPointer))
  | emptyFile (file : FileLog) (member : file ∈ log.files) (empty : file.records = []) :
      MergeEnd crc options olderFiles log last picked world (.error (.failed emptyFileStatus))
  /-- A position is too long for the buffer it is encoded in. -/
  | overrun (past : ¬ PositionsEncodable crc options.dataFileSize picked) :
      MergeEnd crc options olderFiles log last picked world (.error (.faulted .outOfBounds))
  /-- Nothing is live, so the temporary database has no file to flush. -/
  | nothing (none : picked = []) :
      MergeEnd crc options olderFiles log last picked world (.error (.faulted .nullPointer))
  | finished (full : ∀ file ∈ log.files, file.records ≠ []) (some : picked ≠ [])
      (encodable : PositionsEncodable crc options.dataFileSize picked)
      (finished : Finished crc options.dirPath.level options.dataFileSize
        last.fileId picked world) :
      MergeEnd crc options olderFiles log last picked world (.ok .ok)

section Body

variable {env : Platform} {session : Session} {log : Log} {last : FileLog}

theorem MergeDisk.start {crc : Crc32c} {level limit : Nat} {before : Fs} {picked : List Located}
    (stored : FilesStored crc before level log.files) (levels : before.dirs.length ≤ level + 2) :
    MergeDisk crc level limit before log last picked before :=
  ⟨.inl stored, levels, fun _ _ _ => rfl, .inl fun _ => .inr rfl⟩

theorem MergeDisk.later {crc : Crc32c} {level limit : Nat} {before middle disk : Fs}
    {picked : List Located} (stored : FilesStored crc middle level (log.rotated last).files)
    (outer : level < disk.dirs.length) (levels : disk.dirs.length ≤ level + 2)
    (others : ∀ handle : Handle, (handle.level ≠ level ∨ ∀ fileId, handle.name ≠ .data fileId) →
      middle.content? handle = before.content? handle)
    (same : ∀ handle : Handle, handle.level ≠ getMergenceDirectory level →
      disk.content? handle = middle.content? handle)
    (side : (∀ name, disk.content? ⟨getMergenceDirectory level, name⟩ = none ∨
        disk.content? ⟨getMergenceDirectory level, name⟩ =
          middle.content? ⟨getMergenceDirectory level, name⟩) ∨
      ∃ base, Marking crc base level limit last.fileId picked disk) :
    MergeDisk crc level limit before log last picked disk := by
  have apart : level ≠ getMergenceDirectory level := Nat.ne_of_lt (Nat.lt_succ_self _)
  have kept : FilesStored crc disk level (log.rotated last).files :=
    stored.of_same (Fs.dir?_isSome_iff.mpr outer) fun fileId => same _ apart
  refine ⟨.inr kept, levels, ?_, ?_⟩
  · intro handle outside plain
    exact (same handle outside).trans (others handle plain)
  · rcases side with thinned | marking
    · left
      intro name
      rw [← others ⟨getMergenceDirectory level, name⟩ (.inl apart.symm)]
      exact thinned name
    · exact .inr ⟨kept, marking⟩

section

variable {before world : World} {level : Nat}
  (renewed : Renewed (getMergenceDirectory level) before world)

include renewed

theorem Renewed.blank (crc : Crc32c) :
    PlainDir world.fs (getMergenceDirectory level) ∧
      FilesStored crc world.fs (getMergenceDirectory level) [] := by
  have there : (world.fs.dir? (getMergenceDirectory level)).isSome :=
    Fs.dir?_isSome_iff.mpr (by rw [renewed.levels]; exact Nat.lt_succ_self _)
  refine ⟨⟨?_, renewed.empty _, renewed.empty _⟩, there, .nil,
    (fun _ member => by cases member), ?_⟩
  · rw [Fs.dir?, List.getElem?_eq_none_iff, renewed.levels]
    exact Nat.le_refl _
  · intro fileId found
    rw [renewed.empty] at found
    cases found

theorem Renewed.copying (env : Platform) {options : Options}
    (below : options.dirPath.level = getMergenceDirectory level) :
    ∃ reached, (openHintFile (getMergenceDirectory level)).run world =
        (.ok ⟨0, 0, ⟨getMergenceDirectory level, .hintIndex⟩⟩, reached) ∧
      Copying env world level options.dataFileSize [] (DB.new options)
        ⟨0, 0, ⟨getMergenceDirectory level, .hintIndex⟩⟩ reached := by
  obtain ⟨plain, stored⟩ := renewed.blank env.crc
  have created : (openHintFile (getMergenceDirectory level)).run world = _ :=
    run_bind_ok (run_openFile_new renewed.reliable plain.noHint)
  have other (handle : Handle) (different : handle ≠ ⟨getMergenceDirectory level, .hintIndex⟩) :
      (world.fs.put ⟨getMergenceDirectory level, .hintIndex⟩ []).content? handle =
        world.fs.content? handle := Fs.content?_put_ne different.symm
  have data (fileId : Nat) : (⟨getMergenceDirectory level, .data fileId⟩ : Handle) ≠
      ⟨getMergenceDirectory level, .hintIndex⟩ := by simp
  have building (disk : Fs) (there : (disk.dir? (getMergenceDirectory level)).isSome)
      (levels : disk.dirs.length = world.fs.dirs.length)
      (same : ∀ handle : Handle, handle ≠ ⟨getMergenceDirectory level, .hintIndex⟩ →
        disk.content? handle = world.fs.content? handle) :
      Building env.crc world.fs level options.dataFileSize [] disk := by
    refine ⟨⟨[], stored.of_same there fun fileId => same _ (data fileId),
      fun _ member => by cases member⟩, levels, ?_, ?_⟩
    · intro handle outside
      exact same handle fun equal => outside (by rw [equal])
    · exact (same _ (by simp)).trans plain.noMerged
  have there : ((world.fs.put ⟨getMergenceDirectory level, .hintIndex⟩ []).dir?
      (getMergenceDirectory level)).isSome := by
    rw [Fs.dir?_put_isSome]
    exact stored.present
  have attached := (loaded_blank renewed.reliable (by rw [below]; exact stored) :
    Loaded env world options .empty .empty _).holds.attached
  refine ⟨world.changed (world.fs.put ⟨getMergenceDirectory level, .hintIndex⟩ []), created,
    ⟨renewed.reliable, ?_, .once rfl ?_⟩, ?_, below, rfl, rfl, ?_,
    (fun _ member => by cases member), fun _ member => by cases member⟩
  · exact building _ there (Fs.dirs_length_put _ _) other
  · exact building _ stored.present rfl fun _ _ => rfl
  · refine attached.of_same renewed.reliable ?_ fun fileId => ?_
    · rw [show Session.level ⟨DB.new options, world⟩ = _ from below]
      exact there
    · rw [show Session.level ⟨DB.new options, world⟩ = _ from below]
      exact other _ (data fileId)
  · exact Fs.content?_put_same stored.present

end

/-- The records that a merge copies. -/
abbrev Session.liveRecords (session : Session) (env : Platform) (log : Log) : List Located :=
  session.db.index.liveRecords (log.records env.crc)

abbrev Session.mergeItems (session : Session) (env : Platform) (log : Log) (limit : Nat) :
    List MergedItem := mergedItems env.crc limit (session.liveRecords env log)

abbrev Session.MergeDisk (env : Platform) (session : Session) (log : Log) (last : FileLog) :
    Fs → Prop :=
  Bitdb.MergeDisk env.crc session.db.options.dirPath.level session.db.options.dataFileSize
    session.world.fs log last (session.db.index.liveRecords (log.records env.crc))

abbrev Session.Marking (env : Platform) (session : Session) (log : Log) (last : FileLog)
    (base : Fs) : Fs → Prop :=
  Bitdb.Marking env.crc base session.db.options.dirPath.level session.db.options.dataFileSize
    last.fileId (session.db.index.liveRecords (log.records env.crc))

def mergeTail (env : Platform) (mergeDir nonMergedFileId : Nat) (files : List DataFile)
    (tempDb : DB) (hintFile : DataFile) : Method Status := do
  let (tempDb, hintFile) ← mergeFiles env files tempDb hintFile
  io (finishMerge env mergeDir nonMergedFileId tempDb hintFile)

theorem run_mergeTail {files : List DataFile} (middle : Session) {base : World} {tempDb : DB}
    {hintFile : DataFile} (active : log.active = some last)
    (index : middle.db.index = session.db.index) (copying : Copying env base session.level
      session.limit [] tempDb hintFile middle.world)
    (ids : files.map (·.fileId) = (log.rotated last).older.map (·.fileId))
    (handles : ∀ file ∈ files, file.handle = ⟨session.level, .data file.fileId⟩)
    (content : ∀ file ∈ log.files, base.fs.content?
      (file.handle session.level) = some (logBytes env.crc file.records))
    (readable : ∀ file ∈ log.files, file.Readable env.crc) :
    ∃ outcome reached, (mergeTail env (getMergenceDirectory session.level)
        last.fileId files tempDb hintFile).run middle = (outcome, reached) ∧
      reached.db = middle.db ∧ reached.world.script = [] ∧
      session.Marking env log last base.fs reached.world.fs ∧
      Passes (session.Marking env log last base.fs) base reached.world ∧
      MergeEnd env.crc session.db.options session.db.olderFiles log last
        (session.liveRecords env log) reached.world outcome := by
  have older : (log.rotated last).older = log.files := by simp [Log.rotated, Log.files, active]
  rw [older] at ids
  obtain ⟨copies, full⟩ := run_mergeFiles log.files files middle [] tempDb hintFile copying ids
    handles content readable
  rw [nil_append, index] at copies
  cases ran : (mergeFiles env files tempDb hintFile).run middle with
  | mk outcome copied =>
    rw [ran] at copies
    cases outcome with
    | error stop =>
      obtain ⟨db, blocked, built⟩ := copies
      refine ⟨.error stop, copied, run_bind_error ran, db, built.reliable,
        built.disk.marking _, built.passes.mono fun _ building => building.marking _, ?_⟩
      rcases blocked with ⟨rfl, past⟩ | ⟨rfl, file, member, empty⟩
      · exact .overrun past
      · exact .emptyFile file member empty
    | ok value =>
      obtain ⟨tempDb', hintFile'⟩ := value
      obtain ⟨db, copying'⟩ := copies
      by_cases nothing : session.liveRecords env log = []
      · have copying'' : Copying env base session.level
            session.limit [] tempDb' hintFile' copied.world := by
          rw [← nothing]
          exact copying'
        have stopped := run_io (copying''.run_finishMerge_nothing last.fileId)
        exact ⟨_, _, (run_bind_ok ran).trans stopped, db, copying'.reliable,
          copying'.disk.marking _, copying'.passes.mono fun _ building => building.marking _,
          .nothing nothing⟩
      · obtain ⟨reached, finishing, script, finished, marking, passes⟩ :=
          copying'.run_finishMerge nothing last.fileId
        exact ⟨_, _, (run_bind_ok ran).trans (run_io finishing), db, script, marking,
          passes, .finished (full _ _ ran) nothing copying'.encodable finished⟩

structure Merges (env : Platform) (session : Session) (log : Log) (last : FileLog)
    (outcome : Except Stop Status) (reached : Session) : Prop where
  attached : Attached env reached (log.rotated last)
  options : reached.db.options = session.db.options
  index : reached.db.index = session.db.index
  txnId : reached.db.txnId = session.db.txnId
  nulls : ∀ fileId, reached.db.olderFiles.lookup fileId = some none →
    session.db.olderFiles.lookup fileId = some none
  idle : returned outcome = true → reached.db.isMerging = false
  disk : MergeDisk env.crc session.db.options.dirPath.level session.db.options.dataFileSize
    session.world.fs log last (session.db.index.liveRecords (log.records env.crc)) reached.world.fs
  passes : Passes (MergeDisk env.crc session.db.options.dirPath.level
    session.db.options.dataFileSize session.world.fs log last
      (session.db.index.liveRecords (log.records env.crc))) session.world reached.world
  ended : MergeEnd env.crc session.db.options session.db.olderFiles log last
    (session.db.index.liveRecords (log.records env.crc)) reached.world outcome

def Session.withMerging (session : Session) (isMerging : Bool) : Session :=
  { session with db := { session.db with isMerging } }

section

variable (attached : Attached env session log)

include attached

theorem Attached.run_mergeBody (active : log.active = some last) (readable : log.Readable env.crc)
    (valid : checkOptions session.db.options = .ok ())
    (levels : session.world.fs.dirs.length ≤ session.level + 2) (depth : Nat) :
    ∃ outcome reached, (mergeBody env (fun options => openDepth env (depth + 1) options true)
        (last.opened env.crc session.level)).run session = (outcome, reached) ∧
      reached.db = (withNextFile (withOlder (last.opened env.crc session.level) session)).db ∧
      reached.world.script = [] ∧
      FilesStored env.crc reached.world.fs session.level
        (log.rotated last).files ∧
      session.MergeDisk env log last reached.world.fs ∧
      Passes (session.MergeDisk env log last) session.world reached.world ∧
      MergeEnd env.crc session.db.options session.db.olderFiles log last
        (session.liveRecords env log) reached.world outcome := by
  have outer : session.level < session.world.fs.dirs.length :=
    Fs.dir?_isSome_iff.mp attached.stored.present
  have rotated : Attached env _ (log.rotated last) := attached.rotate active
  have frame : AppendFrame session (withNextFile (withOlder
      (last.opened env.crc session.level) session)) :=
    (withOlder_frame _ session).trans (withNextFile_frame _)
  have ran := attached.run_rotate (last.opened env.crc session.level)
  have started : Passes (session.MergeDisk env log last) session.world
      (withNextFile (withOlder (last.opened env.crc session.level)
        session)).world := .once rfl (.start attached.stored levels)
  generalize withNextFile (withOlder (last.opened env.crc session.level)
    session) = middle at rotated frame ran started
  have options := frame.options
  have stored := rotated.stored
  have others := frame.others
  rw [options] at stored
  have depthSame : middle.world.fs.dirs.length = session.world.fs.dirs.length := frame.levels
  have unfolded : (mergeBody env (fun options => openDepth env (depth + 1) options true)
      (last.opened env.crc session.level)).run session = (do
        let files ← ofExcept (filesToBeMerged (← readDb))
        let options := (← readDb).options
        let mergeDir := getMergenceDirectory options.dirPath.level
        checkTrue (← io (renewDirectory env.os mergeDir)) "CheckOrCreateDirectory(merge_dir)" 211
          "Merge" ""
        let mergenceOptions :=
          { options with
            dirPath := { options.dirPath with level := mergeDir }, isSyncWrite := false }
        let tempDb ← io (openDepth env (depth + 1) mergenceOptions true)
        let hintFile ← io (openHintFile mergeDir)
        mergeTail env mergeDir last.fileId files tempDb hintFile : Method Status).run middle := by
    rw [mergeBody, run_io_bind (run_sync attached.reliable)]
    exact run_bind_ok ran
  have later {disk : Fs} (outer : session.level < disk.dirs.length)
      (levels : disk.dirs.length ≤ session.level + 2)
      (same : ∀ handle : Handle, handle.level ≠ getMergenceDirectory session.level →
          disk.content? handle = middle.world.fs.content? handle) (side) :=
    @MergeDisk.later log last env.crc _ session.limit session.world.fs _ disk
      (session.liveRecords env log) stored outer levels others same side
  rw [unfolded, run_readDb_bind]
  rcases rotated.filesToBeMerged_cases with ⟨sorted, fileId, null⟩ | ⟨files, sorted, _, ids, handles⟩
  · rw [sorted]
    refine ⟨_, middle, rfl, rfl, rotated.reliable, stored, ?_, started, .nullFile fileId ?_⟩
    · exact later (by omega) (by omega) (fun _ _ => rfl) (.inl fun _ => .inr rfl)
    · exact frame.nulls fileId null
  · rw [frame.level] at handles
    rw [sorted, run_ofExcept_ok_bind]
    simp only [run_readDb_bind, options]
    obtain ⟨world, renewing, renewed⟩ := run_renewDirectory env.os rotated.reliable
      (show getMergenceDirectory session.level ≤ _ by
        rw [getMergenceDirectory]; omega)
      (show middle.world.fs.dirs.length ≤ _ by rw [getMergenceDirectory]; omega)
    obtain ⟨plain, blank⟩ := renewed.blank env.crc
    obtain ⟨hinted, hinting, copying⟩ := renewed.copying env
      (show ({ session.db.options with
        dirPath := { session.db.options.dirPath with
          level := getMergenceDirectory session.level }
        isSyncWrite := false } : Options).dirPath.level = _ from rfl)
    have opening := @run_openDepth_blank env world { session.db.options with
        dirPath := { session.db.options.dirPath with
          level := getMergenceDirectory session.level }
        isSyncWrite := false } depth true valid plain blank
    have length : world.fs.dirs.length = session.level + 2 := renewed.levels
    have content : ∀ file ∈ log.files, world.fs.content?
        (file.handle session.level) = some (logBytes env.crc file.records) := by
      intro file member
      rw [renewed.others _ (Nat.ne_of_lt (Nat.lt_succ_self _))]
      refine stored.content file ?_
      rw [Log.files_rotated active]
      exact mem_append_left _ member
    obtain ⟨outcome, reached, tail, db, script, marking, passes, ended⟩ := run_mergeTail
      { middle with world := hinted } active frame.index copying ids handles content readable.files
    have kept : FilesStored env.crc reached.world.fs session.level
        (log.rotated last).files := by
      have same := marking.levels
      have inside : session.level < reached.world.fs.dirs.length := by omega
      refine stored.of_same (Fs.dir?_isSome_iff.mpr inside) fun fileId => ?_
      have apart := Nat.ne_of_lt (Nat.lt_succ_self session.level)
      exact (marking.outside _ apart).trans (renewed.others _ apart)
    have building (disk : Fs) (marking : session.Marking env log last world.fs disk) :
        session.MergeDisk env log last disk := by
      have same := marking.levels
      exact later (by omega) (by omega) (fun handle outside =>
        (marking.outside handle outside).trans (renewed.others handle outside)) (.inr ⟨_, marking⟩)
    refine ⟨outcome, reached, ?_, db, script, kept, building _ marking, started.trans
      ((renewed.passes.mono fun disk thinned => ?_).trans (passes.mono building)), ended⟩
    · rw [run_io_bind renewing, run_checkTrue_bind, run_io_bind opening]
      exact (run_io_bind hinting).trans tail
    · exact later thinned.outer thinned.levels thinned.others (.inl thinned.inside)

theorem Attached.withMerging (isMerging : Bool) :
    Attached env (session.withMerging isMerging) log :=
  ⟨attached.reliable, attached.stored, attached.started, attached.active, attached.older,
    attached.olderOnly, attached.next⟩

theorem Attached.run_mergeDb (active : log.active = some last) (readable : log.Readable env.crc)
    (idle : session.db.isMerging = false) (valid : checkOptions session.db.options = .ok ())
    (levels : session.world.fs.dirs.length ≤ session.level + 2) :
    ∃ outcome reached, (mergeDb env).run session = (outcome, reached) ∧
      Merges env session log last outcome reached := by
  obtain ⟨outcome, middle, ran, db, script, stored, disk, passes, ended⟩ :=
    (attached.withMerging true).run_mergeBody active readable valid levels 0
  have rotated : Attached env _ (log.rotated last) := (attached.withMerging true).rotate active
  have frame : AppendFrame (session.withMerging true) _ :=
    (withOlder_frame (last.opened env.crc session.level) _).trans
      (withNextFile_frame _)
  have merges (flag : Bool) (settled : returned outcome = true → flag = false) :
      Merges env session log last outcome (middle.withMerging flag) := by
    have options : middle.db.options = session.db.options := by
      rw [db]
      exact frame.options
    refine ⟨?_, options, ?_, ?_, ?_, settled, disk, passes, ended⟩
    · have attached' := rotated.withWorld script stored
      rw [← db] at attached'
      exact attached'.withMerging flag
    · exact (congrArg DB.index db).trans frame.index
    · exact (congrArg DB.txnId db).trans frame.txnId
    · intro fileId null
      exact frame.nulls fileId
        ((congrArg (fun db => db.olderFiles.lookup fileId) db).symm.trans null)
  have pointed := attached.pointed active
  have unfolded : (mergeDb env).run session = ((mergeBody env
      (fun options => openDepth env 1 options true)
      (last.opened env.crc session.level)).withCleanup Stop.unwinds
        (modifyDb fun db => { db with isMerging := false })).run (session.withMerging true) := by
    rw [mergeDb, merge, run_readDb_bind, pointed]
    simp only [run_readDb_bind, idle, Bool.false_eq_true, ↓reduceIte]
    rfl
  rw [unfolded]
  cases settled : returned outcome with
  | true =>
    refine ⟨outcome, middle.withMerging false, run_withCleanup ran ?_ rfl,
      merges false fun _ => rfl⟩
    rintro stop rfl
    exact settled
  | false =>
    cases outcome with
    | ok status => cases settled
    | error stop =>
      refine ⟨.error stop, middle, run_withCleanup_skipped ran settled, ?_⟩
      refine merges middle.db.isMerging fun impossible => ?_
      rw [settled] at impossible
      cases impossible

end

end Body

end Bitdb
