import Bitdb.DbLoadProperties

/-! `Open` on a directory that no merge has touched. -/

set_option autoImplicit false

namespace Bitdb

open Base List Program Option

namespace Log

variable {crc : Crc32c} {log : Log}

structure Readable (crc : Crc32c) (log : Log) : Prop where
  whole : log.Whole crc
  tagged : ∀ found ∈ log.records crc, ∃ key txnId, found.2.Tagged key txnId

theorem Readable.append (readable : log.Readable crc) {limit : Nat} {record : LogRecord}
    {key : List Byte} {txnId : UInt64} (storable : record.Storable crc)
    (tagged : record.Tagged key txnId) : (log.append crc limit record).Readable crc where
  whole := readable.whole.append storable
  tagged := by
    intro found member
    rw [records_append] at member
    rcases mem_append.mp member with before | newest
    · exact readable.tagged found before
    · rw [mem_singleton.mp newest]
      exact ⟨key, txnId, tagged⟩

theorem Readable.files (readable : log.Readable crc) : ∀ file ∈ log.files, file.Readable crc := by
  intro file inside
  refine ⟨?_, ?_⟩
  · intro record member
    obtain ⟨pst, found⟩ := file.mem_located crc member
    exact readable.whole _ (mem_flatMap.mpr ⟨file, inside, found⟩)
  · intro record member
    obtain ⟨pst, found⟩ := file.mem_located crc member
    exact readable.tagged _ (mem_flatMap.mpr ⟨file, inside, found⟩)

end Log

/-- A directory without the files of a merge and without a mergence directory. -/
structure PlainDir (fs : Fs) (level : Nat) : Prop where
  noMergence : fs.dir? (getMergenceDirectory level) = none
  noHint : fs.content? ⟨level, .hintIndex⟩ = none
  noMerged : fs.content? ⟨level, .merged⟩ = none

theorem PlainDir.of_frame {fs disk : Fs} {level : Nat} (plain : PlainDir fs level)
    (levels : disk.dirs.length = fs.dirs.length)
    (others : ∀ handle : Handle, (handle.level ≠ level ∨ ∀ fileId, handle.name ≠ .data fileId) →
      disk.content? handle = fs.content? handle) : PlainDir disk level := by
  refine ⟨?_, ?_, ?_⟩
  · have missing := plain.noMergence
    rw [Fs.dir?, List.getElem?_eq_none_iff] at missing ⊢
    rw [levels]
    exact missing
  · exact (others _ (.inr fun _ same => by cases same)).trans plain.noHint
  · exact (others _ (.inr fun _ same => by cases same)).trans plain.noMerged

theorem CallFrame.plain {before after : Session} (frame : CallFrame before after)
    (plain : PlainDir before.world.fs before.level) : PlainDir after.world.fs after.level := by
  rw [frame.level]
  exact plain.of_frame frame.levels frame.others

theorem FilesStored.isNone_dir {crc : Crc32c} {fs : Fs} {level : Nat} {files : List FileLog}
    (stored : FilesStored crc fs level files) : (fs.dir? level).isNone = false := by
  rw [isNone_eq_false_iff]
  exact stored.present

section Load

variable {env : Platform} {session : Session} {log : Log}

theorem run_loadMergenceFiles_none (missing : session.world.fs.dir?
      (getMergenceDirectory session.level) = none) :
    (loadMergenceFiles env).run session =
      (.ok (.okWith "DB::LoadMergenceFiles" "have no mergence files"), session) := by
  simp [loadMergenceFiles, missing]

theorem run_loadIndexFromHintFile_none (missing : session.world.fs.content?
      ⟨session.level, .hintIndex⟩ = none) :
    (loadIndexFromHintFile env).run session =
      (.ok (.okWith "DB::LoadIndexFromHintFile" "has no hint file"), session) := by
  have absent : (isFileExist ⟨session.level, .hintIndex⟩).run session.world =
      (.ok false, session.world) := by
    simp [isFileExist, missing]
  rw [loadIndexFromHintFile, run_readDb_bind, run_io_bind absent]
  rfl

/-- A fresh object after `LoadDataFiles`. The write offsets are still zero. -/
def withDataFiles (session : Session) (older : List FileLog) (last : FileLog) : Session :=
  let level := session.db.options.dirPath.level
  { session with
    db := { session.db with
      fileIds := (older ++ [last]).map (·.fileId)
      activeFile := some ⟨last.fileId, 0, last.handle level⟩
      olderFiles := openedOlder level older session.db.olderFiles
      nextFileId := last.fileId + 1 } }

theorem run_loadDataFiles {older : List FileLog} {last : FileLog}
    (reliable : session.world.script = [])
    (stored : FilesStored env.crc session.world.fs session.level (older ++ [last])) :
    (loadDataFiles env).run session = (.ok .ok, withDataFiles session older last) := by
  have there := stored.isNone_dir
  have ids := stored.sorted_ids env.os
  have opened := run_openDataFiles older last
    { session with db := { session.db with fileIds := (older ++ [last]).map (·.fileId) } } reliable
    fun file member => ⟨_, stored.content file member⟩
  simp only [loadDataFiles, run_readDb_bind, run_read_bind, there, Bool.false_eq_true, ↓reduceIte,
    ids, run_modifyDb_bind]
  refine (run_bind_ok opened).trans ?_
  rfl

theorem run_loadDataFiles_none (fresh : session.db.activeFile = none)
    (stored : FilesStored env.crc session.world.fs session.level []) :
    (loadDataFiles env).run session =
      (.ok .ok, { session with db := { session.db with fileIds := [], nextFileId := 0 } }) := by
  have there := stored.isNone_dir
  have ids := stored.sorted_ids env.os
  simp only [loadDataFiles, run_readDb_bind, run_read_bind, there, Bool.false_eq_true, ↓reduceIte,
    ids, run_modifyDb_bind, map_nil, openDataFiles]
  rw [run_pure_bind, run_modifyDb_bind]
  simp only [fresh]
  rfl

theorem tracks_empty : Tracks (∅ : Indexer) (∅ : TxnRecords) .empty where
  shows := by
    intro key
    simp [Journal.State.empty]
  pending := by
    intro txn
    simp [TxnRecords.of, Journal.State.empty]
  nulFree := by
    intro txn txnRecord member
    simp [TxnRecords.of] at member

structure Loaded (env : Platform) (world : World) (options : Options) (log : Log)
    (state : KeyState) (reached : Session) : Prop where
  holds : Holds env reached log state
  options : reached.db.options = options
  txnId : reached.db.txnId = maxTxnId nonTxnId (log.records env.crc)
  idle : reached.db.isMerging = false
  noNull : ∀ fileId, reached.db.olderFiles.lookup fileId ≠ some none
  world : reached.world = world

def loadedSession (crc : Crc32c) (session : Session) (older : List FileLog) (last : FileLog)
    (index : Indexer) (txnId : UInt64) : Session :=
  let opened := ((withDataFiles session older last).withIndex index).withWriteOff last
    (last.size crc)
  { opened with db := { opened.db with txnId, fileIds := [] } }

section Loaded

variable {world : World} {options : Options} {older : List FileLog} {last : FileLog}

theorem attached_loaded (reliable : world.script = [])
    (stored : FilesStored env.crc world.fs options.dirPath.level (older ++ [last]))
    (index : Indexer) (txnId : UInt64) :
    Attached env (loadedSession env.crc ⟨DB.new options, world⟩ older last index txnId)
      ⟨older, some last⟩ := by
  obtain ⟨ascending, _, _⟩ := pairwise_append.mp stored.ascending
  refine ⟨reliable, stored, fun missing => (by cases missing), rfl, ?_, ?_, rfl⟩
  · intro file member
    exact ⟨0, lookup_openedOlder ascending member⟩
  · intro fileId file found
    rcases mem_openedOlder (AList.lookup_isSome.mp (isSome_of_mem found)) with
      impossible | listed
    · cases impossible
    · exact listed

theorem noNull_loaded (stored : FilesStored env.crc world.fs options.dirPath.level (older ++ [last]))
    (index : Indexer) (txnId : UInt64) (fileId : Nat) :
    (loadedSession env.crc ⟨DB.new options, world⟩ older last index
      txnId).db.olderFiles.lookup fileId ≠ some none := by
  obtain ⟨ascending, _, _⟩ := pairwise_append.mp stored.ascending
  intro null
  rcases mem_openedOlder (AList.lookup_isSome.mp (isSome_of_mem null)) with
    impossible | ⟨file, member, rfl⟩
  · cases impossible
  · cases (lookup_openedOlder ascending member).symm.trans null

end Loaded

variable {world : World} {options : Options}

theorem run_findNonMergedFileID_none {level : Nat}
    (missing : world.fs.content? ⟨level, .merged⟩ = none) :
    (findNonMergedFileID env level).run world = (.ok none, world) := by
  have absent : (isFileExist ⟨level, .merged⟩).run world = (.ok false, world) := by
    simp [isFileExist, missing]
  rw [findNonMergedFileID, run_bind_ok absent]
  rfl

theorem run_loadIndexFromDataFiles {skip : Option Nat}
    (nonempty : session.db.fileIds.isEmpty = false)
    (found : (findNonMergedFileID env session.level).run session.world =
      (.ok skip, session.world)) :
    (loadIndexFromDataFiles env).run session =
      (do
        let load ← loadFiles env skip session.db.fileIds ⟨nonTxnId, ∅⟩
        modifyDb fun db => { db with txnId := load.currentTxnId, fileIds := [] }
        return Status.ok : Method Status).run session := by
  rw [loadIndexFromDataFiles, run_readDb_bind, nonempty]
  simp only [Bool.false_eq_true, ↓reduceIte]
  rw [run_io_bind found]

theorem run_loadAll_blank (plain : PlainDir world.fs options.dirPath.level)
    (stored : FilesStored env.crc world.fs options.dirPath.level []) :
    (loadAll env).run ⟨DB.new options, world⟩ = (.ok (), ⟨DB.new options, world⟩) := by
  have mergence : (loadMergenceFiles env).run ⟨DB.new options, world⟩ = _ :=
    run_loadMergenceFiles_none plain.noMergence
  have opened : (loadDataFiles env).run ⟨DB.new options, world⟩ = _ :=
    run_loadDataFiles_none rfl stored
  rw [loadAll, run_bind_ok mergence, run_bind_ok opened,
    run_bind_ok (run_loadIndexFromHintFile_none plain.noHint)]
  rfl

theorem run_loadAll_opened {older : List FileLog} {last : FileLog} {index : Indexer}
    {status : Status} {skip : Option Nat} (reliable : world.script = [])
    (noMergence : world.fs.dir? (getMergenceDirectory options.dirPath.level) = none)
    (stored : FilesStored env.crc world.fs options.dirPath.level (older ++ [last]))
    (hinting : (loadIndexFromHintFile env).run (withDataFiles ⟨DB.new options, world⟩ older last) =
      (.ok status, (withDataFiles ⟨DB.new options, world⟩ older last).withIndex index))
    (found : (findNonMergedFileID env options.dirPath.level).run world = (.ok skip, world))
    {result : Except Stop LoadState} {reached : Session}
    (loaded : (loadFiles env skip ((older ++ [last]).map (·.fileId)) ⟨nonTxnId, ∅⟩).run
      ((withDataFiles ⟨DB.new options, world⟩ older last).withIndex index) = (result, reached)) :
    (loadAll env).run ⟨DB.new options, world⟩ = match result with
      | .ok load => (.ok (), { reached with
          db := { reached.db with txnId := load.currentTxnId, fileIds := [] } })
      | .error stop => (.error stop, reached) := by
  have mergence : (loadMergenceFiles env).run ⟨DB.new options, world⟩ = _ :=
    run_loadMergenceFiles_none noMergence
  have opened : (loadDataFiles env).run ⟨DB.new options, world⟩ = _ :=
    run_loadDataFiles reliable stored
  have nonempty : (withDataFiles ⟨DB.new options, world⟩ older last).db.fileIds.isEmpty =
      false := by simp [withDataFiles]
  have replaying : (loadIndexFromDataFiles env).run
      ((withDataFiles ⟨DB.new options, world⟩ older last).withIndex index) = _ :=
    run_loadIndexFromDataFiles nonempty found
  rw [loadAll, run_bind_ok mergence, run_bind_ok opened, run_bind_ok hinting]
  cases result with
  | ok load => exact run_bind_ok (replaying.trans (run_bind_ok loaded))
  | error stop => exact run_bind_error (replaying.trans (run_bind_error loaded))

theorem run_loadAll (log : Log) (reliable : world.script = [])
    (plain : PlainDir world.fs options.dirPath.level)
    (stored : FilesStored env.crc world.fs options.dirPath.level log.files)
    (started : log.active = none → log.older = [])
    (loadable : ∀ file ∈ log.files, file.Loadable env.crc) :
    match Journal.replay .empty (log.entries env.crc) with
    | some state => ∃ reached, (loadAll env).run ⟨DB.new options, world⟩ = (.ok (), reached) ∧
        Loaded env world options log state reached
    | none => ∃ reached, (loadAll env).run ⟨DB.new options, world⟩ =
        (.error (.failed missingKeyStatus), reached) ∧ reached.world = world := by
  cases active : log.active with
  | none =>
    have files := Log.files_unstarted started active
    have entries : log.entries env.crc = [] := by
      rw [Log.entries, Log.records, files]
      rfl
    rw [files] at stored
    rw [entries, Journal.replay_nil]
    refine ⟨_, run_loadAll_blank plain stored,
      ⟨⟨?_, by rw [entries]; rfl, tracks_empty.shows⟩, rfl, ?_, rfl, ?_, rfl⟩⟩
    · refine ⟨reliable, by rw [files]; exact stored, started, by rw [active]; rfl, ?_, ?_,
        by rw [active]; rfl⟩
      · intro file member
        rw [started active] at member
        cases member
      · intro fileId file found
        cases found
    · rw [Log.records, files]
      rfl
    · intro fileId null
      cases null
  | some last =>
    have files := Log.files_active active
    rw [files] at stored loadable
    have records : log.records env.crc = (log.older ++ [last]).flatMap (·.located env.crc) := by
      rw [Log.records, files]
    obtain ⟨ascending, _, _⟩ := pairwise_append.mp stored.ascending
    have ran := run_loadFiles none log.older
      (withDataFiles ⟨DB.new options, world⟩ log.older last) ⟨nonTxnId, ∅⟩ .empty rfl
      (fun file member => ⟨0, lookup_openedOlder ascending member⟩) (fun _ member => member)
      (fun _ _ => rfl) stored.content loadable tracks_empty
    have hinting := @run_loadIndexFromHintFile_none env
      (withDataFiles ⟨DB.new options, world⟩ log.older last) plain.noHint
    have found := @run_findNonMergedFileID_none env _ _ plain.noMerged
    rw [Log.entries, records]
    cases replayed : Journal.replay .empty
        (((log.older ++ [last]).flatMap (·.located env.crc)).map Located.entry) with
    | none =>
      rw [replayed] at ran
      obtain ⟨index, stopped⟩ := ran
      exact ⟨_, run_loadAll_opened reliable plain.noMergence stored hinting found stopped, rfl⟩
    | some state =>
      rw [replayed] at ran
      obtain ⟨index, load, returned, tracks, largest⟩ := ran
      have attached : Attached env (loadedSession env.crc ⟨DB.new options, world⟩ log.older
          last index load.currentTxnId) log := by
        have shape : log = ⟨log.older, some last⟩ := by rw [← active]
        rw [shape]
        exact attached_loaded reliable stored index load.currentTxnId
      refine ⟨_, run_loadAll_opened reliable plain.noMergence stored hinting found returned,
        ⟨⟨attached, ?_, tracks.shows⟩, rfl, ?_, rfl, noNull_loaded stored index load.currentTxnId, rfl⟩⟩
      · rw [Log.entries, records]
        exact replayed
      · rw [records]
        exact largest

theorem run_loadAll_emptyFile (log : Log) (reliable : world.script = [])
    (plain : PlainDir world.fs options.dirPath.level)
    (stored : FilesStored env.crc world.fs options.dirPath.level log.files)
    (started : log.active = none → log.older = [])
    (readable : ∀ file ∈ log.files, file.Readable env.crc)
    (empty : ∃ file ∈ log.files, file.records = []) :
    ∃ status reached, (loadAll env).run ⟨DB.new options, world⟩ =
        (.error (.failed status), reached) ∧ reached.world = world := by
  cases active : log.active with
  | none =>
    obtain ⟨file, member, _⟩ := empty
    rw [Log.files_unstarted started active] at member
    cases member
  | some last =>
    rw [Log.files_active active] at stored readable empty
    obtain ⟨ascending, _, _⟩ := pairwise_append.mp stored.ascending
    obtain ⟨status, reached, stopped, same⟩ := run_loadFiles_empty (log.older ++ [last])
      (withDataFiles ⟨DB.new options, world⟩ log.older last) ⟨nonTxnId, ∅⟩ .empty rfl
      (fun file member => ⟨0, lookup_openedOlder ascending member⟩) (fun _ member => member)
      (fun _ _ => any_none) stored.content readable empty tracks_empty
    exact ⟨status, reached, run_loadAll_opened reliable plain.noMergence stored
      (run_loadIndexFromHintFile_none plain.noHint) (run_findNonMergedFileID_none plain.noMerged)
      stopped, same⟩

end Load

section Open

variable {env : Platform} {world : World} {options : Options} {log : Log}

theorem checkOptions_ok (named : options.dirPath.root ≠ "")
    (positive : 0 < options.dataFileSize) : checkOptions options = .ok () := by
  have rooted : ¬ options.dirPath.root.isEmpty = true := by simpa using named
  rw [checkOptions, if_neg rooted, if_neg (Nat.ne_of_gt positive)]

theorem run_checkOrCreateDirectory_there {level : Nat} (there : (world.fs.dir? level).isSome) :
    (checkOrCreateDirectory level).run world = (.ok true, world) := by
  have found : (isDirectoryExist level).run world = (.ok true, world) := by
    simp [isDirectoryExist, there]
  rw [checkOrCreateDirectory, run_bind_ok found]
  rfl

variable {reached : Session} {depth : Nat}

theorem run_onDb {α : Type} {db : DB} {method : Method α} {value : α}
    (ran : method.run ⟨db, world⟩ = (.ok value, reached)) :
    (onDb db method).run world = (.ok (value, reached.db), reached.world) := by
  simp only [run] at ran
  simp only [onDb, run, ran]

theorem run_onDb_error {α : Type} {db : DB} {method : Method α} {stop : Stop}
    (ran : method.run ⟨db, world⟩ = (.error stop, reached)) :
    (onDb db method).run world = (.error stop, reached.world) := by
  simp only [run] at ran
  simp only [onDb, run, ran]

theorem ok_of_run_onDb {α : Type} {db : DB} {method : Method α} {result : α × DB} {reached : World}
    (ran : (onDb db method).run world = (.ok result, reached)) :
    method.run ⟨db, world⟩ = (.ok result.1, ⟨result.2, reached⟩) := by
  cases called : method.run ⟨db, world⟩ with
  | mk outcome last =>
    cases outcome with
    | ok value =>
      rw [run_onDb called] at ran
      cases ran
      rfl
    | error stop =>
      rw [run_onDb_error called] at ran
      cases ran

def openBody (env : Platform) (depth : Nat) (mergeAfterOpen : Bool) : Method Unit := do
  loadAll env
  if mergeAfterOpen then
    let _ ← merge env fun mergenceOptions => openDepth env depth mergenceOptions true

theorem run_openDepth {mergeAfterOpen : Bool} {middle : World}
    (valid : checkOptions options = .ok ())
    (there : (checkOrCreateDirectory options.dirPath.level).run world = (.ok true, middle)) :
    (openDepth env (depth + 1) options mergeAfterOpen).run world =
      (do
        let (_, db) ← onDb (DB.new options) (openBody env depth mergeAfterOpen)
        return db : Io DB).run middle := by
  rw [openDepth, valid, run_ofExcept_ok_bind, run_bind_ok there, run_checkTrue_bind]
  rfl

theorem run_merge_unstarted {session : Session} {openTemp : Options → Io DB}
    (unstarted : session.db.activeFile = none) :
    (merge env openTemp).run session = (.ok .ok, session) := by
  rw [merge, run_readDb_bind, unstarted]
  rfl

theorem run_openDepth_loaded {state : KeyState} (valid : checkOptions options = .ok ())
    (reliable : world.script = []) (plain : PlainDir world.fs options.dirPath.level)
    (stored : FilesStored env.crc world.fs options.dirPath.level log.files)
    (started : log.active = none → log.older = [])
    (loadable : ∀ file ∈ log.files, file.Loadable env.crc)
    (replayed : Journal.replay .empty (log.entries env.crc) = some state) :
    ∃ db, (openDepth env (depth + 1) options false).run world = (.ok db, world) ∧
      Loaded env world options log state ⟨db, world⟩ := by
  have ran := run_loadAll log reliable plain stored started loadable
  rw [replayed] at ran
  obtain ⟨reached, returned, loaded⟩ := ran
  have body : (openBody env depth false).run ⟨DB.new options, world⟩ = (.ok (), reached) :=
    run_bind_ok returned
  have same : reached = ⟨reached.db, world⟩ := by rw [← loaded.world]
  refine ⟨reached.db, ?_, by rw [← same]; exact loaded⟩
  rw [run_openDepth valid (run_checkOrCreateDirectory_there stored.present),
    run_bind_ok (run_onDb body), loaded.world]
  rfl

theorem run_openDepth_blank (mergeAfterOpen : Bool) (valid : checkOptions options = .ok ())
    (plain : PlainDir world.fs options.dirPath.level)
    (stored : FilesStored env.crc world.fs options.dirPath.level []) :
    (openDepth env (depth + 1) options mergeAfterOpen).run world =
      (.ok (DB.new options), world) := by
  have loaded := run_loadAll_blank plain stored
  have body : (openBody env depth mergeAfterOpen).run ⟨DB.new options, world⟩ =
      (.ok (), ⟨DB.new options, world⟩) := by
    rw [openBody, run_bind_ok loaded]
    cases mergeAfterOpen with
    | false => rfl
    | true => exact run_bind_ok (run_merge_unstarted rfl)
  rw [run_openDepth valid (run_checkOrCreateDirectory_there stored.present),
    run_bind_ok (run_onDb body)]
  rfl

theorem loaded_blank (reliable : world.script = [])
    (stored : FilesStored env.crc world.fs options.dirPath.level []) :
    Loaded env world options .empty .empty ⟨DB.new options, world⟩ where
  holds := by
    refine ⟨⟨reliable, stored, fun _ => rfl, rfl, ?_, ?_, rfl⟩, rfl, tracks_empty.shows⟩
    · intro file member
      cases member
    · intro fileId file found
      cases found
  options := rfl
  txnId := rfl
  idle := rfl
  noNull := by
    intro fileId null
    cases null
  world := rfl

theorem run_openDepth_failed (mergeAfterOpen : Bool) {stop : Stop}
    (valid : checkOptions options = .ok ()) (there : (world.fs.dir? options.dirPath.level).isSome)
    (failed : (loadAll env).run ⟨DB.new options, world⟩ = (.error stop, reached)) :
    (openDepth env (depth + 1) options mergeAfterOpen).run world =
      (.error stop, reached.world) := by
  have body : (openBody env depth mergeAfterOpen).run ⟨DB.new options, world⟩ =
      (.error stop, reached) := run_bind_error failed
  rw [run_openDepth valid (run_checkOrCreateDirectory_there there)]
  exact run_bind_error (run_onDb_error body)

end Open

structure EmptyDir (world : World) : Prop where
  reliable : world.script = []
  dirs : world.fs.dirs = [∅]

variable {world : World} (empty : EmptyDir world)

include empty

theorem EmptyDir.plain : PlainDir world.fs 0 := by
  refine ⟨?_, ?_, ?_⟩ <;> simp [Fs.dir?, Fs.content?, empty.dirs, getMergenceDirectory]

theorem EmptyDir.stored (crc : Crc32c) : FilesStored crc world.fs 0 [] where
  present := by simp [Fs.dir?, empty.dirs]
  ascending := List.Pairwise.nil
  content := by
    intro file member
    cases member
  only := by
    intro fileId found
    simp [Fs.content?, Fs.dir?, empty.dirs] at found

theorem EmptyDir.run_openDb (env : Platform) {options : Options} (mergeAfterOpen : Bool)
    (valid : checkOptions options = .ok ()) (top : options.dirPath.level = 0) :
    ∃ db, (openDb env options mergeAfterOpen).run world = (.ok db, world) ∧
      Loaded env world options .empty .empty ⟨db, world⟩ := by
  have plain := empty.plain
  have stored := empty.stored env.crc
  rw [← top] at plain stored
  exact ⟨_, run_openDepth_blank mergeAfterOpen valid plain stored,
    loaded_blank empty.reliable stored⟩

end Bitdb
