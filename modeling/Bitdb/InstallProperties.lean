import Bitdb.ViewsProperties

/-! What a finished merge leads to. An `Open` that finds its mark cannot succeed: the entries it
renames include the directory itself. -/

set_option autoImplicit false

namespace Bitdb

open Base Program Option

structure Grows (before after : World) : Prop where
  levels : before.fs.dirs.length ≤ after.fs.dirs.length
  files : ∀ handle, (before.fs.content? handle).isSome → (after.fs.content? handle).isSome

namespace Grows

theorem refl (world : World) : Grows world world := ⟨Nat.le_refl _, fun _ found => found⟩

theorem trans (first second third : World) (front : Grows first second)
    (back : Grows second third) : Grows first third :=
  ⟨Nat.le_trans front.levels back.levels, fun handle found => back.files handle
    (front.files handle found)⟩

theorem put {world : World} (handle : Handle) (bytes : List Byte) :
    Grows world (world.changed (world.fs.put handle bytes)) where
  levels := by rw [World.changed_fs, Fs.dirs_length_put]
  files := by
    intro other found
    rw [World.changed_fs]
    by_cases same : handle = other
    · subst same
      obtain ⟨old, content⟩ := isSome_iff_exists.mp found
      rw [Fs.content?_put_same (Fs.dir?_isSome_of_content? content)]
      rfl
    · rw [Fs.content?_put_ne same]
      exact found

end Grows

def KeepsFiles {α : Type} (call : Io α) : Prop := Program.Keeps Grows call

namespace KeepsFiles

variable {α β : Type}

theorem pure (value : α) : KeepsFiles (Pure.pure value) :=
  Program.Keeps.pure Grows.refl value

theorem stop (error : Stop) : KeepsFiles (stop error : Io α) :=
  Program.Keeps.stop Grows.refl error

theorem read : KeepsFiles read := Program.Keeps.read Grows.refl

theorem ofExcept (outcome : Except Stop α) : KeepsFiles (ofExcept outcome) :=
  Program.Keeps.ofExcept Grows.refl outcome

theorem bind {call : Io α} {next : α → Io β} (first : KeepsFiles call)
    (rest : ∀ value, KeepsFiles (next value)) : KeepsFiles (call >>= next) :=
  Program.Keeps.bind Grows.trans first rest

theorem ran {call : Io α} (kept : KeepsFiles call) {world reached : World}
    {outcome : Except Stop α} (ran : call.run world = (outcome, reached)) : Grows world reached := by
  have here := kept world
  rw [ran] at here
  exact here

theorem nextOutcome : KeepsFiles nextOutcome := by
  intro world
  simp only [Bitdb.nextOutcome, run]
  split
  · exact .refl _
  · exact ⟨Nat.le_refl _, fun _ found => found⟩

theorem openFile (handle : Handle) : KeepsFiles (openFile handle) := by
  refine bind nextOutcome fun _ => bind read fun world => ?_
  refine .ite (fun _ => pure _) fun _ => .modify fun _ => .put handle []

theorem transfer (handle : Handle) (bytes : List Byte) (count : Nat) :
    KeepsFiles (transfer handle bytes count) := by
  refine bind (.modify fun world => ?_) fun _ => bind (.modify fun world => ?_) fun _ => pure _
  · cases found : world.fs.content? handle with
    | none =>
      simp only [found]
      exact ⟨Nat.le_refl _, fun _ found => found⟩
    | some old =>
      simp only [found]
      exact .put handle _
  · exact ⟨Nat.le_refl _, fun _ found => found⟩

theorem write (file : DataFile) (bytes : List Byte) : KeepsFiles (file.write bytes) := by
  have written : KeepsFiles (fileWrite file.handle bytes) := by
    refine bind nextOutcome fun outcome => ?_
    cases outcome with
    | fails => exact pure _
    | short | done => exact transfer _ _ _
  exact bind written fun size => .ite (fun _ => stop _) fun _ => pure _

theorem sync (file : DataFile) : KeepsFiles file.sync := by
  have flushed : KeepsFiles (fileSync file.handle) := by
    refine bind nextOutcome fun outcome => ?_
    cases outcome with
    | fails | short | done => exact pure _
  exact bind flushed fun res => .ite (fun _ => stop _) fun _ => pure _

theorem newDataFile (handle : Handle) (fileId : Nat) :
    KeepsFiles (DataFile.newDataFile handle fileId) :=
  bind (openFile handle) fun _ => pure _

theorem readLogRecordAt (crc : Crc32c) (file : DataFile) (offset : Nat) :
    KeepsFiles (file.readLogRecordAt crc offset) :=
  bind read fun _ => ofExcept _

theorem writeHintRecord (crc : Crc32c) (hintFile : DataFile) (key : Bytes) (pst : LogRecordPst) :
    KeepsFiles (writeHintRecord crc hintFile key pst) :=
  bind (ofExcept _) fun _ => write _ _

theorem checkOrCreateDirectory (level : Nat) : KeepsFiles (checkOrCreateDirectory level) := by
  refine bind (bind read fun _ => pure _) fun there => .ite (fun _ => pure _) fun _ =>
    bind nextOutcome fun _ => bind read fun _ => .ite (fun _ => ?_) fun _ => pure _
  refine bind (.modify fun world => ⟨?_, fun handle found => ?_⟩) fun _ => pure _
  · simp
  · rw [World.changed_fs, content?_create rfl]
    exact found

end KeepsFiles

def MethodKeepsFiles {α : Type} (method : Method α) : Prop :=
  Program.Keeps (fun before after => Grows before.world after.world) method

namespace MethodKeepsFiles

variable {α β : Type} {env : Platform}

theorem pure (value : α) : MethodKeepsFiles (Pure.pure value) :=
  Program.Keeps.pure (fun session => .refl session.world) value

theorem stop (error : Stop) : MethodKeepsFiles (stop error : Method α) :=
  Program.Keeps.stop (fun session => .refl session.world) error

theorem read : MethodKeepsFiles read :=
  Program.Keeps.read fun session => .refl session.world

theorem ofExcept (outcome : Except Stop α) : MethodKeepsFiles (ofExcept outcome) :=
  Program.Keeps.ofExcept (fun session => .refl session.world) outcome

variable {method : Method α}

theorem bind {next : α → Method β} (first : MethodKeepsFiles method)
    (rest : ∀ value, MethodKeepsFiles (next value)) : MethodKeepsFiles (method >>= next) :=
  Program.Keeps.bind (fun _ _ _ front back => front.trans _ _ _ back) first rest

theorem ofIo {call : Io α} (kept : KeepsFiles call) : MethodKeepsFiles (io call) :=
  Program.Keeps.focus (fun _ _ => rfl) kept

theorem ran (kept : MethodKeepsFiles method) {session reached : Session} {outcome : Except Stop α}
    (ran : method.run session = (outcome, reached)) : Grows session.world reached.world := by
  have here := kept session
  rw [ran] at here
  exact here

theorem readDb : MethodKeepsFiles readDb := bind read fun _ => pure _

theorem modifyDb (change : DB → DB) : MethodKeepsFiles (modifyDb change) :=
  .modify fun session => .refl session.world

theorem checkTrue (holds : Bool) (expression : String) (line : Nat) (function debug : String) :
    MethodKeepsFiles (checkTrue holds expression line function debug) :=
  .ite (fun _ => pure _) fun _ => stop _

theorem derefActive : MethodKeepsFiles derefActive := by
  refine bind readDb fun db => ?_
  cases db.activeFile with
  | none => exact stop _
  | some file => exact pure _

theorem newActiveDataFile : MethodKeepsFiles newActiveDataFile :=
  bind readDb fun _ => bind (ofIo (.newDataFile _ _)) fun _ => modifyDb _

theorem rotate (active : DataFile) : MethodKeepsFiles (rotate active) :=
  bind (modifyDb _) fun _ => newActiveDataFile

theorem makeRoom (size : Nat) : MethodKeepsFiles (makeRoom size) := by
  refine bind (bind readDb fun _ => .ite (fun _ => newActiveDataFile) fun _ => pure _) fun _ =>
    bind derefActive fun active => bind readDb fun _ => .ite (fun _ => ?_) fun _ => pure _
  exact bind (ofIo (.sync active)) fun _ => rotate active

theorem writeActive (bytes : List Byte) : MethodKeepsFiles (writeActive bytes) := by
  refine bind derefActive fun active => bind (ofIo (.write active bytes)) fun written =>
    bind (modifyDb _) fun _ => bind readDb fun _ => .ite (fun _ => ?_) fun _ => ?_
  · exact bind (ofIo (.sync written)) fun _ => pure _
  · exact pure _

theorem appendLogRecord (record : LogRecord) : MethodKeepsFiles (appendLogRecord env record) :=
  bind (makeRoom _) fun _ => writeActive _

theorem put (key value : Bytes) : MethodKeepsFiles (put env key value) := by
  refine .ite (fun _ => stop _) fun _ => bind (ofExcept _) fun _ => bind (appendLogRecord _)
    fun _ => bind readDb fun _ => bind (modifyDb _) fun _ => bind (checkTrue _ _ _ _ _) fun _ =>
      pure _

theorem delete (key : Bytes) : MethodKeepsFiles (delete env key) := by
  refine .ite (fun _ => stop _) fun _ => bind readDb fun db => ?_
  cases db.index.get key with
  | none => exact pure _
  | some pst =>
    exact bind (ofExcept _) fun _ => bind (appendLogRecord _) fun _ => bind (modifyDb _) fun _ =>
      bind readDb fun _ => bind (modifyDb _) fun _ => bind (checkTrue _ _ _ _ _) fun _ => pure _

theorem dataFilePtr (fid : Nat) : MethodKeepsFiles (dataFilePtr fid) := by
  refine bind derefActive fun active => .ite (fun _ => pure _) fun _ => bind readDb fun db => ?_
  cases db.olderFiles.lookup fid with
  | none => exact bind (modifyDb _) fun _ => pure _
  | some file => exact pure _

theorem get (key : Bytes) (out : Bool) : MethodKeepsFiles (get env key out) := by
  refine .ite (fun _ => stop _) fun _ => bind readDb fun db => ?_
  cases db.index.get key with
  | none => exact stop _
  | some pst =>
    refine bind (dataFilePtr _) fun pointer => ?_
    cases pointer with
    | none => exact stop _
    | some file =>
      refine bind (ofIo (.readLogRecordAt _ _ _)) fun found => .ite (fun _ => stop _)
        fun _ => .ite (fun _ => pure _) fun _ => stop _

theorem call (request : Call) : MethodKeepsFiles (request.run env) := by
  cases request with
  | put key value => exact bind (put key value) fun _ => pure _
  | get key => exact bind (get key true) fun _ => pure _
  | delete key => exact bind (delete key) fun _ => pure _

theorem sync : MethodKeepsFiles sync :=
  bind derefActive fun active => bind (ofIo (.sync active)) fun _ => pure _

theorem onDb {db : DB} (kept : MethodKeepsFiles method) : KeepsFiles (onDb db method) := by
  intro world
  have here := kept ⟨db, world⟩
  cases ran : method.run ⟨db, world⟩ with
  | mk outcome reached =>
    rw [ran] at here
    cases outcome with
    | ok value =>
      rw [run_onDb ran]
      exact here
    | error error =>
      rw [run_onDb_error ran]
      exact here

theorem mergeFile (file : DataFile) (fuel offset : Nat) (tempDb : DB) (hintFile : DataFile) :
    MethodKeepsFiles (mergeFile env file fuel offset tempDb hintFile) := by
  induction fuel generalizing offset tempDb hintFile with
  | zero => exact stop _
  | succ fuel ih =>
    refine bind (ofIo (.readLogRecordAt _ _ _)) fun found => .ite (fun _ => pure _) fun _ =>
      bind (ofExcept _) fun decoded => bind readDb fun _ => .ite (fun _ => ?_) fun _ => ih _ _ _
    exact bind (ofExcept _) fun _ => bind (ofIo (onDb (appendLogRecord _))) fun _ =>
      bind (ofIo (.writeHintRecord _ _ _ _)) fun _ => ih _ _ _

theorem mergeFiles (files : List DataFile) (tempDb : DB) (hintFile : DataFile) :
    MethodKeepsFiles (mergeFiles env files tempDb hintFile) := by
  induction files generalizing tempDb hintFile with
  | nil => exact pure _
  | cons file rest ih => exact bind read fun _ => bind (mergeFile _ _ _ _ _) fun _ => ih _ _

end MethodKeepsFiles

section Mark

variable {env : Platform} {world reached : World} {session : Session}

theorem ok_checkTrue {σ : Type} {holds : Bool} {expression function debug : String} {line : Nat}
    {state last : σ} (ran : (checkTrue holds expression line function debug : Program σ Stop Unit).run
      state = (.ok (), last)) : holds = true ∧ last = state := by
  cases holds with
  | true =>
    cases ran
    exact ⟨rfl, rfl⟩
  | false => cases ran

theorem isSome_of_openFile {handle : Handle} (there : handle.level < world.fs.dirs.length)
    (ran : (openFile handle).run world = (.ok (), reached)) :
    (reached.fs.content? handle).isSome := by
  obtain ⟨_, middle, outcome, ran⟩ := ok_of_run_bind ran
  have kept := KeepsFiles.nextOutcome.ran outcome
  rw [run_read_bind, run_ite] at ran
  split at ran
  · rename_i found
    cases ran
    exact found
  · cases ran
    rw [World.changed_fs, Fs.content?_put_same]
    · rfl
    · exact Fs.dir?_isSome_iff.mpr (Nat.lt_of_lt_of_le there kept.levels)

variable {level : Nat} {last : Session} {status : Status}

theorem dirs_of_create (missing : (world.fs.dir? level).isSome = false)
    (ran : (checkOrCreateDirectory level).run world = (.ok true, reached)) :
    ∃ outer, outer.length = level ∧ reached.fs.dirs = outer ++ [∅] := by
  have absent : (isDirectoryExist level).run world = (.ok false, world) := by
    simp [isDirectoryExist, missing]
  rw [checkOrCreateDirectory, run_bind_ok absent] at ran
  obtain ⟨_, middle, outcome, ran⟩ := ok_of_run_bind ran
  rw [run_read_bind, run_ite] at ran
  split at ran
  · rename_i last
    cases ran
    exact ⟨middle.fs.dirs, last.symm, rfl⟩
  · cases ran

theorem missing_of_removeDir {os : Os} (ran : (removeDir os level).run world = (.ok (), reached)) :
    (reached.fs.dir? level).isSome = false := by
  rw [removeDir, run_read_bind, removeDirDepth, run_read_bind, run_ite] at ran
  split at ran
  · cases ran
  · obtain ⟨_, middle, _, ran⟩ := ok_of_run_bind ran
    obtain ⟨removed, last, ended, ran⟩ := ok_of_run_bind ran
    rw [run_ite] at ran
    split at ran
    · rename_i gone
      subst gone
      cases ran
      obtain ⟨_, before, _, ended⟩ := ok_of_run_bind ended
      rw [run_read_bind] at ended
      cases found : before.fs.dir? level with
      | none =>
        rw [found] at ended
        cases ended
      | some dir =>
        rw [found] at ended
        simp only [run_ite] at ended
        split at ended
        · cases ended
          simp [Fs.dir?]
        · cases ended
    · cases ran

theorem dirs_of_renew {os : Os} (ran : (renewDirectory os level).run world = (.ok true, reached)) :
    ∃ outer, outer.length = level ∧ reached.fs.dirs = outer ++ [∅] := by
  obtain ⟨there, middle, asked, ran⟩ := ok_of_run_bind ran
  have same : there = (world.fs.dir? level).isSome ∧ middle = world := by
    cases asked
    exact ⟨rfl, rfl⟩
  obtain ⟨rfl, rfl⟩ := same
  rw [run_ite] at ran
  split at ran
  · obtain ⟨_, between, removed, ran⟩ := ok_of_run_bind ran
    exact dirs_of_create (missing_of_removeDir removed) ran
  · rename_i absent
    exact dirs_of_create (Bool.eq_false_iff.mpr absent) ran

theorem blank_of_dirs {fs : Fs} {outer : List Dir} (length : outer.length = level)
    (dirs : fs.dirs = outer ++ [∅]) : PlainDir fs level ∧ FilesStored env.crc fs level [] := by
  have content (name : FileName) : fs.content? ⟨level, name⟩ = none := by
    simp [Fs.content?, Fs.dir?, dirs, ← length]
  refine ⟨⟨?_, content _, content _⟩, ?_, .nil, (fun _ member => by cases member), ?_⟩
  · simp [Fs.dir?, getMergenceDirectory, dirs, ← length]
  · simp [Fs.dir?, dirs, ← length]
  · intro fileId found
    rw [content] at found
    cases found

theorem db_io {α : Type} {call : Io α} {outcome : Except Stop α}
    (ran : (io call).run session = (outcome, last)) :
    last.db = session.db ∧ call.run session.world = (outcome, last.world) := by
  cases called : call.run session.world with
  | mk result world =>
    rw [run_io called] at ran
    cases ran
    exact ⟨rfl, rfl⟩

theorem options_of_rotate {active : DataFile} (ran : (rotate active).run session = (.ok (), last)) :
    last.db.options = session.db.options := by
  rw [rotate, run_modifyDb_bind, newActiveDataFile, run_readDb_bind] at ran
  obtain ⟨file, middle, opened, ran⟩ := ok_of_run_bind ran
  obtain ⟨same, _⟩ := db_io opened
  cases ran
  simp only [same]

theorem isSome_of_finishMerge {mergeDir nonMergedFileId : Nat} {tempDb : DB} {hintFile : DataFile}
    (there : mergeDir < world.fs.dirs.length)
    (ran : (finishMerge env mergeDir nonMergedFileId tempDb hintFile).run world =
      (.ok status, reached)) : (reached.fs.content? ⟨mergeDir, .merged⟩).isSome := by
  obtain ⟨_, first, flushed, ran⟩ := ok_of_run_bind ran
  obtain ⟨_, second, synced, ran⟩ := ok_of_run_bind ran
  obtain ⟨mergedFile, third, opened, ran⟩ := ok_of_run_bind ran
  obtain ⟨_, fourth, created, returned⟩ := ok_of_run_bind opened
  cases returned
  have before : Grows world second :=
    ((KeepsFiles.sync hintFile).ran flushed).trans _ _ _
      ((MethodKeepsFiles.onDb MethodKeepsFiles.sync).ran synced)
  have marked := isSome_of_openFile (Nat.lt_of_lt_of_le there before.levels) created
  have after := (KeepsFiles.bind (.write _ _) fun written => .bind (.sync written) fun _ =>
    .pure Status.ok).ran ran
  exact after.files _ marked

theorem isSome_of_merge (started : session.db.activeFile ≠ none)
    (ran : (mergeDb env).run session = (.ok status, last)) :
    (last.world.fs.content?
      ⟨getMergenceDirectory session.db.options.dirPath.level, .merged⟩).isSome := by
  obtain ⟨active, pointed⟩ := ne_none_iff_exists'.mp started
  rw [mergeDb, merge, run_readDb_bind, pointed] at ran
  simp only [run_readDb_bind, run_ite] at ran
  split at ran
  · cases ran
  · rw [run_modifyDb_bind] at ran
    obtain ⟨finished, body, cleaned⟩ := ok_of_run_withCleanup ran
    cases cleaned
    obtain ⟨_, first, synced, ran⟩ := ok_of_run_bind body
    obtain ⟨_, second, rotated, ran⟩ := ok_of_run_bind ran
    rw [run_readDb_bind] at ran
    obtain ⟨files, third, sorted, ran⟩ := ok_of_run_bind ran
    have same : second = third := congrArg Prod.snd sorted
    subst same
    have options : second.db.options = session.db.options := by
      rw [options_of_rotate rotated, (db_io synced).1]
    simp only [run_readDb_bind, options] at ran
    obtain ⟨made, fourth, renewed, checking⟩ := ok_of_run_bind ran
    obtain ⟨_, fifth, checked, opening⟩ := ok_of_run_bind checking
    obtain ⟨rfl, rfl⟩ := ok_checkTrue checked
    obtain ⟨outer, length, dirs⟩ := dirs_of_renew (db_io renewed).2
    obtain ⟨tempDb, sixth, opened, hinting⟩ := ok_of_run_bind opening
    obtain ⟨hintFile, seventh, hinted, copying⟩ := ok_of_run_bind hinting
    obtain ⟨copied, eighth, merged, finishing⟩ := ok_of_run_bind copying
    have unchanged : sixth.world = fifth.world := by
      have temporary := (db_io opened).2
      obtain ⟨plain, stored⟩ := @blank_of_dirs env _ _ _ length dirs
      cases valid : checkOptions ⟨⟨session.db.options.dirPath.root,
          getMergenceDirectory session.level⟩, session.limit,
          false, session.db.options.indexType⟩ with
      | error stop =>
        rw [openDepth, valid] at temporary
        cases temporary
      | ok value =>
        rw [run_openDepth_blank true valid plain stored] at temporary
        exact (congrArg Prod.snd temporary).symm
    have grown : Grows sixth.world eighth.world :=
      ((MethodKeepsFiles.ofIo (.newDataFile _ _)).ran hinted).trans _ _ _
        ((MethodKeepsFiles.mergeFiles _ _ _).ran merged)
    refine isSome_of_finishMerge (Nat.lt_of_lt_of_le ?_ grown.levels) (db_io finishing).2
    rw [unchanged, dirs, List.length_append, length]
    exact Nat.lt_succ_self _

theorem not_ok_loadMergenceFiles (marked : (session.world.fs.content?
      ⟨getMergenceDirectory session.level, .merged⟩).isSome) :
    (loadMergenceFiles env).run session ≠ (.ok status, last) := by
  intro ran
  obtain ⟨bytes, found⟩ := isSome_iff_exists.mp marked
  have there : (session.world.fs.dir? (getMergenceDirectory session.level)).isSome :=
    Fs.dir?_isSome_of_content? found
  have listed := env.os.readdir_perm session.world.fs
    (getMergenceDirectory session.level)
  have finished : .file .merged ∈ env.os.readdir session.world.fs
      (getMergenceDirectory session.level) :=
    listed.mem_iff.mpr (Fs.mem_entries_file.mpr marked)
  have itself : .dot ∈ env.os.readdir session.world.fs
      (getMergenceDirectory session.level) := by
    rw [listed.mem_iff, Fs.entries]
    obtain ⟨dir, present⟩ := isSome_iff_exists.mp there
    rw [present]
    exact List.mem_cons_self
  have present : (session.world.fs.dir? (getMergenceDirectory session.level)).isNone = false := by
    rw [isNone_eq_false_iff]
    exact there
  simp only [loadMergenceFiles, run_readDb_bind, run_read_bind, present,
    Bool.false_eq_true, ↓reduceIte] at ran
  obtain ⟨middle, installed, _⟩ := ok_of_run_withCleanup (db_io ran).2
  rw [installMergence, if_pos finished] at installed
  obtain ⟨_, _, _, removing⟩ := ok_of_run_bind installed
  obtain ⟨_, _, _, moving⟩ := ok_of_run_bind removing
  obtain ⟨_, _, renamed, _⟩ := ok_of_run_bind moving
  obtain ⟨before, after, refused⟩ := ok_of_run_forEach renamed itself
  obtain ⟨answer, between, asked, checked⟩ := ok_of_run_bind refused
  obtain ⟨_, _, _, answered⟩ := ok_of_run_bind asked
  obtain ⟨rfl, _⟩ := ok_checkTrue checked
  cases answered

/-- An `Open` that finds the mark fails: one of the entries to be renamed is the mergence
directory itself, whose renaming is refused. -/
theorem not_open_of_mark {options : Options} {mergeAfterOpen : Bool} {db : DB}
    (marked : (world.fs.content? ⟨getMergenceDirectory options.dirPath.level, .merged⟩).isSome) :
    (openDb env options mergeAfterOpen).run world ≠ (.ok db, reached) := by
  intro ran
  obtain ⟨_, first, valid, ran⟩ := ok_of_run_bind ran
  obtain ⟨made, second, created, ran⟩ := ok_of_run_bind ran
  obtain ⟨_, third, checked, opening⟩ := ok_of_run_bind ran
  obtain ⟨rfl, rfl⟩ := ok_checkTrue checked
  obtain ⟨result, fourth, opened, _⟩ := ok_of_run_bind opening
  have same : world = first := congrArg Prod.snd valid
  have still : (third.fs.content?
      ⟨getMergenceDirectory options.dirPath.level, .merged⟩).isSome := by
    subst same
    exact ((KeepsFiles.checkOrCreateDirectory _).ran created).files _ marked
  obtain ⟨_, loaded, loading, _⟩ := ok_of_run_bind (ok_of_run_onDb opened)
  obtain ⟨_, installed, installing, _⟩ := ok_of_run_bind loading
  exact not_ok_loadMergenceFiles still installing

end Mark

theorem grows_runCalls (env : Platform) (calls : List Call) (session : Session) :
    Grows session.world (runCalls env calls session).2.world := by
  induction calls generalizing session with
  | nil => exact .refl _
  | cons call rest ih =>
    exact (MethodKeepsFiles.call call session).trans _ _ _ (ih _)

theorem started_of_get {env : Platform} {session shown : Session} {key : Bytes}
    {value : List Byte} (live : (get env key true).run session = (.ok value, shown)) :
    session.db.activeFile ≠ none := by
  intro unstarted
  have stopped := run_derefActive_none unstarted
  cases empty : key.empty with
  | true =>
    simp only [get, empty, ↓reduceIte] at live
    cases live
  | false =>
    simp only [get, empty, Bool.false_eq_true, ↓reduceIte, run_readDb_bind] at live
    cases found : session.db.index.get key with
    | none =>
      rw [found] at live
      cases live
    | some pst =>
      rw [found] at live
      obtain ⟨_, middle, pointed, _⟩ := ok_of_run_bind live
      obtain ⟨_, _, active, _⟩ := ok_of_run_bind pointed
      rw [stopped] at active
      cases active

/-- A merge is never installed. Whatever is put, read or deleted after a `Merge` that
returned `Ok` on a database with a live key, no later `Open` of the directory with the
merge in it succeeds. -/
theorem open_fails_after_merge (env : Platform) {session shown merged : Session} {key : Bytes}
    {value : List Byte} {status : Status}
    (live : (get env key true).run session = (.ok value, shown))
    (ran : (mergeDb env).run session = (.ok status, merged)) (calls : List Call)
    {options : Options} (mergeAfterOpen : Bool)
    (same : options.dirPath.level = session.db.options.dirPath.level) (db : DB) (reached : World) :
    (openDb env options mergeAfterOpen).run (runCalls env calls merged).2.world ≠
      (.ok db, reached) := by
  have marked := isSome_of_merge (started_of_get live) ran
  have still := (grows_runCalls env calls merged).files _ marked
  rw [← same] at still
  exact not_open_of_mark still

theorem open_fails_after_merge_of_one_key :
    let options : Options := ⟨⟨"db", 0⟩, 64, false, .skipListIndex⟩
    let session := ((put .reference (.ofString [97]) (.ofString [49])).run
      ⟨DB.new options, .on ⟨[∅]⟩⟩).2
    let merged := ((mergeDb .reference).run session).2
    ∀ db reached, (openDb .reference options true).run (runCalls .reference
      [.put (.ofString [98]) (.ofString [50])] merged).2.world ≠ (.ok db, reached) := by
  intro options session merged
  have live : ((get .reference (.ofString [97]) true).run session).1 = .ok [49] := by
    decide +kernel
  have level : options.dirPath.level = session.db.options.dirPath.level := by decide +kernel
  have returned : ((mergeDb .reference).run session).1 = .ok .ok := by decide +kernel
  have ran : (mergeDb .reference).run session = (.ok .ok, merged) := run_of_outcome returned
  clear_value merged session
  exact open_fails_after_merge .reference (run_of_outcome live) ran _ true level

/-- One key is put and merged, then a second one is put. All calls return `Ok` and both
keys can be read, but the next `Open` fails. -/
theorem merged_database_does_not_reopen :
    let options : Options := ⟨⟨"db", 0⟩, 64, false, .skipListIndex⟩
    let session := ((put .reference (.ofString [97]) (.ofString [49])).run
      ⟨DB.new options, .on ⟨[∅]⟩⟩).2
    let merged := (mergeDb .reference).run session
    let last := (put .reference (.ofString [98]) (.ofString [50])).run merged.2
    (openDb .reference options false).run (.on ⟨[∅]⟩) = (.ok (DB.new options), .on ⟨[∅]⟩) ∧
      merged.1 = .ok .ok ∧ last.1 = .ok .ok ∧
      ((get .reference (.ofString [97]) true).run last.2).1 = .ok [49] ∧
      ((get .reference (.ofString [98]) true).run last.2).1 = .ok [50] ∧
      ∀ db reached, (openDb .reference options false).run last.2.world ≠ (.ok db, reached) := by
  refine ⟨rfl, by decide +kernel, by decide +kernel, by decide +kernel, by decide +kernel, ?_⟩
  intro db reached opened
  have succeeded : ((openDb .reference ⟨⟨"db", 0⟩, 64, false, .skipListIndex⟩ false).run
      _).1.isOk = true := congrArg (fun result => result.1.isOk) opened
  revert succeeded
  decide +kernel

end Bitdb
