import Bitdb.Status
import Bitdb.Utils.Crc32c
import Mathlib.Data.List.AList

/-! The part of the file system a database touches, and the system calls on it
(`bitdb/io/file_io.cpp`, `bitdb/utils/os_utils.h`). The directories form a chain: level zero is
`options.dir_path` and level `n + 1` is `GetMergenceDirectory` of level `n`. Only the files the
database itself creates occur; the data file name of an id is that id followed by
`K_DATA_FILE_SUFFIX` and parses back to it. What the system calls do to the contents of files. The
results about runs are for worlds whose script is empty, where every call succeeds. -/

set_option autoImplicit false

namespace Bitdb

open Base Program

/-- Names of regular files: `<id>.bitdb-data`, `hint-index` and `merged`. -/
inductive FileName where
  | data (fileId : Nat)
  | hintIndex
  | merged
  deriving DecidableEq, Repr

inductive DirEntry where
  | dot
  | dotdot
  | file (name : FileName)
  /-- The mergence directory of this directory. -/
  | mergence
  deriving DecidableEq, Repr

abbrev Dir := AList fun _ : FileName => List Byte

/-- The existing levels of the chain, outermost first. -/
structure Fs where
  dirs : List Dir

/-- An open file. Nothing renames or removes a file while a database holds it open,
so the name stands for the descriptor. -/
structure Handle where
  level : Nat
  name : FileName
  deriving DecidableEq, Repr

namespace Fs

def dir? (fs : Fs) (level : Nat) : Option Dir := fs.dirs[level]?

def content? (fs : Fs) (handle : Handle) : Option (List Byte) :=
  (fs.dir? handle.level).bind fun dir => dir.lookup handle.name

def content (fs : Fs) (handle : Handle) : List Byte := (fs.content? handle).getD []

def put (fs : Fs) (handle : Handle) (bytes : List Byte) : Fs :=
  ⟨fs.dirs.modify handle.level fun dir => dir.insert handle.name bytes⟩

def remove (fs : Fs) (handle : Handle) : Fs :=
  ⟨fs.dirs.modify handle.level fun dir => dir.erase handle.name⟩

def entries (fs : Fs) (level : Nat) : List DirEntry :=
  match fs.dir? level with
  | none => []
  | some dir =>
    .dot :: .dotdot :: (dir.keys.map .file ++
      if (fs.dir? (level + 1)).isSome then [.mergence] else [])

end Fs

inductive Outcome where
  | done
  /-- A write transfers only this many bytes. -/
  | short (count : Nat)
  /-- The call fails and changes nothing. -/
  | fails
  deriving DecidableEq, Repr

/-- The disk, the outcomes of the coming system calls, the writes made so far with the
bytes each was given, and the disk as it was before every change of it. Past the end of
the script every call succeeds. The two histories are never read: they say what a process
has written, and what it leaves behind when it is stopped between two system calls. -/
structure World where
  fs : Fs
  script : List Outcome
  trace : List (Handle × List Byte)
  disks : List Fs

def World.on (fs : Fs) : World := ⟨fs, [], [], []⟩

def World.changed (world : World) (fs : Fs) : World :=
  { world with fs, disks := world.disks ++ [world.fs] }

abbrev Io := Program World Stop

/-- The operating system lists the entries of a directory in an order of its own. -/
structure Os where
  readdir : Fs → Nat → List DirEntry
  readdir_perm : ∀ fs level, (readdir fs level).Perm (fs.entries level)

structure Platform where
  crc : Crc32c
  os : Os

/-- A platform that computes the real checksum and lists directories in the order the
model stores them. -/
def Platform.reference : Platform :=
  ⟨.castagnoli, ⟨Fs.entries, fun _ _ => List.Perm.refl _⟩⟩

/-- The most bytes one `read` or `write` call transfers on Linux. -/
def maxTransfer : Nat := 0x7ffff000

def nextOutcome : Io Outcome := fun world =>
  match world.script with
  | [] => (.ok .done, world)
  | outcome :: rest => (.ok outcome, { world with script := rest })

def modifyFs (change : Fs → Fs) : Io Unit :=
  modify fun world => world.changed (change world.fs)

/-- `open` with `O_CREAT | O_RDWR | O_APPEND`. -/
def openFile (handle : Handle) : Io Unit := do
  let _ ← nextOutcome
  let world ← read
  if (world.fs.content? handle).isSome then return ()
  else modifyFs fun fs => fs.put handle []

def transfer (handle : Handle) (bytes : List Byte) (count : Nat) : Io Int := do
  modifyFs fun fs =>
    match fs.content? handle with
    | none => fs
    | some old => fs.put handle (old ++ bytes.take count)
  modify fun world => { world with trace := world.trace ++ [(handle, bytes)] }
  return count

/-- `FileIO::Write`: the number of bytes transferred, or a negative number. -/
def fileWrite (handle : Handle) (bytes : List Byte) : Io Int := do
  let most := min bytes.length maxTransfer
  match ← nextOutcome with
  | .fails => return -1
  | .short count => transfer handle bytes (min count most)
  | _ => transfer handle bytes most

def fileSync (_handle : Handle) : Io Int := do
  match ← nextOutcome with
  | .fails => return -1
  | _ => return 0

def unlink (handle : Handle) : Io Bool := do
  let _ ← nextOutcome
  let world ← read
  if (world.fs.content? handle).isSome then
    modifyFs fun fs => fs.remove handle
    return true
  else return false

/-- `rename` of an entry of level `source` to the same name in level `target`. The
two dot entries cannot be renamed, and a nested mergence directory never exists. -/
def rename (source target : Nat) (entry : DirEntry) : Io Bool := do
  let _ ← nextOutcome
  let world ← read
  match entry with
  | .file name =>
    match world.fs.content? ⟨source, name⟩ with
    | none => return false
    | some bytes =>
      modifyFs fun fs => (fs.remove ⟨source, name⟩).put ⟨target, name⟩ bytes
      return true
  | _ => return false

def mkdir (level : Nat) : Io Bool := do
  let _ ← nextOutcome
  let world ← read
  if level = world.fs.dirs.length then
    modifyFs fun fs => ⟨fs.dirs ++ [∅]⟩
    return true
  else return false

def rmdir (level : Nat) : Io Bool := do
  let _ ← nextOutcome
  let world ← read
  match world.fs.dir? level with
  | none => return false
  | some dir =>
    if dir.keys.isEmpty ∧ level + 1 = world.fs.dirs.length then
      modifyFs fun fs => ⟨fs.dirs.take level⟩
      return true
    else return false

def isFileExist (handle : Handle) : Io Bool := do
  return ((← read).fs.content? handle).isSome

def isDirectoryExist (level : Nat) : Io Bool := do
  return ((← read).fs.dir? level).isSome

def checkOrCreateDirectory (level : Nat) : Io Bool := do
  if ← isDirectoryExist level then return true
  else mkdir level

def removeFile (handle : Handle) : Io Unit := do
  if ← unlink handle then return ()
  else stop .exited

def removeEntry (removeNested : Io Unit) (level : Nat) : DirEntry → Io Unit
  | .dot => return ()
  | .dotdot => return ()
  | .mergence => removeNested
  | .file name => removeFile ⟨level, name⟩

/-- `RemoveDir`, with `depth` levels of nested directories left. -/
def removeDirDepth (os : Os) : Nat → Nat → Io Unit
  | 0, _ => stop .exited
  | depth + 1, level => do
      let world ← read
      if (world.fs.dir? level).isNone then stop .exited
      else
        forEach (os.readdir world.fs level)
          (removeEntry (removeDirDepth os depth (level + 1)) level)
        if ← rmdir level then return ()
        else stop .exited

def removeDir (os : Os) (level : Nat) : Io Unit := do
  let world ← read
  removeDirDepth os (world.fs.dirs.length + 1) level

open List Option

namespace Fs

variable {fs : Fs} {handle other : Handle} {bytes : List Byte}

theorem dir?_put_same (handle : Handle) (bytes : List Byte) :
    (fs.put handle bytes).dir? handle.level =
      (fs.dir? handle.level).map fun dir => dir.insert handle.name bytes := by
  simp [put, dir?]

variable {level : Nat}

theorem dir?_put_ne (different : handle.level ≠ level) (bytes : List Byte) :
    (fs.put handle bytes).dir? level = fs.dir? level := by
  simp [put, dir?, different]

theorem dir?_remove_same (handle : Handle) :
    (fs.remove handle).dir? handle.level =
      (fs.dir? handle.level).map fun dir => dir.erase handle.name := by
  simp [remove, dir?]

theorem dir?_remove_ne (different : handle.level ≠ level) :
    (fs.remove handle).dir? level = fs.dir? level := by
  simp [remove, dir?, different]

@[simp] theorem dir?_put_isSome (handle : Handle) (bytes : List Byte) (level : Nat) :
    ((fs.put handle bytes).dir? level).isSome = (fs.dir? level).isSome := by
  by_cases same : handle.level = level
  · subst same
    simp [dir?_put_same]
  · rw [dir?_put_ne same]

theorem content?_put_same (present : (fs.dir? handle.level).isSome) :
    (fs.put handle bytes).content? handle = some bytes := by
  obtain ⟨dir, found⟩ := Option.isSome_iff_exists.mp present
  simp [content?, dir?_put_same, found]

theorem content?_put_ne (different : handle ≠ other) :
    (fs.put handle bytes).content? other = fs.content? other := by
  by_cases same : handle.level = other.level
  · have names : other.name ≠ handle.name := by
      intro names
      apply different
      cases handle
      cases other
      simp_all
    rw [content?, content?, ← same, dir?_put_same]
    cases fs.dir? handle.level with
    | none => rfl
    | some dir => simp [AList.lookup_insert_ne names]
  · rw [content?, content?, dir?_put_ne same]

theorem content?_remove_same : (fs.remove handle).content? handle = none := by
  rw [content?, dir?_remove_same]
  cases fs.dir? handle.level with
  | none => rfl
  | some dir => simp

theorem content?_remove_ne (different : handle ≠ other) :
    (fs.remove handle).content? other = fs.content? other := by
  by_cases same : handle.level = other.level
  · have names : other.name ≠ handle.name := by
      intro names
      apply different
      cases handle
      cases other
      simp_all
    rw [content?, content?, ← same, dir?_remove_same]
    cases fs.dir? handle.level with
    | none => rfl
    | some dir => simp [AList.lookup_erase_ne names]
  · rw [content?, content?, dir?_remove_ne same]

theorem eq_singleton {fs : Fs} {name : FileName} {bytes : List Byte}
    (dirs : fs.dirs.map (·.entries) = [[⟨name, bytes⟩]]) : fs = ⟨[AList.singleton name bytes]⟩ := by
  obtain ⟨dirs'⟩ := fs
  obtain ⟨dir, rfl, entries⟩ := map_eq_singleton_iff.mp dirs
  have same : dir = AList.singleton name bytes := AList.ext entries
  rw [same]

theorem content?_singleton (name : FileName) (bytes : List Byte) (handle : Handle) :
    Fs.content? ⟨[AList.singleton name bytes]⟩ handle =
      if handle = ⟨0, name⟩ then some bytes else none := by
  obtain ⟨level, other⟩ := handle
  cases level with
  | zero =>
    have looked : Fs.content? ⟨[AList.singleton name bytes]⟩ ⟨0, other⟩ =
        List.dlookup other [(⟨name, bytes⟩ : Sigma fun _ : FileName => List Byte)] := rfl
    by_cases same : other = name
    · subst same
      rw [looked, dlookup_cons_eq, if_pos rfl]
    · rw [looked, dlookup_cons_ne _ _ same, dlookup_nil, if_neg (by simpa using same)]
  | succ level => simp [Fs.content?, Fs.dir?]

theorem dir?_isSome_of_content? {handle : Handle} {bytes : List Byte}
    (found : fs.content? handle = some bytes) : (fs.dir? handle.level).isSome := by
  rw [content?] at found
  cases present : fs.dir? handle.level with
  | none => simp [present] at found
  | some dir => rfl

theorem content_of_content? (found : fs.content? handle = some bytes) :
    fs.content handle = bytes := by
  rw [content, found]
  rfl

@[simp] theorem dirs_length_put (handle : Handle) (bytes : List Byte) :
    (fs.put handle bytes).dirs.length = fs.dirs.length := by
  simp [put]

@[simp] theorem dirs_length_remove (handle : Handle) :
    (fs.remove handle).dirs.length = fs.dirs.length := by
  simp [remove]

theorem mem_entries_file {name : FileName} :
    .file name ∈ fs.entries level ↔ (fs.content? ⟨level, name⟩).isSome := by
  rw [entries, content?]
  cases found : fs.dir? level with
  | none => simp
  | some dir =>
    simp only [mem_cons, reduceCtorEq, mem_append, List.mem_map, DirEntry.file.injEq,
      exists_eq_right, false_or, Option.bind_some, AList.lookup_isSome]
    constructor
    · intro member
      rcases member with key | last
      · exact key
      · split at last
        · simp at last
        · cases last
    · intro key
      exact .inl key

theorem nodup_entries (fs : Fs) (level : Nat) : (fs.entries level).Nodup := by
  rw [entries]
  cases fs.dir? level with
  | none => exact nodup_nil
  | some dir =>
    have keys : (dir.keys.map DirEntry.file).Nodup :=
      dir.keys_nodup.map fun left right same => DirEntry.file.inj same
    refine nodup_cons.mpr ⟨?_, nodup_cons.mpr ⟨?_, ?_⟩⟩
    · split <;> simp
    · split <;> simp
    · refine nodup_append.mpr ⟨keys, ?_, ?_⟩
      · split <;> simp
      · intro left inside right last same
        obtain ⟨name, _, rfl⟩ := mem_map.mp inside
        split at last
        · rw [mem_singleton.mp last] at same
          cases same
        · cases last

theorem content?_of_level (past : fs.dirs.length ≤ level) (name : FileName) :
    fs.content? ⟨level, name⟩ = none := by
  simp [content?, dir?, past]

theorem dir?_isSome_iff : (fs.dir? level).isSome ↔ level < fs.dirs.length := by
  simp [dir?]

theorem content?_take (outside : handle.level < level) :
    Fs.content? ⟨fs.dirs.take level⟩ handle = fs.content? handle := by
  simp [content?, dir?, outside]

end Fs

namespace World

variable (world : World) (fs : Fs)

@[simp] theorem changed_fs : (world.changed fs).fs = fs := rfl

@[simp] theorem changed_script : (world.changed fs).script = world.script := rfl

@[simp] theorem changed_trace : (world.changed fs).trace = world.trace := rfl

@[simp] theorem changed_disks : (world.changed fs).disks = world.disks ++ [world.fs] := rfl

def written (handle : Handle) (content bytes : List Byte) : World :=
  { world.changed (world.fs.put handle content) with trace := world.trace ++ [(handle, bytes)] }

variable (handle : Handle) (content bytes : List Byte)

@[simp] theorem written_fs :
    (world.written handle content bytes).fs = world.fs.put handle content := rfl

end World

def Passes (good : Fs → Prop) (before after : World) : Prop :=
  ∃ passed, after.disks = before.disks ++ passed ∧ ∀ disk ∈ passed, good disk

namespace Passes

variable {good better : Fs → Prop} {first second third : World}

theorem same (disks : second.disks = first.disks) : Passes good first second :=
  ⟨[], by rw [disks, append_nil], fun _ member => by cases member⟩

theorem refl (good : Fs → Prop) (world : World) : Passes good world world := .same rfl

theorem once (disks : second.disks = first.disks ++ [first.fs]) (here : good first.fs) :
    Passes good first second :=
  ⟨[first.fs], disks, fun disk member => by rwa [mem_singleton.mp member]⟩

theorem trans (front : Passes good first second) (back : Passes good second third) :
    Passes good first third := by
  obtain ⟨earlier, disks, before⟩ := front
  obtain ⟨later, disks', after⟩ := back
  refine ⟨earlier ++ later, by rw [disks', disks, append_assoc], ?_⟩
  intro disk member
  rcases mem_append.mp member with inside | inside
  · exact before disk inside
  · exact after disk inside

theorem mono (passes : Passes good first second) (weaker : ∀ disk, good disk → better disk) :
    Passes better first second := by
  obtain ⟨passed, disks, all⟩ := passes
  exact ⟨passed, disks, fun disk member => weaker disk (all disk member)⟩

end Passes

theorem run_fileWrite_done {world rest : World} {handle : Handle} {old bytes : List Byte}
    (next : nextOutcome.run world = (.ok .done, rest))
    (found : rest.fs.content? handle = some old) :
    (fileWrite handle bytes).run world = (.ok (min bytes.length maxTransfer : Nat),
        rest.written handle (old ++ bytes.take maxTransfer) bytes) := by
  have taken : bytes.take (min bytes.length maxTransfer) = bytes.take maxTransfer := by
    rw [Nat.min_comm, ← take_take, take_length]
  simp [fileWrite, run_bind_ok next, transfer, modifyFs, found, taken, World.written]

/-- Some files of the innermost directory, or the directory itself, may be gone. -/
structure Thinned (level : Nat) (before disk : Fs) : Prop where
  outer : level ≤ disk.dirs.length
  levels : disk.dirs.length ≤ level + 1
  others : ∀ handle : Handle, handle.level ≠ level → disk.content? handle = before.content? handle
  inside : ∀ name, disk.content? ⟨level, name⟩ = none ∨
    disk.content? ⟨level, name⟩ = before.content? ⟨level, name⟩

namespace Thinned

variable {level : Nat} {first second third : Fs}

theorem refl (outer : level ≤ first.dirs.length) (levels : first.dirs.length ≤ level + 1) :
    Thinned level first first :=
  ⟨outer, levels, fun _ _ => rfl, fun _ => .inr rfl⟩

theorem trans (front : Thinned level first second) (back : Thinned level second third) :
    Thinned level first third where
  outer := back.outer
  levels := back.levels
  others := fun handle outside => (back.others handle outside).trans (front.others handle outside)
  inside := by
    intro name
    rcases back.inside name with gone | same
    · exact .inl gone
    · rw [same]
      exact front.inside name

theorem remove (innermost : first.dirs.length = level + 1) (name : FileName) :
    Thinned level first (first.remove ⟨level, name⟩) where
  outer := by
    rw [Fs.dirs_length_remove]
    omega
  levels := Nat.le_of_eq ((Fs.dirs_length_remove _).trans innermost)
  others := fun handle outside => Fs.content?_remove_ne fun same => outside (by rw [← same])
  inside := by
    intro other
    by_cases same : other = name
    · subst same
      exact .inl Fs.content?_remove_same
    · refine .inr (Fs.content?_remove_ne fun equal => ?_)
      injection equal with _ names
      exact same names.symm

theorem drop (innermost : first.dirs.length = level + 1) :
    Thinned level first ⟨first.dirs.take level⟩ where
  outer := by simp [innermost]
  levels := by simp [innermost]
  others := by
    intro handle outside
    by_cases less : handle.level < level
    · exact Fs.content?_take less
    · have past : level + 1 ≤ handle.level := by omega
      have before : first.content? handle = none :=
        Fs.content?_of_level (by rw [innermost]; exact past) handle.name
      have after : Fs.content? ⟨first.dirs.take level⟩ handle = none :=
        Fs.content?_of_level (by simp only [length_take]; omega) handle.name
      rw [before, after]
  inside := by
    intro name
    exact .inl (Fs.content?_of_level (by simp only [length_take]; omega) name)

end Thinned

section Reliable

variable {world : World} (reliable : world.script = [])

include reliable

theorem run_nextOutcome : nextOutcome.run world = (.ok .done, world) := by
  simp [nextOutcome, run, reliable]

theorem run_openFile_existing {handle : Handle} {bytes : List Byte}
    (found : world.fs.content? handle = some bytes) :
    (openFile handle).run world = (.ok (), world) := by
  simp [openFile, run_bind_ok (run_nextOutcome reliable), found]

theorem run_openFile_new {handle : Handle} (missing : world.fs.content? handle = none) :
    (openFile handle).run world = (.ok (), world.changed (world.fs.put handle [])) := by
  simp [openFile, run_bind_ok (run_nextOutcome reliable), missing, modifyFs]

theorem run_fileSync (handle : Handle) : (fileSync handle).run world = (.ok 0, world) := by
  simp [fileSync, run_bind_ok (run_nextOutcome reliable)]

theorem run_removeFile {handle : Handle} (found : (world.fs.content? handle).isSome) :
    (removeFile handle).run world = (.ok (), world.changed (world.fs.remove handle)) := by
  have unlinked : (unlink handle).run world = (.ok true, world.changed (world.fs.remove handle)) := by
    simp [unlink, run_bind_ok (run_nextOutcome reliable), found, modifyFs]
  rw [removeFile, run_bind_ok unlinked]
  rfl

theorem run_rmdir {level : Nat} (innermost : world.fs.dirs.length = level + 1)
    (empty : ∀ name, world.fs.content? ⟨level, name⟩ = none) :
    (rmdir level).run world = (.ok true, world.changed ⟨world.fs.dirs.take level⟩) := by
  have present : (world.fs.dir? level).isSome := Fs.dir?_isSome_iff.mpr (by omega)
  obtain ⟨dir, found⟩ := isSome_iff_exists.mp present
  have none : dir.keys = [] := by
    rw [eq_nil_iff_forall_not_mem]
    intro name member
    have missing := empty name
    simp only [Fs.content?, found, bind_some] at missing
    rw [AList.lookup_eq_none] at missing
    exact missing member
  simp [rmdir, run_bind_ok (run_nextOutcome reliable), found, none, innermost, modifyFs]

theorem run_checkOrCreateDirectory_new {level : Nat} (missing : world.fs.dirs.length = level) :
    (checkOrCreateDirectory level).run world =
      (.ok true, world.changed ⟨world.fs.dirs ++ [∅]⟩) := by
  have absent : (isDirectoryExist level).run world = (.ok false, world) := by
    simp [isDirectoryExist, Fs.dir?, missing]
  have made : (mkdir level).run world = (.ok true, world.changed ⟨world.fs.dirs ++ [∅]⟩) := by
    simp [mkdir, run_bind_ok (run_nextOutcome reliable), missing, modifyFs]
  rw [checkOrCreateDirectory, run_bind_ok absent]
  exact made

end Reliable

theorem content?_create {level : Nat} {fs : Fs} (missing : fs.dirs.length = level)
    (handle : Handle) : Fs.content? ⟨fs.dirs ++ [∅]⟩ handle = fs.content? handle := by
  obtain ⟨depth, name⟩ := handle
  rcases Nat.lt_trichotomy depth level with less | same | more
  · simp [Fs.content?, Fs.dir?, List.getElem?_append_left (missing ▸ less)]
  · subst same
    simp [Fs.content?, Fs.dir?, ← missing]
  · have before : fs.content? ⟨depth, name⟩ = none := Fs.content?_of_level (by omega) name
    have after : Fs.content? ⟨fs.dirs ++ [∅]⟩ ⟨depth, name⟩ = none :=
      Fs.content?_of_level (by rw [length_append, length_singleton]; omega) name
    rw [before, after]

structure DirRemoved (level : Nat) (before after : World) : Prop where
  reliable : after.script = []
  trace : after.trace = before.trace
  levels : after.fs.dirs.length = level
  thinned : Thinned level before.fs after.fs
  passes : Passes (Thinned level before.fs) before after

section RemoveDir

variable {level : Nat}

theorem run_removeEntries (removeNested : Io Unit) (entries : List DirEntry) (world : World)
    (reliable : world.script = []) (innermost : world.fs.dirs.length = level + 1)
    (unique : entries.Nodup) (flat : .mergence ∉ entries)
    (files : ∀ name, .file name ∈ entries → (world.fs.content? ⟨level, name⟩).isSome) :
    ∃ reached, (forEach entries (removeEntry removeNested level)).run world = (.ok (), reached) ∧
      reached.script = [] ∧ reached.trace = world.trace ∧
      reached.fs.dirs.length = world.fs.dirs.length ∧
      (∀ name, .file name ∈ entries → reached.fs.content? ⟨level, name⟩ = none) ∧
      Thinned level world.fs reached.fs ∧ Passes (Thinned level world.fs) world reached := by
  induction entries generalizing world with
  | nil =>
    exact ⟨world, rfl, reliable, rfl, rfl, (fun _ member => by cases member),
      Thinned.refl (by omega) (by omega), Passes.refl _ _⟩
  | cons entry rest ih =>
    obtain ⟨first, others⟩ := nodup_cons.mp unique
    have flat' : .mergence ∉ rest := fun member => flat (mem_cons_of_mem _ member)
    have skip (skipped : (removeEntry removeNested level entry).run world = (.ok (), world))
        (noFile : ∀ name, entry ≠ .file name) :
        ∃ reached, (forEach (entry :: rest) (removeEntry removeNested level)).run world =
            (.ok (), reached) ∧
          reached.script = [] ∧ reached.trace = world.trace ∧
          reached.fs.dirs.length = world.fs.dirs.length ∧
          (∀ name, .file name ∈ entry :: rest → reached.fs.content? ⟨level, name⟩ = none) ∧
          Thinned level world.fs reached.fs ∧ Passes (Thinned level world.fs) world reached := by
      obtain ⟨reached, ran, script, trace, levels, gone, thinned, passes⟩ := ih world reliable
        innermost others flat' fun name member => files name (mem_cons_of_mem _ member)
      refine ⟨reached, ?_, script, trace, levels, ?_, thinned, passes⟩
      · rw [forEach, run_bind_ok skipped]
        exact ran
      · intro name member
        rcases mem_cons.mp member with same | later
        · exact absurd same.symm (noFile name)
        · exact gone name later
    cases entry with
    | dot | dotdot => exact skip rfl fun name same => by cases same
    | mergence => exact absurd mem_cons_self flat
    | file name =>
      have removed := run_removeFile reliable (files name mem_cons_self)
      have thin := Thinned.remove innermost name
      obtain ⟨reached, ran, script, trace, levels, gone, thinned, passes⟩ :=
        ih (world.changed (world.fs.remove ⟨level, name⟩)) reliable
          ((Fs.dirs_length_remove _).trans innermost) others flat' (by
          intro other member
          have different : (⟨level, name⟩ : Handle) ≠ ⟨level, other⟩ := by
            intro same
            injection same with _ names
            exact first (names ▸ member)
          rw [World.changed_fs, Fs.content?_remove_ne different]
          exact files other (mem_cons_of_mem _ member))
      have started : Passes (Thinned level world.fs) world
          (world.changed (world.fs.remove ⟨level, name⟩)) :=
        .once rfl (Thinned.refl (by omega) (by omega))
      refine ⟨reached, ?_, script, trace, ?_, ?_, thin.trans thinned,
        started.trans (passes.mono fun disk later => thin.trans later)⟩
      · rw [forEach, removeEntry, run_bind_ok removed]
        exact ran
      · rw [levels]
        exact Fs.dirs_length_remove _
      · intro other member
        rcases mem_cons.mp member with same | later
        · cases same
          rcases thinned.inside name with gone | same
          · exact gone
          · rw [same]
            exact Fs.content?_remove_same
        · exact gone other later

theorem run_removeDir (os : Os) {world : World} (reliable : world.script = [])
    (innermost : world.fs.dirs.length = level + 1) :
    ∃ reached, (removeDir os level).run world = (.ok (), reached) ∧
      DirRemoved level world reached := by
  have there : (world.fs.dir? level).isNone = false := by
    rw [isNone_eq_false_iff]
    exact Fs.dir?_isSome_iff.mpr (by omega)
  have listed := os.readdir_perm world.fs level
  have flat : .mergence ∉ os.readdir world.fs level := by
    rw [listed.mem_iff]
    have missing : world.fs.dir? (level + 1) = none := by simp [Fs.dir?, innermost]
    rw [Fs.entries]
    cases world.fs.dir? level with
    | none => exact not_mem_nil
    | some dir => simp [missing]
  obtain ⟨middle, ran, script, trace, levels, gone, thinned, passes⟩ :=
    run_removeEntries (removeDirDepth os world.fs.dirs.length (level + 1))
      (os.readdir world.fs level) world reliable innermost
      (listed.nodup_iff.mpr (world.fs.nodup_entries level)) flat
      fun name member => Fs.mem_entries_file.mp (listed.mem_iff.mp member)
  have empty : ∀ name, middle.fs.content? ⟨level, name⟩ = none := by
    intro name
    by_cases member : .file name ∈ os.readdir world.fs level
    · exact gone name member
    · rw [listed.mem_iff, Fs.mem_entries_file, not_isSome_iff_eq_none] at member
      rcases thinned.inside name with none | same
      · exact none
      · rw [same]
        exact member
  have innermost' : middle.fs.dirs.length = level + 1 := by rw [levels, innermost]
  have dropped := run_rmdir script innermost' empty
  refine ⟨middle.changed ⟨middle.fs.dirs.take level⟩, ?_, script, trace, ?_,
    thinned.trans (.drop innermost'), passes.trans (.once rfl thinned)⟩
  · simp only [removeDir, run_read_bind, removeDirDepth, there, Bool.false_eq_true, ↓reduceIte]
    rw [run_bind_ok ran, run_bind_ok dropped]
    rfl
  · simp [innermost']

end RemoveDir

end Bitdb
