import Bitdb.Data.DataFile
import Bitdb.Index.Indexer
import Mathlib.Data.List.Sort

/-! The database object (`bitdb/db.h`, `db.cpp` and `options.h`). A method runs on the
object and the disk together; both keep what was done before a failure. -/

set_option autoImplicit false

namespace Bitdb

open Base Program

/-- A directory: the path given by the user and the number of mergence directories
below it. -/
structure DirPath where
  root : String
  level : Nat
  deriving DecidableEq, Repr

structure Options where
  dirPath : DirPath
  dataFileSize : Nat
  isSyncWrite : Bool
  indexType : IndexerType
  deriving DecidableEq, Repr

def checkOptions (options : Options) : Except Stop Unit :=
  if options.dirPath.root.isEmpty then
    .error (.failed (.invalidArgument "Options" "dir_path is emtpy."))
  else if options.dataFileSize = 0 then
    .error (.failed (.invalidArgument "Options" "data file size isn't positive"))
  else .ok ()

/-- The map of older files can hold null pointers, which its `operator[]` inserts
for a missing id. -/
structure DB where
  options : Options
  activeFile : Option DataFile
  olderFiles : AList fun _ : Nat => Option DataFile
  index : Indexer
  fileIds : List Nat
  nextFileId : Nat
  txnId : UInt64
  isMerging : Bool

def DB.new (options : Options) : DB :=
  { options, activeFile := none, olderFiles := ∅, index := ∅, fileIds := [], nextFileId := 0,
    txnId := 0, isMerging := false }

structure Session where
  db : DB
  world : World

abbrev Method := Program Session Stop

def io {α : Type} (call : Io α) : Method α :=
  focus Session.world (fun world session => { session with world }) call

def modifyDb (change : DB → DB) : Method Unit :=
  modify fun session => { session with db := change session.db }

def readDb : Method DB := do return (← read).db

def onDb {α : Type} (db : DB) (method : Method α) : Io (α × DB) := fun world =>
  match method ⟨db, world⟩ with
  | (.ok value, session) => (.ok (value, session.db), session.world)
  | (.error stop, session) => (.error stop, session.world)

def checkMessage (file expression : String) (line : Nat) (function : String) : String :=
  expression ++ " at " ++ file ++ ": " ++ line.repr ++ ": " ++ function ++ "()"

def checkTrueIn {σ : Type} (file : String) (holds : Bool) (expression : String) (line : Nat)
    (function : String) (debug : String) : Program σ Stop Unit :=
  if holds then pure ()
  else stop (.failed (.checkError (checkMessage file expression line function) debug))

def checkTrue {σ : Type} (holds : Bool) (expression : String) (line : Nat) (function : String)
    (debug : String) : Program σ Stop Unit :=
  checkTrueIn "bitdb/db.cpp" holds expression line function debug

def derefActive : Method DataFile := do
  match (← readDb).activeFile with
  | none => stop (.faulted .nullPointer)
  | some file => return file

/-- What `data_file_ptr` points at: `active_file_` when it has the id, otherwise
`older_files_[fid]`, which inserts a null pointer for a missing id. -/
def dataFilePtr (fid : Nat) : Method (Option DataFile) := do
  let active ← derefActive
  if fid = active.fileId then return some active
  else
    match (← readDb).olderFiles.lookup fid with
    | some file => return file
    | none =>
      modifyDb fun db => { db with olderFiles := db.olderFiles.insert fid none }
      return none

def derefDataFile (fid : Nat) : Method DataFile := do
  match ← dataFilePtr fid with
  | none => stop (.faulted .nullPointer)
  | some file => return file

def newActiveDataFile : Method Unit := do
  let db ← readDb
  let file ← io (DataFile.openDataFile db.options.dirPath.level db.nextFileId)
  modifyDb fun db => { db with nextFileId := db.nextFileId + 1, activeFile := some file }

/-- `older_files_[active_file_->file_id] = std::move(active_file_)`, then a new
active file. -/
def rotate (active : DataFile) : Method Unit := do
  modifyDb fun db =>
    { db with olderFiles := db.olderFiles.insert active.fileId (some active), activeFile := none }
  newActiveDataFile

def ensureActive : Method Unit := do
  if (← readDb).activeFile.isNone then newActiveDataFile

/-- The first half of `AppendLogRecord`: have an active file, and close it when it
would grow past the limit, also when it is still empty. -/
def makeRoom (size : Nat) : Method Unit := do
  ensureActive
  let active ← derefActive
  if (← readDb).options.dataFileSize < active.writeOff + size then
    io active.sync
    rotate active

/-- The second half of `AppendLogRecord`: write to the active file and return where the
bytes start. -/
def writeActive (bytes : List Byte) : Method LogRecordPst := do
  let active ← derefActive
  let written ← io (active.write bytes)
  modifyDb fun db => { db with activeFile := some written }
  if (← readDb).options.isSyncWrite then io written.sync
  return ⟨active.fileId, active.writeOff⟩

def appendLogRecord (env : Platform) (record : LogRecord) : Method LogRecordPst := do
  let encodeBytes := encodeLogRecord env.crc record
  makeRoom encodeBytes.length
  writeActive encodeBytes

def put (env : Platform) (key value : Bytes) : Method Status := do
  if key.empty then stop (.failed (.invalidArgument "DB::Put" "key is empty"))
  let encodedKey ← ofExcept (encodeLogRecordWithTxnID key nonTxnId)
  let pst ← appendLogRecord env ⟨encodedKey, value.cString, .normal⟩
  let (holds, index) := (← readDb).index.put key pst
  modifyDb fun db => { db with index }
  checkTrue holds "index_->Put(key, pst)" 67 "Put"
    ("fail to put index of key: " ++ text key.toString)
  return .ok

/-- The value stored at a position. `out` is false when the caller passed a null
pointer for the value. -/
def getValueByLogRecordPst (env : Platform) (pst : LogRecordPst) (key : Bytes) (out : Bool) :
    Method (List Byte) := do
  match ← dataFilePtr pst.fid with
  | none => stop (.failed (.notFound "DataFile"
      ("data file of key: " ++ text key.toString ++ " Not found")))
  | some file =>
    let (record, _) ← io (file.readLogRecordAt env.crc pst.offset)
    if record.type = .deleted then
      stop (.failed (.notFound "index"
        ("index of key " ++ text key.toString ++ " not_found")))
    else if out then return record.value
    else stop (.faulted .nullPointer)

def get (env : Platform) (key : Bytes) (out : Bool) : Method (List Byte) := do
  if key.empty then stop (.failed (.invalidArgument "DB::Get" "key is empty"))
  match (← readDb).index.get key with
  | none => stop (.failed (.notFound "index"
      ("index of key " ++ text key.toString ++ " not_found")))
  | some pst => getValueByLogRecordPst env pst key out

/-- The position object found in the index is overwritten with the position of the
tombstone before the key is unlinked. -/
def delete (env : Platform) (key : Bytes) : Method Status := do
  if key.empty then stop (.failed (.invalidArgument "DB::Delete" "key is empty"))
  match (← readDb).index.get key with
  | none => return .okWith "DB::Delete" ("key: " ++ text key.toString ++ " don't exist.")
  | some _ =>
    let encodedKey ← ofExcept (encodeLogRecordWithTxnID key nonTxnId)
    let pst ← appendLogRecord env ⟨encodedKey, [], .deleted⟩
    modifyDb fun db => { db with index := db.index.insert key.cString pst }
    let (holds, index) := (← readDb).index.delete key
    modifyDb fun db => { db with index }
    checkTrue holds "index_->Delete(key, &pst)" 104 "Delete"
      ("index delete key: " ++ text key.toString ++ " failed.")
    return .ok

def sync : Method Status := do
  let active ← derefActive
  io active.sync
  return .ok

def toDecimal (number : Nat) : List Byte :=
  (Nat.toDigits 10 number).map fun digit => UInt8.ofNat digit.toNat

def isSpace (character : Char) : Bool :=
  character = ' ' ∨ (9 ≤ character.toNat ∧ character.toNat ≤ 13)

def splitSign : List Char → Bool × List Char
  | '-' :: rest => (true, rest)
  | '+' :: rest => (false, rest)
  | rest => (false, rest)

/-- `std::stoi`: leading blanks, a sign and the digits behind it. It throws when there
is no digit and when the number does not fit a 32-bit `int`. -/
def stoi (decimal : List Byte) : Except Stop Int :=
  let characters := decimal.map fun byte => Char.ofNat byte.toNat
  let (negative, rest) := splitSign (characters.dropWhile isSpace)
  let digits := rest.takeWhile Char.isDigit
  let magnitude : Int := Nat.ofDigitChars 10 digits 0
  let number := if negative then -magnitude else magnitude
  if digits.isEmpty ∨ number < -0x80000000 ∨ 0x80000000 ≤ number then
    .error (.faulted .uncaughtException)
  else .ok number

/-- The first data file a finished merge did not replace; the `int` is converted to
`uint32_t`. -/
def getNonMergedFileID (env : Platform) (level : Nat) : Io Nat := do
  let mergedFile ← DataFile.openMergedFile level
  let (record, _) ← mergedFile.readLogRecordAt env.crc 0
  let number ← ofExcept (stoi record.value)
  return (number % 0x100000000).toNat

/-- The body of `LoadMergenceFiles` between opening and removing the mergence
directory. -/
def installMergence (env : Platform) (level : Nat) (entries : List DirEntry) : Io Status := do
  if DirEntry.file .merged ∈ entries then
    let nonMergedFileId ← getNonMergedFileID env (getMergenceDirectory level)
    forEach (List.range nonMergedFileId) fun fileId => removeFile ⟨level, .data fileId⟩
    forEach entries fun entry => do
      let renamed ← rename (getMergenceDirectory level) level entry
      checkTrue renamed "std::rename(src_path.c_str(), dst_path.c_str()) == 0" 383
        "LoadMergenceFiles" ""
    return .ok
  else return .okWith "DB::LoadMergenceFiles" "mergence is not finished"

/-- Install a finished merge; the mergence directory is removed on every return. -/
def loadMergenceFiles (env : Platform) : Method Status := do
  let level := (← readDb).options.dirPath.level
  let mergeDir := getMergenceDirectory level
  let world := (← read).world
  if (world.fs.dir? mergeDir).isNone then
    return .okWith "DB::LoadMergenceFiles" "have no mergence files"
  else
    io ((installMergence env level (env.os.readdir world.fs mergeDir)).withCleanup Stop.unwinds
      (removeDir env.os mergeDir))

def dataFileIds (entries : List DirEntry) : List Nat :=
  entries.filterMap fun entry =>
    match entry with
    | .file (.data fileId) => some fileId
    | _ => none

def openDataFiles : List Nat → Method Unit
  | [] => pure ()
  | fid :: rest => do
      let db ← readDb
      let file ← io (DataFile.openDataFile db.options.dirPath.level fid)
      modifyDb fun db =>
        if rest.isEmpty then { db with activeFile := some file }
        else { db with olderFiles := db.olderFiles.insert fid (some file) }
      openDataFiles rest

def loadDataFiles (env : Platform) : Method Status := do
  let level := (← readDb).options.dirPath.level
  let world := (← read).world
  if (world.fs.dir? level).isNone then
    stop (.failed (.invalidArgument "DB::LoadDataFiles" "failed to open dir."))
  let fileIds := (dataFileIds (env.os.readdir world.fs level)).insertionSort (· ≤ ·)
  modifyDb fun db => { db with fileIds }
  openDataFiles fileIds
  modifyDb fun db =>
    { db with nextFileId := match db.activeFile with
        | none => 0
        | some active => active.fileId + 1 }
  return .ok

def loadHintRecords (env : Platform) (hintFile : DataFile) : Nat → Nat → Method Unit
  | 0, _ => stop .looping
  | fuel + 1, offset => do
      let (record, size) ← io (hintFile.readLogRecordAt env.crc offset)
      if size = 0 then return ()
      else
        let pst ← ofExcept (decodeLogRecordPosition (.ofString record.value))
        let (holds, index) := (← readDb).index.put (.ofString record.key) pst
        modifyDb fun db => { db with index }
        checkTrue holds "index_->Put(log_record.key, pst)" 510 "LoadIndexFromHintFile"
          ("fail to put index of key: " ++ text record.key)
        loadHintRecords env hintFile fuel (offset + size)

def loadIndexFromHintFile (env : Platform) : Method Status := do
  let level := (← readDb).options.dirPath.level
  if ← io (isFileExist ⟨level, .hintIndex⟩) then
    let hintFile ← io (DataFile.openHintFile level)
    let world := (← read).world
    loadHintRecords env hintFile ((world.fs.content hintFile.handle).length + 1) 0
    return .ok
  else return .okWith "DB::LoadIndexFromHintFile" "has no hint file"

structure LoadState where
  currentTxnId : UInt64
  txnRecords : AList fun _ : UInt32 => List TxnRecord

/-- The lambda `update_index`. A tombstone must find its key. -/
def updateIndex (key : Bytes) (type : LogRecordType) (pst : LogRecordPst) : Method Unit := do
  if type = .deleted then
    let (holds, index) := (← readDb).index.delete key
    modifyDb fun db => { db with index }
    checkTrue holds "this->index_->Delete(key, nullptr)" 437 "operator()" ""
  else
    let (holds, index) := (← readDb).index.put key pst
    modifyDb fun db => { db with index }
    checkTrue holds "this->index_->Put(key, pst)" 439 "operator()" ""

/-- Records outside a transaction take effect at once, the others when their
transaction is finished. The map of pending transactions is keyed by 32 bits of the id. -/
def updateTxnRecords (realKey : List Byte) (txnId : UInt64) (record : LogRecord)
    (pst : LogRecordPst) (txnRecords : AList fun _ : UInt32 => List TxnRecord) :
    Method (AList fun _ : UInt32 => List TxnRecord) :=
  let pending := (txnRecords.lookup txnId.toUInt32).getD []
  if txnId = nonTxnId then do
    updateIndex (.ofString realKey) record.type pst
    return txnRecords
  else if record.type = .txnFinished then do
    forEach pending fun txnRecord =>
      updateIndex (.ofString txnRecord.logRecord.key) txnRecord.logRecord.type txnRecord.pst
    return txnRecords.erase txnId.toUInt32
  else
    return txnRecords.insert txnId.toUInt32 (pending ++ [⟨{ record with key := realKey }, pst⟩])

def loadRecord (fid offset : Nat) (record : LogRecord) (state : LoadState) :
    Method LoadState := do
  let (realKey, txnId) ← ofExcept (decodeLogRecordWithTxnID (.ofString record.key))
  let txnRecords ← updateTxnRecords realKey txnId record ⟨fid, offset⟩ state.txnRecords
  return ⟨max state.currentTxnId txnId, txnRecords⟩

/-- Replay one file from `offset` and return the offset of its end. -/
def loadFile (env : Platform) (fid : Nat) (file : DataFile) :
    Nat → Nat → LoadState → Method (LoadState × Nat)
  | 0, _, _ => stop .looping
  | fuel + 1, offset, state => do
      let (record, size) ← io (file.readLogRecordAt env.crc offset)
      if size = 0 then return (state, offset)
      else
        let state ← loadRecord fid offset record state
        loadFile env fid file fuel (offset + size) state

/-- The end of the last file becomes the write offset of the active file. -/
def setWriteOff (isLast : Bool) (offset : Nat) : Method Unit := do
  if isLast then
    let active ← derefActive
    modifyDb fun db => { db with activeFile := some { active with writeOff := offset } }

def loadFiles (env : Platform) (nonMergedFileId : Option Nat) :
    List Nat → LoadState → Method LoadState
  | [], state => pure state
  | fid :: rest, state => do
      if nonMergedFileId.any (fid < ·) then loadFiles env nonMergedFileId rest state
      else
        let file ← derefDataFile fid
        let world := (← read).world
        let (state, offset) ←
          loadFile env fid file ((world.fs.content file.handle).length + 1) 0 state
        setWriteOff rest.isEmpty offset
        loadFiles env nonMergedFileId rest state

/-- `non_merged_file_id` when the directory has been merged before. -/
def findNonMergedFileID (env : Platform) (level : Nat) : Io (Option Nat) := do
  if ← isFileExist ⟨level, .merged⟩ then
    let fileId ← getNonMergedFileID env level
    return some fileId
  else return none

def loadIndexFromDataFiles (env : Platform) : Method Status := do
  let db ← readDb
  if db.fileIds.isEmpty then return .ok
  else
    let nonMergedFileId ← io (findNonMergedFileID env db.options.dirPath.level)
    let state ← loadFiles env nonMergedFileId db.fileIds ⟨nonTxnId, ∅⟩
    modifyDb fun db => { db with txnId := state.currentTxnId, fileIds := [] }
    return .ok

/-- Copy the live records of one file to the temporary database and note their new
positions in the hint file. A record is live when the index points at it. -/
def mergeFile (env : Platform) (file : DataFile) :
    Nat → Nat → DB → DataFile → Method (DB × DataFile)
  | 0, _, _, _ => stop .looping
  | fuel + 1, offset, tempDb, hintFile => do
      let (record, size) ← io (file.readLogRecordAt env.crc offset)
      if size = 0 then return (tempDb, hintFile)
      else
        let (realKey, _) ← ofExcept (decodeLogRecordWithTxnID (.ofString record.key))
        if (← readDb).index.get (.ofString realKey) = some ⟨file.fileId, offset⟩ then
          let encodedKey ← ofExcept
            (encodeLogRecordWithTxnID (.ofString realKey) nonTxnId)
          let (tmpPst, tempDb) ← io (onDb tempDb
            (appendLogRecord env { record with key := encodedKey }))
          let hintFile ← io (writeHintRecord env.crc hintFile (.ofString realKey) tmpPst)
          mergeFile env file fuel (offset + size) tempDb hintFile
        else mergeFile env file fuel (offset + size) tempDb hintFile

def mergeFiles (env : Platform) : List DataFile → DB → DataFile → Method (DB × DataFile)
  | [], tempDb, hintFile => pure (tempDb, hintFile)
  | file :: rest, tempDb, hintFile => do
      let world := (← read).world
      let (tempDb, hintFile) ← mergeFile env file
        ((world.fs.content file.handle).length + 1) 0 tempDb hintFile
      mergeFiles env rest tempDb hintFile

/-- The pointers to the older files; sorting them dereferences every one. -/
def filesToBeMerged (db : DB) : Except Stop (List DataFile) :=
  match (db.olderFiles.entries.map fun entry => entry.snd).mapM id with
  | none => .error (.faulted .nullPointer)
  | some files => .ok (files.insertionSort fun left right => left.fileId ≤ right.fileId)

/-- Remove what an earlier merge has left behind and make the directory anew. -/
def renewDirectory (os : Os) (level : Nat) : Io Bool := do
  if ← isDirectoryExist level then
    removeDir os level
    checkOrCreateDirectory level
  else checkOrCreateDirectory level

/-- The end of `Merge`: flush the hint file and the temporary database, then mark the
merge as finished. -/
def finishMerge (env : Platform) (mergeDir nonMergedFileId : Nat) (tempDb : DB)
    (hintFile : DataFile) : Io Status := do
  hintFile.sync
  let _ ← onDb tempDb sync
  let mergedFile ← DataFile.openMergedFile mergeDir
  let mergedFile ← mergedFile.write
    (encodeLogRecord env.crc ⟨mergedLogRecordKey, toDecimal nonMergedFileId, .unset⟩)
  mergedFile.sync
  return .ok

/-- The part of `Merge` that runs while `is_merging_` is set. `openTemp` opens the
temporary database. -/
def mergeBody (env : Platform) (openTemp : Options → Io DB) (active : DataFile) :
    Method Status := do
  io active.sync
  let nonMergedFileId := active.fileId
  rotate active
  let files ← ofExcept (filesToBeMerged (← readDb))
  let options := (← readDb).options
  let mergeDir := getMergenceDirectory options.dirPath.level
  checkTrue (← io (renewDirectory env.os mergeDir)) "CheckOrCreateDirectory(merge_dir)" 211
    "Merge" ""
  let mergenceOptions :=
    { options with dirPath := { options.dirPath with level := mergeDir }, isSyncWrite := false }
  let tempDb ← io (openTemp mergenceOptions)
  let hintFile ← io (DataFile.openHintFile mergeDir)
  let (tempDb, hintFile) ← mergeFiles env files tempDb hintFile
  io (finishMerge env mergeDir nonMergedFileId tempDb hintFile)

def merge (env : Platform) (openTemp : Options → Io DB) : Method Status := do
  match (← readDb).activeFile with
  | none => return .ok
  | some active =>
    if (← readDb).isMerging then
      stop (.failed (.checkError "DB::Merge"
        "merging is in process, one time for one merging, try again later"))
    else
      modifyDb fun db => { db with isMerging := true }
      (mergeBody env openTemp active).withCleanup Stop.unwinds
        (modifyDb fun db => { db with isMerging := false })

def loadAll (env : Platform) : Method Unit := do
  let _ ← loadMergenceFiles env
  let _ ← loadDataFiles env
  let _ ← loadIndexFromHintFile env
  let _ ← loadIndexFromDataFiles env

/-- `Open` and `Merge` call each other; `depth` bounds the nesting. -/
def openDepth (env : Platform) : Nat → Options → Bool → Io DB
  | 0, _, _ => stop .looping
  | depth + 1, options, mergeAfterOpen => do
      ofExcept (checkOptions options)
      checkTrue (← checkOrCreateDirectory options.dirPath.level)
        "CheckOrCreateDirectory(options.dir_path)" 34 "Open" ""
      let (_, db) ← onDb (DB.new options) do
        loadAll env
        if mergeAfterOpen then
          let _ ← merge env fun mergenceOptions => openDepth env depth mergenceOptions true
      return db

/-- The temporary database of a merge is opened on a new directory, has no active
file and does not merge again, so two levels of nesting are all there is. -/
def openDb (env : Platform) (options : Options) (mergeAfterOpen : Bool) : Io DB :=
  openDepth env 2 options mergeAfterOpen

def mergeDb (env : Platform) : Method Status :=
  merge env fun mergenceOptions => openDepth env 1 mergenceOptions true

end Bitdb
