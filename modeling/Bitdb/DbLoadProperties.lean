import Bitdb.DbOperationsProperties

/-! Loading a database from its data files: the loop over the records of a file replays their
entries. -/

set_option autoImplicit false

namespace Bitdb

open Base List Program Function Located DataFile

def missingKeyStatus : Status :=
  .checkError (checkMessage "bitdb/db.cpp" "this->index_->Delete(key, nullptr)" 437
    "operator()") ""

/-- A method changes the index as the map is updated, or meets a tombstone without its key. -/
def Updates {α β : Type} (session : Session) (updated : Option β) (after : α → Indexer → β → Prop)
    (result : Except Stop α × Session) : Prop :=
  match updated with
  | some reached => ∃ value index, result = (.ok value, session.withIndex index) ∧
      after value index reached
  | none => ∃ index, result = (.error (.failed missingKeyStatus), session.withIndex index)

variable {session : Session}

theorem Updates.bind {α β γ δ : Type} {updated : Option β} {after : α → Indexer → β → Prop}
    {method : Method α} {next : α → Method γ} {more : β → Option δ} {done : γ → Indexer → δ → Prop}
    (first : Updates session updated after (method.run session))
    (later : ∀ value index reached, after value index reached →
      Updates (session.withIndex index) (more reached) done
        ((next value).run (session.withIndex index))) :
    Updates session (updated.bind more) done ((method >>= next).run session) := by
  cases updated with
  | none =>
    obtain ⟨index, ran⟩ := first
    exact ⟨index, run_bind_error ran⟩
  | some reached =>
    obtain ⟨value, index, ran, holds⟩ := first
    rw [run_bind_ok ran]
    exact later value index reached holds

theorem updates_updateIndex {live : List Byte → Option Slot} (found : Located) {key : List Byte}
    (nulFree : 0 ∉ key) (shows : session.db.index.Shows live) :
    Updates session ((action key found).apply live)
      (fun _ index reached => index.Shows reached)
      ((updateIndex (.ofString key) found.2.type found.1).run session) := by
  by_cases tombstone : found.2.type = .deleted
  · have present : (session.db.index.lookup (Bytes.ofString key).cString).isSome =
        (live key).isSome := by
      rw [Bytes.cString_ofString nulFree, shows key, Option.isSome_map]
    simp only [action, tombstone, ↓reduceIte, Journal.Action.apply, updateIndex,
      run_readDb_bind, Indexer.delete, present, Bytes.cString_ofString nulFree]
    cases (live key).isSome with
    | true => exact ⟨(), session.db.index.erase key, rfl, shows.erase key⟩
    | false => exact ⟨session.db.index.erase key, rfl⟩
  · simp only [action, tombstone, ↓reduceIte, Journal.Action.apply, updateIndex,
      run_readDb_bind, Indexer.put, Bytes.cString_ofString nulFree]
    exact ⟨(), session.db.index.insert key found.1, rfl, shows.insert key ⟨_, _⟩⟩

def TxnRecord.action (txnRecord : TxnRecord) : KeyAction :=
  Located.action txnRecord.logRecord.key (txnRecord.pst, txnRecord.logRecord)

abbrev TxnRecords := AList fun _ : UInt32 => List TxnRecord

def TxnRecords.of (txnRecords : TxnRecords) (txn : UInt32) : List TxnRecord :=
  (txnRecords.lookup txn).getD []

/-- The local variables of the loop stand for the state of the replay. -/
structure Tracks (index : Indexer) (txnRecords : TxnRecords) (state : KeyState) : Prop where
  shows : index.Shows state.live
  pending : ∀ txn : UInt32,
    (TxnRecords.of txnRecords txn).map TxnRecord.action = state.pending txn.toNat
  nulFree : ∀ (txn : UInt32), ∀ txnRecord ∈ TxnRecords.of txnRecords txn,
    0 ∉ txnRecord.logRecord.key

theorem updates_updatePending {live : List Byte → Option Slot} {waiting : List TxnRecord}
    (nulFree : ∀ txnRecord ∈ waiting, 0 ∉ txnRecord.logRecord.key)
    (shows : session.db.index.Shows live) :
    Updates session (Journal.applyAll live (waiting.map TxnRecord.action))
      (fun _ index reached => index.Shows reached)
      ((forEach waiting fun txnRecord =>
        updateIndex (.ofString txnRecord.logRecord.key) txnRecord.logRecord.type
          txnRecord.pst).run session) := by
  induction waiting generalizing session live with
  | nil => exact ⟨(), session.db.index, rfl, shows⟩
  | cons txnRecord waiting ih =>
    rw [map_cons, Journal.applyAll, forEach]
    exact (updates_updateIndex (txnRecord.pst, txnRecord.logRecord)
      (nulFree txnRecord mem_cons_self) shows).bind fun _ index reached later =>
        ih (fun other member => nulFree other (mem_cons_of_mem _ member)) later

section LoadRecord

variable {session : Session} {txnRecords : TxnRecords} {state : KeyState} {record : LogRecord}
  {key : List Byte} {txnId : UInt64} {pst : LogRecordPst}

theorem Tracks.update {index : Indexer} {live : List Byte → Option Slot} {others : TxnRecords}
    {txn : UInt32} {waiting : List TxnRecord} (tracks : Tracks session.db.index txnRecords state)
    (shows : index.Shows live) (here : TxnRecords.of others txn = waiting)
    (elsewhere : ∀ other ≠ txn, TxnRecords.of others other = TxnRecords.of txnRecords other)
    (nulFree : ∀ txnRecord ∈ waiting, 0 ∉ txnRecord.logRecord.key) :
    Tracks index others
      ⟨live, update state.pending txn.toNat (waiting.map TxnRecord.action)⟩ := by
  refine ⟨shows, fun other => ?_, fun other txnRecord member => ?_⟩
  · by_cases same : other = txn
    · simp only [same, here, update_self]
    · have different : other.toNat ≠ txn.toNat := fun equal => same (UInt32.toNat_inj.mp equal)
      simp only [elsewhere other same, tracks.pending, update_of_ne different]
  · by_cases same : other = txn
    · rw [same, here] at member
      exact nulFree txnRecord member
    · rw [elsewhere other same] at member
      exact tracks.nulFree other txnRecord member

theorem updates_updateTxnRecords (nulFree : 0 ∉ key)
    (tracks : Tracks session.db.index txnRecords state) :
    Updates session (state.step (entryFor key txnId (pst, record)))
      (fun txnRecords index reached => Tracks index txnRecords reached)
      ((updateTxnRecords key txnId record pst txnRecords).run session) := by
  by_cases single : txnId = nonTxnId
  · simp only [entryFor, single, ↓reduceIte, Journal.State.step, updateTxnRecords,
      Option.map_eq_bind]
    exact (updates_updateIndex (pst, record) nulFree tracks.shows).bind fun _ index live shows =>
      ⟨txnRecords, index, rfl, shows, tracks.pending, tracks.nulFree⟩
  · by_cases finished : record.type = .txnFinished
    · simp only [entryFor, single, finished, ↓reduceIte, Journal.State.step,
        updateTxnRecords, Option.map_eq_bind, ← tracks.pending]
      refine (updates_updatePending (tracks.nulFree _) tracks.shows).bind
        fun _ index live shows => ⟨txnRecords.erase txnId.toUInt32, index, rfl, ?_⟩
      have erased : TxnRecords.of (txnRecords.erase txnId.toUInt32) txnId.toUInt32 = [] := by
        simp [TxnRecords.of]
      refine tracks.update shows erased (fun other different => ?_) (by rintro _ ⟨⟩)
      rw [TxnRecords.of, AList.lookup_erase_ne different]
      rfl
    · simp only [entryFor, single, finished, ↓reduceIte, Journal.State.step,
        updateTxnRecords, ← tracks.pending]
      have newest : TxnRecord.action ⟨{ record with key := key }, pst⟩ =
          action key (pst, record) := rfl
      rw [← newest, ← map_singleton, ← map_append]
      refine ⟨_, session.db.index, rfl, tracks.update tracks.shows
        (by simp [TxnRecords.of]) (fun other different => ?_) fun txnRecord member => ?_⟩
      · rw [TxnRecords.of, AList.lookup_insert_ne different]
        rfl
      · rcases mem_append.mp member with before | newest
        · exact tracks.nulFree _ txnRecord before
        · rw [mem_singleton.mp newest]
          exact nulFree

end LoadRecord

def Located.txnId (found : Located) : UInt64 :=
  match decodeLogRecordWithTxnID (.ofString found.2.key) with
  | .ok (_, txnId) => txnId
  | .error _ => nonTxnId

theorem LogRecord.Tagged.txnId_eq {record : LogRecord} {key : List Byte} {txnId : UInt64}
    (tagged : record.Tagged key txnId) (pst : LogRecordPst) :
    Located.txnId (pst, record) = txnId := by
  simp only [Located.txnId, tagged.decode]

def maxTxnId (start : UInt64) (records : List Located) : UInt64 :=
  records.foldl (fun largest found => max largest found.txnId) start

@[simp] theorem maxTxnId_append (start : UInt64) (front back : List Located) :
    maxTxnId start (front ++ back) = maxTxnId (maxTxnId start front) back :=
  foldl_append

/-- What a part of the loading loop may end with: the state of a replay that succeeds, or
the status of the first tombstone without its key. -/
def Loads {α : Type} (session : Session) (replayed : Option KeyState)
    (result : Except Stop α × Session) (done : α → LoadState → Prop) (largest : UInt64) : Prop :=
  match replayed with
  | some reached => ∃ value index load, result = (.ok value, session.withIndex index) ∧
      done value load ∧ Tracks index load.txnRecords reached ∧ load.currentTxnId = largest
  | none => ∃ index, result = (.error (.failed missingKeyStatus), session.withIndex index)

theorem loads_iff {α : Type} {replayed : Option KeyState} {result : Except Stop α × Session}
    {done : α → LoadState → Prop} {largest : UInt64} :
    Loads session replayed result done largest ↔
      Updates session replayed (fun value index reached => ∃ load, done value load ∧
        Tracks index load.txnRecords reached ∧ load.currentTxnId = largest) result := by
  cases replayed with
  | none => rfl
  | some reached => simp only [Loads, Updates, exists_and_left]

section Read

variable {crc : Crc32c} {session : Session} {file : DataFile} {front rest : List LogRecord}

theorem run_readNext {record : LogRecord} (storable : record.Storable crc)
    (content : session.world.fs.content file.handle = fileBytes crc (front ++ record :: rest)) :
    (io (file.readLogRecordAt crc (fileBytes crc front).length)).run session =
      (.ok (record, (encodeLogRecord crc record).length), session) := by
  have layout : fileBytes crc (front ++ record :: rest) =
      fileBytes crc front ++ encodeLogRecord crc record ++ fileBytes crc rest := by simp
  refine run_io ?_
  rw [readLogRecordAt, run_read_bind, run_ofExcept, content, layout, readLogRecord_at storable]

theorem run_readEnd (content : session.world.fs.content file.handle = fileBytes crc front)
    (nonempty : fileBytes crc front ≠ []) :
    (io (file.readLogRecordAt crc (fileBytes crc front).length)).run session =
      (.ok (.blank, 0), session) := by
  refine run_io ?_
  rw [readLogRecordAt, run_read_bind, run_ofExcept, content, readLogRecord_end crc nonempty]

theorem length_fileBytes_concat (crc : Crc32c) (front : List LogRecord) (record : LogRecord) :
    (fileBytes crc (front ++ [record])).length =
      (fileBytes crc front).length + (encodeLogRecord crc record).length := by
  simp

end Read

section LoadFile

variable {env : Platform} {session : Session} {load : LoadState} {state : KeyState}

theorem run_loadRecord {record : LogRecord} {key : List Byte} {txnId : UInt64}
    (tagged : record.Tagged key txnId) (fid offset : Nat)
    (tracks : Tracks session.db.index load.txnRecords state) :
    Loads session (state.step (entry (⟨fid, offset⟩, record)))
      ((loadRecord fid offset record load).run session) Eq (max load.currentTxnId txnId) := by
  simp only [loads_iff, tagged.entry, loadRecord, tagged.decode, run_ofExcept_ok_bind]
  rw [← Option.bind_fun_some (state.step _)]
  exact (updates_updateTxnRecords tagged.nulFree tracks).bind
    fun txnRecords index reached later => ⟨_, index, rfl, _, rfl, later, rfl⟩

theorem run_loadFile (fid : Nat) (file : DataFile) (front rest : List LogRecord) (fuel : Nat)
    (session : Session) (load : LoadState) (state : KeyState)
    (content : session.world.fs.content file.handle = fileBytes env.crc (front ++ rest))
    (nonempty : fileBytes env.crc (front ++ rest) ≠ [])
    (storable : ∀ record ∈ rest, record.Storable env.crc)
    (tagged : ∀ record ∈ rest, ∃ key txnId, record.Tagged key txnId) (enough : rest.length < fuel)
    (tracks : Tracks session.db.index load.txnRecords state) :
    Loads session
      (Journal.replay state ((located env.crc fid (fileBytes env.crc front).length rest).map entry))
      ((loadFile env fid file fuel (fileBytes env.crc front).length load).run session)
      (fun value reached => value = (reached, (fileBytes env.crc (front ++ rest)).length))
      (maxTxnId load.currentTxnId (located env.crc fid (fileBytes env.crc front).length rest)) := by
  induction rest generalizing front fuel session load state with
  | nil =>
    obtain ⟨fuel, rfl⟩ : ∃ more, fuel = more + 1 := ⟨fuel - 1, by omega⟩
    simp only [append_nil] at content nonempty ⊢
    have read := run_readEnd content nonempty
    refine ⟨(load, (fileBytes env.crc front).length), session.db.index, load, ?_, rfl, tracks, rfl⟩
    rw [loadFile, run_bind_ok read]
    rfl
  | cons record rest ih =>
    obtain ⟨fuel, rfl⟩ : ∃ more, fuel = more + 1 := ⟨fuel - 1, by omega⟩
    have here := storable record (by simp)
    obtain ⟨key, txnId, tag⟩ := tagged record (by simp)
    have positive : 6 < (encodeLogRecord env.crc record).length :=
      encodeLogRecord_length_pos here.keyed
    have nonzero : ¬ (encodeLogRecord env.crc record).length = 0 := by omega
    have regroup : front ++ [record] ++ rest = front ++ record :: rest := by simp
    have advanced := length_fileBytes_concat env.crc front record
    have read := run_readNext here content
    have round := run_loadRecord tag fid (fileBytes env.crc front).length tracks
    have unfolded : (loadFile env fid file (fuel + 1) (fileBytes env.crc front).length load).run
        session = (do
          let load ← loadRecord fid (fileBytes env.crc front).length record load
          loadFile env fid file fuel (fileBytes env.crc (front ++ [record])).length load :
            Method (LoadState × Nat)).run session := by
      rw [loadFile, run_bind_ok read, advanced]
      simp only [nonzero, ↓reduceIte]
    rw [unfolded, located, map_cons, Journal.replay, here.writtenBytes_eq, ← advanced]
    rw [loads_iff] at round ⊢
    refine round.bind fun value index next after => ?_
    obtain ⟨_, rfl, tracks', largest⟩ := after
    have later := ih (front ++ [record]) fuel (session.withIndex index) value next
      (by rw [regroup]; exact content) (by rw [regroup]; exact nonempty)
      (fun other member => storable other (by simp [member]))
      (fun other member => tagged other (by simp [member]))
      (by simpa using enough) tracks'
    have folded : maxTxnId load.currentTxnId
        ((⟨fid, (fileBytes env.crc front).length⟩, record) ::
          located env.crc fid (fileBytes env.crc (front ++ [record])).length rest) =
        maxTxnId (max load.currentTxnId txnId)
          (located env.crc fid (fileBytes env.crc (front ++ [record])).length rest) := by
      simp only [maxTxnId, foldl_cons, tag.txnId_eq]
    rw [regroup, largest, loads_iff, ← folded] at later
    exact later

end LoadFile

section DataFiles

variable {env : Platform} {fs : Fs} {level : Nat} {files : List FileLog}

theorem mem_dataFileIds {entries : List DirEntry} {fileId : Nat} :
    fileId ∈ dataFileIds entries ↔ .file (.data fileId) ∈ entries := by
  constructor
  · intro member
    obtain ⟨entry, inside, selected⟩ := mem_filterMap.mp member
    cases entry with
    | dot | dotdot | mergence => cases selected
    | file name =>
      cases name with
      | data other =>
        cases selected
        exact inside
      | hintIndex | merged => cases selected
  · intro inside
    exact mem_filterMap.mpr ⟨_, inside, rfl⟩

theorem FilesStored.sorted_ids {crc : Crc32c} (os : Os) (stored : FilesStored crc fs level files) :
    (dataFileIds (os.readdir fs level)).insertionSort (· ≤ ·) = files.map (·.fileId) := by
  have listed := os.readdir_perm fs level
  have ascending : (files.map (·.fileId)).Pairwise (· < ·) := pairwise_map.mpr stored.ascending
  have unique : (dataFileIds (fs.entries level)).Nodup := by
    refine (fs.nodup_entries level).filterMap ?_
    intro left right fileId here there
    cases left with
    | dot | dotdot | mergence => cases here
    | file name =>
      cases name with
      | hintIndex | merged => cases here
      | data first =>
        cases right with
        | dot | dotdot | mergence => cases there
        | file other =>
          cases other with
          | hintIndex | merged => cases there
          | data second =>
            cases here
            cases there
            rfl
  have same : (dataFileIds (fs.entries level)).Perm (files.map (·.fileId)) := by
    refine (perm_ext_iff_of_nodup unique (ascending.imp fun less => Nat.ne_of_lt less)).mpr ?_
    intro fileId
    rw [mem_dataFileIds, Fs.mem_entries_file, mem_map]
    constructor
    · intro present
      exact stored.only fileId present
    · rintro ⟨file, member, rfl⟩
      rw [show (⟨level, .data file.fileId⟩ : Handle) = file.handle level from rfl,
        stored.content file member]
      rfl
  have sorted := pairwise_insertionSort (· ≤ ·) (dataFileIds (os.readdir fs level))
  have perm : ((dataFileIds (os.readdir fs level)).insertionSort (· ≤ ·)).Perm
      (files.map (·.fileId)) :=
    (perm_insertionSort _ _).trans ((listed.filterMap _).trans same)
  exact perm.eq_of_pairwise' sorted (ascending.imp fun less => Nat.le_of_lt less)

end DataFiles

def openedOlder (level : Nat) (older : List FileLog)
    (table : AList fun _ : Nat => Option DataFile) : AList fun _ : Nat => Option DataFile :=
  older.foldl (fun table file =>
    table.insert file.fileId (some ⟨file.fileId, 0, file.handle level⟩)) table

section OpenedOlder

variable {level : Nat} {older : List FileLog} {table : AList fun _ : Nat => Option DataFile}

theorem lookup_openedOlder_of_ne {fileId : Nat} (different : ∀ file ∈ older, file.fileId ≠ fileId) :
    (openedOlder level older table).lookup fileId = table.lookup fileId := by
  induction older generalizing table with
  | nil => rfl
  | cons file older ih =>
    have later := @ih (table.insert file.fileId (some ⟨file.fileId, 0, file.handle level⟩))
      fun other member => different other (by simp [member])
    rw [openedOlder, foldl_cons]
    exact later.trans (AList.lookup_insert_ne (different file (by simp)).symm)

theorem lookup_openedOlder {file : FileLog}
    (ascending : older.Pairwise fun left right => left.fileId < right.fileId)
    (member : file ∈ older) :
    (openedOlder level older table).lookup file.fileId =
      some (some ⟨file.fileId, 0, file.handle level⟩) := by
  induction older generalizing table with
  | nil => cases member
  | cons first older ih =>
    obtain ⟨above, rest⟩ := pairwise_cons.mp ascending
    rw [openedOlder, foldl_cons]
    rcases mem_cons.mp member with rfl | later
    · exact (lookup_openedOlder_of_ne fun other inside =>
        (Nat.ne_of_lt (above other inside)).symm).trans (AList.lookup_insert _)
    · exact ih rest later

theorem mem_openedOlder {fileId : Nat} (member : fileId ∈ openedOlder level older table) :
    fileId ∈ table ∨ ∃ file ∈ older, file.fileId = fileId := by
  by_cases listed : ∃ file ∈ older, file.fileId = fileId
  · exact .inr listed
  · left
    have different : ∀ file ∈ older, file.fileId ≠ fileId := fun file inside same =>
      listed ⟨file, inside, same⟩
    rw [← AList.lookup_isSome] at member ⊢
    rw [lookup_openedOlder_of_ne different] at member
    exact member

end OpenedOlder

section Open

variable {env : Platform} {session : Session}

theorem run_openDataFiles (older : List FileLog) (last : FileLog) (session : Session)
    (reliable : session.world.script = []) (exist : ∀ file ∈ older ++ [last], ∃ bytes,
      session.world.fs.content? (file.handle session.level) = some bytes) :
    (openDataFiles ((older ++ [last]).map (·.fileId))).run session =
      (.ok (), { session with
        db := { session.db with
          activeFile := some ⟨last.fileId, 0, last.handle session.level⟩
          olderFiles := openedOlder session.level older
            session.db.olderFiles } }) := by
  induction older generalizing session with
  | nil =>
    obtain ⟨bytes, found⟩ := exist last (by simp)
    have opened : (openDataFile session.level last.fileId).run
        session.world = _ := run_bind_ok (run_openFile_existing reliable found)
    rw [nil_append, map_singleton, openDataFiles, run_readDb_bind,
      run_io_bind opened, run_modifyDb_bind]
    rfl
  | cons file older ih =>
    obtain ⟨bytes, found⟩ := exist file (by simp)
    have opened : (openDataFile session.level file.fileId).run
        session.world = _ := run_bind_ok (run_openFile_existing reliable found)
    have more : ((older ++ [last]).map (·.fileId)).isEmpty = false := by simp
    rw [cons_append, map_cons, openDataFiles, run_readDb_bind, run_io_bind opened,
      run_modifyDb_bind, more]
    exact ih _ reliable fun other member => exist other (by simp [member])

def Session.withWriteOff (session : Session) (last : FileLog) (size : Nat) : Session :=
  { session with
    db := { session.db with
      activeFile := some ⟨last.fileId, size, last.handle session.db.options.dirPath.level⟩ } }

structure FileLog.Readable (crc : Crc32c) (file : FileLog) : Prop where
  storable : ∀ record ∈ file.records, record.Storable crc
  tagged : ∀ record ∈ file.records, ∃ key txnId, record.Tagged key txnId

/-- The loading loop also needs a first record: it cannot tell an empty file from an
error. -/
structure FileLog.Loadable (crc : Crc32c) (file : FileLog) : Prop extends file.Readable crc where
  nonempty : file.records ≠ []

theorem run_loadFile_whole {file : FileLog} (opened : DataFile) {load : LoadState}
    {state : KeyState} (loadable : file.Loadable env.crc)
    (content : session.world.fs.content? opened.handle = some (logBytes env.crc file.records))
    (tracks : Tracks session.db.index load.txnRecords state) :
    Loads session (Journal.replay state ((file.located env.crc).map entry))
      ((loadFile env file.fileId opened ((session.world.fs.content opened.handle).length + 1) 0
        load).run session)
      (fun value reached => value = (reached, file.size env.crc))
      (maxTxnId load.currentTxnId (file.located env.crc)) := by
  have keyed : ∀ record ∈ file.records, record.key ≠ [] := fun record member =>
    (loadable.storable record member).keyed
  have bytes : session.world.fs.content opened.handle = fileBytes env.crc file.records := by
    rw [Fs.content_of_content? content, logBytes_eq_fileBytes loadable.storable]
  have enough : file.records.length < (session.world.fs.content opened.handle).length + 1 := by
    rw [bytes]
    exact Nat.lt_succ_of_le (length_le_fileBytes keyed)
  have ran := run_loadFile file.fileId opened [] file.records
    ((session.world.fs.content opened.handle).length + 1) session load state
    (by simpa using bytes) (by simpa using fileBytes_ne_nil keyed loadable.nonempty)
    loadable.storable loadable.tagged enough tracks
  rw [FileLog.size, logBytes_eq_fileBytes loadable.storable]
  exact ran

theorem run_loadFiles_cons (env : Platform) {skip : Option Nat} {file : FileLog} {opened : DataFile}
    (rest : List Nat) (load : LoadState) (kept : skip.any (file.fileId < ·) = false)
    (pointer : (dataFilePtr file.fileId).run session = (.ok (some opened), session)) :
    (loadFiles env skip (file.fileId :: rest) load).run session =
      (do
        let (load, offset) ← loadFile env file.fileId opened
          ((session.world.fs.content opened.handle).length + 1) 0 load
        setWriteOff rest.isEmpty offset
        loadFiles env skip rest load : Method LoadState).run session := by
  have deref : (derefDataFile file.fileId).run session = (.ok opened, session) := by
    rw [derefDataFile, run_bind_ok pointer]
    rfl
  rw [loadFiles]
  simp only [kept, Bool.false_eq_true, ↓reduceIte]
  rw [run_bind_ok deref]
  rfl

theorem run_loadFiles {older : List FileLog} {last : FileLog} {writeOff : Nat} (skip : Option Nat)
    (front : List FileLog) (session : Session) (load : LoadState) (state : KeyState)
    (pointed : session.db.activeFile = some ⟨last.fileId, writeOff, last.handle session.level⟩)
    (table : ∀ file ∈ older, ∃ writeOff, session.db.olderFiles.lookup file.fileId =
      some (some ⟨file.fileId, writeOff, file.handle session.level⟩))
    (inside : ∀ file ∈ front, file ∈ older)
    (kept : ∀ file ∈ front ++ [last], skip.any (file.fileId < ·) = false)
    (content : ∀ file ∈ front ++ [last], session.world.fs.content? (file.handle session.level) =
        some (logBytes env.crc file.records))
    (loadable : ∀ file ∈ front ++ [last], file.Loadable env.crc)
    (tracks : Tracks session.db.index load.txnRecords state) :
    match Journal.replay state
        (((front ++ [last]).flatMap (·.located env.crc)).map entry) with
    | some reached => ∃ index load',
        (loadFiles env skip ((front ++ [last]).map (·.fileId)) load).run session =
          (.ok load', (session.withIndex index).withWriteOff last (last.size env.crc)) ∧
        Tracks index load'.txnRecords reached ∧
        load'.currentTxnId = maxTxnId load.currentTxnId
          ((front ++ [last]).flatMap (·.located env.crc))
    | none => ∃ index, (loadFiles env skip ((front ++ [last]).map (·.fileId)) load).run session =
          (.error (.failed missingKeyStatus), session.withIndex index) := by
  induction front generalizing session load state with
  | nil =>
    obtain ⟨off, pointer⟩ := run_dataFilePtr pointed table (show last ∈ older ++ [last] by simp)
    have ran := run_loadFile_whole
      ⟨last.fileId, off, last.handle session.level⟩
      (loadable last (by simp)) (content last (by simp)) tracks
    have step := run_loadFiles_cons env [] load (kept last (by simp)) pointer
    simp only [nil_append, map_singleton, flatMap_singleton] at step ⊢
    rw [step]
    cases replayed : Journal.replay state ((last.located env.crc).map entry) with
    | none =>
      rw [replayed] at ran
      obtain ⟨index, stopped⟩ := ran
      exact ⟨index, run_bind_error stopped⟩
    | some reached =>
      rw [replayed] at ran
      obtain ⟨value, index, load', returned, rfl, tracks', largest⟩ := ran
      refine ⟨index, load', ?_, tracks', largest⟩
      rw [run_bind_ok returned]
      have active : (session.withIndex index).db.activeFile = _ := pointed
      have ended : (setWriteOff true (last.size env.crc)).run (session.withIndex index) =
          (.ok (), (session.withIndex index).withWriteOff last (last.size env.crc)) := by
        rw [setWriteOff, if_pos rfl, run_bind_ok (run_derefActive active)]
        rfl
      exact run_bind_ok ended
  | cons file front ih =>
    obtain ⟨off, pointer⟩ := run_dataFilePtr pointed table
      (mem_append_left [last] (inside file (by simp)))
    have ran := run_loadFile_whole
      ⟨file.fileId, off, file.handle session.level⟩
      (loadable file (by simp)) (content file (by simp)) tracks
    have step := run_loadFiles_cons env ((front ++ [last]).map (·.fileId)) load
      (kept file (by simp)) pointer
    have more : ((front ++ [last]).map (·.fileId)).isEmpty = false := by simp
    rw [more] at step
    rw [cons_append, map_cons, flatMap_cons, map_append, Journal.replay_append, step]
    cases replayed : Journal.replay state ((file.located env.crc).map entry) with
    | none =>
      rw [replayed] at ran
      obtain ⟨index, stopped⟩ := ran
      exact ⟨index, run_bind_error stopped⟩
    | some middle =>
      rw [replayed] at ran
      obtain ⟨value, index, load', returned, rfl, tracks', largest⟩ := ran
      have later := ih (session.withIndex index) load' middle pointed table
        (fun other member => inside other (by simp [member]))
        (fun other member => kept other (mem_cons_of_mem _ member))
        (fun other member => content other (mem_cons_of_mem _ member))
        (fun other member => loadable other (mem_cons_of_mem _ member)) tracks'
      rw [run_bind_ok returned, maxTxnId_append, ← largest]
      exact later

def emptyFileStatus : Status := .ioError "Data::ReadLogRecord" "file size equals zero."

theorem run_readEmpty {crc : Crc32c} {file : DataFile}
    (empty : session.world.fs.content file.handle = []) :
    (io (file.readLogRecordAt crc 0)).run session =
      (.error (.failed emptyFileStatus), session) := by
  refine run_io ?_
  rw [readLogRecordAt, run_read_bind, run_ofExcept, empty, readLogRecord_empty]
  rfl

theorem run_loadFile_empty {file : FileLog} (opened : DataFile) (load : LoadState)
    (empty : file.records = [])
    (content : session.world.fs.content? opened.handle = some (logBytes env.crc file.records)) :
    (loadFile env file.fileId opened ((session.world.fs.content opened.handle).length + 1) 0
      load).run session = (.error (.failed emptyFileStatus), session) := by
  have bytes : session.world.fs.content opened.handle = [] := by
    rw [Fs.content_of_content? content, empty]
    rfl
  rw [loadFile]
  exact run_bind_error (run_readEmpty bytes)

theorem run_loadFiles_empty {older : List FileLog} {last : FileLog} {writeOff : Nat}
    {skip : Option Nat} (files : List FileLog) (session : Session) (load : LoadState)
    (state : KeyState) (pointed : session.db.activeFile =
      some ⟨last.fileId, writeOff, last.handle session.level⟩)
    (table : ∀ file ∈ older, ∃ writeOff, session.db.olderFiles.lookup file.fileId =
      some (some ⟨file.fileId, writeOff, file.handle session.level⟩))
    (inside : ∀ file ∈ files, file ∈ older ++ [last])
    (kept : ∀ file ∈ files, skip.any (file.fileId < ·) = false) (content : ∀ file ∈ files,
      session.world.fs.content? (file.handle session.level) =
        some (logBytes env.crc file.records)) (readable : ∀ file ∈ files, file.Readable env.crc)
    (empty : ∃ file ∈ files, file.records = [])
    (tracks : Tracks session.db.index load.txnRecords state) :
    ∃ status reached, (loadFiles env skip (files.map (·.fileId)) load).run session =
        (.error (.failed status), reached) ∧ reached.world = session.world := by
  induction files generalizing session load state with
  | nil =>
    obtain ⟨file, member, _⟩ := empty
    cases member
  | cons file rest ih =>
    obtain ⟨off, pointer⟩ := run_dataFilePtr pointed table (inside file (by simp))
    have step := run_loadFiles_cons env (rest.map (·.fileId)) load (kept file (by simp)) pointer
    rw [map_cons, step]
    by_cases here : file.records = []
    · have stopped := run_loadFile_empty
        ⟨file.fileId, off, file.handle session.level⟩ load here
        (content file (by simp))
      exact ⟨_, _, run_bind_error stopped, rfl⟩
    · have ran := run_loadFile_whole
        ⟨file.fileId, off, file.handle session.level⟩
        ⟨readable file (by simp), here⟩ (content file (by simp)) tracks
      cases replayed : Journal.replay state ((file.located env.crc).map entry) with
      | none =>
        rw [replayed] at ran
        obtain ⟨index, stopped⟩ := ran
        exact ⟨_, _, run_bind_error stopped, rfl⟩
      | some middle =>
        rw [replayed] at ran
        obtain ⟨value, index, load', returned, rfl, tracks', _⟩ := ran
        have later : ∃ other ∈ rest, other.records = [] := by
          obtain ⟨other, member, none⟩ := empty
          rcases mem_cons.mp member with rfl | member
          · exact absurd none here
          · exact ⟨other, member, none⟩
        have more : (rest.map (·.fileId)).isEmpty = false := by
          obtain ⟨other, member, _⟩ := later
          cases rest with
          | nil => cases member
          | cons first rest => rfl
        obtain ⟨status, reached, stopped, world⟩ := ih (session.withIndex index) load' middle
          pointed table (fun other member => inside other (by simp [member]))
          (fun other member => kept other (by simp [member]))
          (fun other member => content other (by simp [member]))
          (fun other member => readable other (by simp [member])) later tracks'
        refine ⟨status, reached, ?_, world⟩
        rw [more, run_bind_ok returned]
        exact stopped

end Open

end Bitdb
