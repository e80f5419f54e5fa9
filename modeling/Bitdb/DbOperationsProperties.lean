import Bitdb.Base.Journal
import Bitdb.DbAppendProperties

/-! The log as a journal: every located record is one entry, and what the database shows is the
replay of these entries. `Put`, `Get` and `Delete` on a database that holds its log. -/

set_option autoImplicit false

namespace Bitdb

open Base Located

/-- What a live key leads to: the position of its record and the value stored there. -/
structure Slot where
  pst : LogRecordPst
  value : List Byte
  deriving DecidableEq, Repr

abbrev Contents := List Byte → Option (List Byte)

def contentsOf (live : List Byte → Option Slot) : Contents :=
  fun key => (live key).map (·.value)

theorem contentsOf_update (live : List Byte → Option Slot) (key : List Byte) (slot : Option Slot) :
    contentsOf (Function.update live key slot) =
      Function.update (contentsOf live) key (slot.map (·.value)) := by
  funext other
  by_cases same : other = key
  · subst same
    simp [contentsOf]
  · simp [contentsOf, same]

abbrev KeyAction := Journal.Action (List Byte) Slot

abbrev KeyEntry := Journal.Entry (List Byte) Slot

abbrev KeyState := Journal.State (List Byte) Slot

/-- What `update_index` does for a key and a record. -/
def Located.action (key : List Byte) (found : Located) : KeyAction :=
  if found.2.type = .deleted then .delete key else .put key ⟨found.1, found.2.value⟩

/-- The entry of a record that carries `txnId` in front of `key`. -/
def Located.entryFor (key : List Byte) (txnId : UInt64) (found : Located) : KeyEntry :=
  if txnId = nonTxnId then .immediate (Located.action key found)
  else if found.2.type = .txnFinished then .finish txnId.toUInt32.toNat
  else .queued txnId.toUInt32.toNat (Located.action key found)

/-- A record key that begins with a transaction id which the encoder accepts. -/
structure LogRecord.Tagged (record : LogRecord) (key : List Byte) (txnId : UInt64) : Prop where
  small : txnId.toNat < 2 ^ 28
  nulFree : 0 ∉ key
  split : record.key = encodeVarint64 txnId ++ key

/-- The entry of a located record. Keys that cannot be split offer nothing. -/
def Located.entry (found : Located) : KeyEntry :=
  match decodeLogRecordWithTxnID (.ofString found.2.key) with
  | .ok (key, txnId) => Located.entryFor (Bytes.ofString key).cString txnId found
  | .error _ => .finish 0

variable {key : List Byte}

section

variable {record : LogRecord} {txnId : UInt64} (tagged : record.Tagged key txnId)

include tagged

theorem LogRecord.Tagged.decode :
    decodeLogRecordWithTxnID (.ofString record.key) = .ok (key, txnId) := by
  rw [tagged.split]
  exact decodeLogRecordWithTxnID_encode key tagged.small

theorem LogRecord.Tagged.keyed : record.key ≠ [] := by
  intro missing
  have positive := encodeVarint64_length_pos txnId
  rw [tagged.split] at missing
  rw [(List.append_eq_nil_iff.mp missing).1] at positive
  cases positive

theorem LogRecord.Tagged.entry (pst : LogRecordPst) :
    Located.entry (pst, record) = entryFor key txnId (pst, record) := by
  simp only [Located.entry, tagged.decode, Bytes.cString_ofString tagged.nulFree]

end

theorem tagged_cString (key : Bytes) (value : List Byte) (type : LogRecordType) {txnId : UInt64}
    (small : txnId.toNat < 2 ^ 28) :
    (⟨encodeVarint64 txnId ++ key.cString, value, type⟩ : LogRecord).Tagged key.cString txnId :=
  ⟨small, key.nul_not_mem_cString, rfl⟩

structure Located.Carries (found : Located) (key : List Byte) (slot : Slot) : Prop where
  pst : found.1 = slot.pst
  value : found.2.value = slot.value
  kept : found.2.type ≠ .deleted
  decoded : ∃ realKey txnId,
    decodeLogRecordWithTxnID (.ofString found.2.key) = .ok (realKey, txnId) ∧
      (Bytes.ofString realKey).cString = key

theorem Located.carries_of_offers {found : Located} {slot : Slot}
    (offered : found.entry.Offers key slot) : found.Carries key slot := by
  rw [Located.entry] at offered
  cases decoded : decodeLogRecordWithTxnID (.ofString found.2.key) with
  | error stop =>
    rw [decoded] at offered
    cases offered
  | ok result =>
    obtain ⟨realKey, txnId⟩ := result
    rw [decoded] at offered
    have acted : action (Bytes.ofString realKey).cString found = .put key slot := by
      simp only [entryFor] at offered
      split at offered
      · exact offered
      · split at offered
        · cases offered
        · exact offered
    rw [action] at acted
    split at acted
    · cases acted
    · rename_i kept
      injection acted with keys slots
      rw [← slots]
      exact ⟨rfl, rfl, kept, realKey, txnId, decoded, keys⟩

def Log.entries (crc : Crc32c) (log : Log) : List KeyEntry := (log.records crc).map Located.entry

/-- A database that shows exactly the replay of its log. -/
structure Holds (env : Platform) (session : Session) (log : Log) (state : KeyState) : Prop where
  attached : Attached env session log
  replayed : Journal.replay .empty (log.entries env.crc) = some state
  index : ∀ key, session.db.index.lookup key = (state.live key).map (·.pst)

theorem Log.live_record {crc : Crc32c} {log : Log} {state : KeyState}
    (replayed : Journal.replay .empty (log.entries crc) = some state) {slot : Slot}
    (live : state.live key = some slot) : ∃ found ∈ log.records crc, found.Carries key slot := by
  have all := (Journal.State.all_empty fun key slot =>
    ∃ found ∈ log.records crc, Located.Carries found key slot).replay
      (fun entry member key slot offered => by
        obtain ⟨found, inside, rfl⟩ := List.mem_map.mp member
        exact ⟨found, inside, carries_of_offers offered⟩) replayed
  exact all.live key slot live

open Program Function Log

def Log.Whole (crc : Crc32c) (log : Log) : Prop :=
  ∀ found ∈ log.records crc, found.2.Storable crc

theorem Log.Whole.of_records {crc : Crc32c} {limit : Nat} {log log' : Log}
    {records : List LogRecord} (whole : log.Whole crc)
    (records' : log'.records crc = (log.appendAll crc limit records).records crc)
    (storable : ∀ record ∈ records, record.Storable crc) : log'.Whole crc := by
  intro found member
  rw [records', records_appendAll] at member
  rcases List.mem_append.mp member with before | newest
  · exact whole found before
  · apply storable
    rw [← locate_records crc limit log records]
    exact List.mem_map_of_mem newest

theorem Log.Whole.append {crc : Crc32c} {log : Log} {limit : Nat} {record : LogRecord}
    (whole : log.Whole crc) (storable : record.Storable crc) :
    (log.append crc limit record).Whole crc := by
  have same : (log.append crc limit record).records crc =
      (log.appendAll crc limit [record]).records crc := rfl
  exact whole.of_records same (by simpa using storable)

section Read

variable {env : Platform} {session : Session} {log : Log}

variable {file : FileLog}

theorem FileLog.read_located {crc : Crc32c} {found : Located}
    (storable : ∀ record ∈ file.records, record.Storable crc) (here : found ∈ file.located crc)
    (extra : List Byte) :
    found.1.fid = file.fileId ∧
      readLogRecord crc (logBytes crc file.records ++ extra) found.1.offset =
        .ok (found.2, (encodeLogRecord crc found.2).length) := by
  obtain ⟨front, back, split, position⟩ := located_split here
  have content : logBytes crc file.records ++ extra =
      fileBytes crc front ++ encodeLogRecord crc found.2 ++ (fileBytes crc back ++ extra) := by
    rw [logBytes_eq_fileBytes storable, split]
    simp
  have before : logBytes crc front = fileBytes crc front :=
    logBytes_eq_fileBytes fun record recorded => storable record (by rw [split]; simp [recorded])
  refine ⟨by rw [position], ?_⟩
  rw [content, position, before, Nat.zero_add]
  exact readLogRecord_at (storable found.2 (by rw [split]; simp)) _ _

theorem Log.Whole.storable {crc : Crc32c} (whole : log.Whole crc) (inside : file ∈ log.files) :
    ∀ record ∈ file.records, record.Storable crc := by
  intro record recorded
  obtain ⟨pst, place⟩ := file.mem_located crc recorded
  exact whole _ (List.mem_flatMap.mpr ⟨file, inside, place⟩)

theorem Log.read_located {fs : Fs} {level : Nat} {found : Located}
    (stored : FilesStored env.crc fs level log.files) (whole : log.Whole env.crc)
    (member : found ∈ log.records env.crc) :
    ∃ file ∈ log.files, found.1.fid = file.fileId ∧
      readLogRecord env.crc (fs.content (file.handle level)) found.1.offset =
        .ok (found.2, (encodeLogRecord env.crc found.2).length) := by
  obtain ⟨file, inside, here⟩ := List.mem_flatMap.mp member
  obtain ⟨fid, read⟩ := file.read_located (whole.storable inside) here []
  refine ⟨file, inside, fid, ?_⟩
  rw [Fs.content_of_content? (stored.content file inside)]
  rwa [List.append_nil] at read

theorem run_dataFilePtr {level writeOff : Nat} {older : List FileLog} {last : FileLog}
    (pointed : session.db.activeFile = some ⟨last.fileId, writeOff, last.handle level⟩)
    (table : ∀ file ∈ older, ∃ writeOff, session.db.olderFiles.lookup file.fileId =
      some (some ⟨file.fileId, writeOff, file.handle level⟩)) (inside : file ∈ older ++ [last]) :
    ∃ writeOff, (dataFilePtr file.fileId).run session =
      (.ok (some ⟨file.fileId, writeOff, file.handle level⟩), session) := by
  rw [dataFilePtr, run_bind_ok (run_derefActive pointed)]
  by_cases same : file.fileId = last.fileId
  · -- Ids name files, so the file with the id of the active one is the active one.
    refine ⟨writeOff, ?_⟩
    have handles : file.handle level = last.handle level := by
      rw [FileLog.handle, same, FileLog.handle]
    rw [if_pos same, same, handles]
    rfl
  · have before : file ∈ older := by
      rcases List.mem_append.mp inside with before | newest
      · exact before
      · have equal : file = last := by simpa using newest
        exact absurd (by rw [equal]) same
    obtain ⟨writeOff, found⟩ := table file before
    refine ⟨writeOff, ?_⟩
    rw [if_neg same, run_readDb_bind, found]
    rfl

theorem Attached.run_dataFilePtr (attached : Attached env session log) (inside : file ∈ log.files) :
    ∃ writeOff, (dataFilePtr file.fileId).run session =
      (.ok (some ⟨file.fileId, writeOff, file.handle session.level⟩), session) := by
  obtain ⟨last, active⟩ := active_of_mem attached.started inside
  rw [files_active active] at inside
  exact Bitdb.run_dataFilePtr (attached.pointed active) attached.older inside

theorem Attached.run_getValue {found : Located} (attached : Attached env session log)
    (whole : log.Whole env.crc) (member : found ∈ log.records env.crc)
    (kept : found.2.type ≠ .deleted) (key : Bytes) (out : Bool) :
    (getValueByLogRecordPst env found.1 key out).run session =
      (if out then .ok found.2.value else .error (.faulted .nullPointer), session) := by
  obtain ⟨file, inside, fid, read⟩ := log.read_located attached.stored whole member
  obtain ⟨writeOff, pointed⟩ := attached.run_dataFilePtr inside
  have readAt : (io (DataFile.readLogRecordAt env.crc
      ⟨file.fileId, writeOff, file.handle session.level⟩
        found.1.offset)).run session =
      (.ok (found.2, (encodeLogRecord env.crc found.2).length), session) := by
    refine run_io ?_
    rw [DataFile.readLogRecordAt, run_read_bind, run_ofExcept, read]
  rw [getValueByLogRecordPst, fid, run_bind_ok pointed]
  refine (run_bind_ok readAt).trans ?_
  simp only [kept, ↓reduceIte]
  cases out with
  | true | false => rfl

end Read

def Indexer.Shows (index : Indexer) (live : List Byte → Option Slot) : Prop :=
  ∀ key, index.lookup key = (live key).map (·.pst)

section

variable {index : Indexer} {live : List Byte → Option Slot} (shows : index.Shows live)

include shows

theorem Indexer.Shows.insert (key : List Byte) (slot : Slot) :
    Indexer.Shows (AList.insert key slot.pst index) (update live key (some slot)) := by
  intro other
  by_cases same : other = key
  · subst same
    simp
  · rw [AList.lookup_insert_ne same, shows other, update_of_ne same]

theorem Indexer.Shows.erase (key : List Byte) :
    Indexer.Shows (AList.erase key index) (update live key none) := by
  intro other
  by_cases same : other = key
  · subst same
    simp
  · rw [AList.lookup_erase_ne same, shows other, update_of_ne same]

end

/-- A database object that answers for a map: its index leads to records of the log that
store the values. -/
structure Serves (env : Platform) (session : Session) (log : Log)
    (live : List Byte → Option Slot) : Prop where
  attached : Attached env session log
  whole : log.Whole env.crc
  shows : session.db.index.Shows live
  carried : ∀ key slot, live key = some slot → ∃ found ∈ log.records env.crc,
    found.1 = slot.pst ∧ found.2.value = slot.value ∧ found.2.type ≠ .deleted

section Operations

variable {env : Platform} {session : Session} {log : Log} {state : KeyState}

variable {key : Bytes}

variable {live : List Byte → Option Slot}

theorem Serves.run_get (serves : Serves env session log live) (nonempty : key.empty = false)
    (out : Bool) :
    (get env key out).run session = match live key.cString with
      | some slot => (if out then .ok slot.value else .error (.faulted .nullPointer), session)
      | none => (.error (.failed (.notFound "index"
          ("index of key " ++ text key.toString ++ " not_found"))), session) := by
  have found := serves.shows key.cString
  simp only [get, nonempty, Bool.false_eq_true, ↓reduceIte, run_readDb_bind, Indexer.get, found]
  cases here : live key.cString with
  | none => rfl
  | some slot =>
    obtain ⟨found, member, pst, value, kept⟩ := serves.carried _ slot here
    have ran := serves.attached.run_getValue serves.whole member kept key out
    rw [pst, value] at ran
    exact ran

theorem Log.replay_append {crc : Crc32c} {log : Log} {limit : Nat} {record : LogRecord}
    {state reached : KeyState} (replayed : Journal.replay .empty (log.entries crc) = some state)
    (stepped : state.step (Located.entry (log.place crc limit record, record)) = some reached) :
    Journal.replay .empty ((log.append crc limit record).entries crc) = some reached := by
  rw [Log.entries, records_append, List.map_append, Journal.replay_append]
  rw [Log.entries] at replayed
  rw [replayed]
  simp [Journal.replay, stepped]

theorem zero_small : nonTxnId.toNat < 2 ^ 28 := by decide

def putRecord (key value : Bytes) : LogRecord :=
  ⟨encodeVarint64 nonTxnId ++ key.cString, value.cString, .normal⟩

def deleteRecord (key : Bytes) : LogRecord :=
  ⟨encodeVarint64 nonTxnId ++ key.cString, [], .deleted⟩

theorem run_put_empty (empty : key.empty = true) (value : Bytes) :
    (put env key value).run session =
      (.error (.failed (.invalidArgument "DB::Put" "key is empty")), session) := by
  simp only [put, empty, ↓reduceIte]
  rfl

theorem run_get_empty (empty : key.empty = true) (out : Bool) :
    (get env key out).run session =
      (.error (.failed (.invalidArgument "DB::Get" "key is empty")), session) := by
  simp only [get, empty, ↓reduceIte]
  rfl

theorem run_delete_empty (empty : key.empty = true) :
    (delete env key).run session =
      (.error (.failed (.invalidArgument "DB::Delete" "key is empty")), session) := by
  simp only [delete, empty, ↓reduceIte]
  rfl

theorem Attached.run_put (attached : Attached env session log) (nonempty : key.empty = false)
    (value : Bytes) :
    ∃ middle, Appended env session log [putRecord key value] middle ∧
      (put env key value).run session = (.ok .ok, middle.withIndex
        (session.db.index.insert key.cString
          (log.place env.crc session.limit (putRecord key value)))) := by
  obtain ⟨middle, ran, appended⟩ := attached.run_appendLogRecord (putRecord key value)
  have encoded := encodeLogRecordWithTxnID_small key zero_small
  refine ⟨middle, appended, ?_⟩
  rw [← appended.frame.index]
  simp only [put, nonempty, Bool.false_eq_true, ↓reduceIte, encoded, run_ofExcept_ok_bind]
  exact (run_bind_ok ran).trans rfl

theorem Attached.run_delete (attached : Attached env session log) (nonempty : key.empty = false)
    {pst : LogRecordPst} (found : session.db.index.lookup key.cString = some pst) :
    ∃ middle, Appended env session log [deleteRecord key] middle ∧
      (delete env key).run session = (.ok .ok, middle.withIndex
        ((session.db.index.insert key.cString
          (log.place env.crc session.limit (deleteRecord key))).erase
            key.cString)) := by
  obtain ⟨middle, ran, appended⟩ := attached.run_appendLogRecord (deleteRecord key)
  have encoded := encodeLogRecordWithTxnID_small key zero_small
  refine ⟨middle, appended, ?_⟩
  rw [← appended.frame.index]
  simp only [delete, nonempty, Bool.false_eq_true, ↓reduceIte, run_readDb_bind, Indexer.get,
    found, encoded, run_ofExcept_ok_bind]
  refine (run_bind_ok ran).trans ?_
  simp only [run_modifyDb_bind, run_readDb_bind, Indexer.delete, AList.lookup_insert,
    Option.isSome_some]
  rfl

theorem run_delete_missing (nonempty : key.empty = false)
    (missing : session.db.index.lookup key.cString = none) :
    (delete env key).run session =
      (.ok (.okWith "DB::Delete" ("key: " ++ text key.toString ++ " don't exist.")), session) := by
  simp only [delete, nonempty, Bool.false_eq_true, ↓reduceIte, run_readDb_bind, Indexer.get,
    missing]
  rfl

section

variable (holds : Holds env session log state)

include holds

theorem Holds.serves (whole : log.Whole env.crc) : Serves env session log state.live := by
  refine ⟨holds.attached, whole, holds.index, fun key slot live => ?_⟩
  obtain ⟨found, member, carries⟩ := live_record holds.replayed live
  exact ⟨found, member, carries.pst, carries.value, carries.kept⟩

theorem Holds.run_get (whole : log.Whole env.crc) (nonempty : key.empty = false) :
    (get env key true).run session = match state.live key.cString with
      | some slot => (.ok slot.value, session)
      | none => (.error (.failed (.notFound "index"
          ("index of key " ++ text key.toString ++ " not_found"))), session) :=
  (holds.serves whole).run_get nonempty true

variable (nonempty : key.empty = false)

include nonempty

theorem Holds.run_put (value : Bytes) :
    ∃ reached, (put env key value).run session = (.ok .ok, reached) ∧
      Holds env reached (log.append env.crc session.limit (putRecord key value))
        { state with live := update state.live key.cString (some
          ⟨log.place env.crc session.limit (putRecord key value), value.cString⟩) } ∧
      Stored env session log [putRecord key value] reached := by
  obtain ⟨middle, appended, ran⟩ := holds.attached.run_put nonempty value
  have tagged : (putRecord key value).Tagged key.cString nonTxnId :=
    tagged_cString key value.cString .normal zero_small
  refine ⟨_, ran, ⟨appended.attached.withIndex _, ?_, Indexer.Shows.insert holds.index _ ⟨_, _⟩⟩,
    appended.stored _⟩
  refine replay_append holds.replayed ?_
  rw [tagged.entry]
  rfl

theorem Holds.run_delete_missing (missing : state.live key.cString = none) :
    (delete env key).run session =
      (.ok (.okWith "DB::Delete" ("key: " ++ text key.toString ++ " don't exist.")), session) := by
  have found := holds.index key.cString
  rw [missing] at found
  exact Bitdb.run_delete_missing nonempty found

theorem Holds.run_delete {slot : Slot} (live : state.live key.cString = some slot) :
    ∃ reached, (delete env key).run session = (.ok .ok, reached) ∧
      Holds env reached (log.append env.crc session.limit (deleteRecord key))
        { state with live := update state.live key.cString none } ∧
      Stored env session log [deleteRecord key] reached := by
  have found := holds.index key.cString
  rw [live] at found
  obtain ⟨middle, appended, ran⟩ := holds.attached.run_delete nonempty found
  have tagged : (deleteRecord key).Tagged key.cString nonTxnId :=
    tagged_cString key [] .deleted zero_small
  have shown := (Indexer.Shows.insert holds.index key.cString
    ⟨log.place env.crc session.limit (deleteRecord key), []⟩).erase key.cString
  rw [update_idem] at shown
  refine ⟨_, ran, ⟨appended.attached.withIndex _, ?_, shown⟩, appended.stored _⟩
  refine replay_append holds.replayed ?_
  rw [tagged.entry]
  simp [Located.entryFor, Located.action, deleteRecord, Journal.State.step,
    Journal.Action.apply, live]

end

def Contents.Agree (left right : Contents) : Prop := ∀ key, 0 ∉ key → left key = right key

private def probe (key : List Byte) : Bytes := ⟨key ++ [0], key.length + 1⟩

private theorem cString_probe {key : List Byte} (nulFree : 0 ∉ key) :
    (probe key).cString = key := by
  have same : (probe key).cString = (Bytes.ofString key).cString := rfl
  rw [same, Bytes.cString_ofString nulFree]

theorem Serves.same_get {session' : Session} {log' : Log} {live' : List Byte → Option Slot}
    (serves : Serves env session log live) (serves' : Serves env session' log' live')
    (agree : contentsOf live key.cString = contentsOf live' key.cString) :
    ((get env key true).run session).1 = ((get env key true).run session').1 := by
  cases empty : key.empty with
  | true => rw [run_get_empty empty, run_get_empty empty]
  | false =>
    rw [serves.run_get empty, serves'.run_get empty]
    simp only [contentsOf] at agree
    cases here : live key.cString <;> cases there : live' key.cString <;> simp_all

theorem Serves.same_gets_iff {session' : Session} {log' : Log} {live' : List Byte → Option Slot}
    (serves : Serves env session log live) (serves' : Serves env session' log' live') :
    (∀ key, ((get env key true).run session).1 = ((get env key true).run session').1) ↔
      ∀ key, 0 ∉ key → contentsOf live key = contentsOf live' key := by
  constructor
  · intro same key nulFree
    have got := same (probe key)
    rw [serves.run_get rfl, serves'.run_get rfl, cString_probe nulFree] at got
    simp only [contentsOf]
    cases here : live key <;> cases there : live' key <;> simp_all
  · intro same key
    exact serves.same_get serves' (same key.cString key.nul_not_mem_cString)

end Operations

end Bitdb
