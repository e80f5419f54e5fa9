import Bitdb.Codec.Overload
import Bitdb.Io.FileSystem

/-! What a Raft node keeps on disk (`bitdb/raft/raft_storage.h`, and the log entries of
`raft_protocol.h`). -/

set_option autoImplicit false

namespace Bitdb.Raft

open List

variable {Command : Type}

structure LogEntry (Command : Type) where
  cmd : Command
  term : Int32
  deriving DecidableEq, Repr

/-- Growing a vector of entries fills it with value-initialised ones. -/
instance [Inhabited Command] : Inhabited (LogEntry Command) := ⟨⟨default, 0⟩⟩

structure RaftStorage (Command : Type) where
  currentTerm : Int32
  voteFor : Int32
  log : List (LogEntry Command)
  deriving DecidableEq, Repr

namespace RaftStorage

def initial : RaftStorage Command := ⟨0, -1, []⟩

def addLog (storage : RaftStorage Command) (entry : LogEntry Command) : RaftStorage Command :=
  { storage with log := storage.log ++ [entry] }

def addLogs (storage : RaftStorage Command) (entries : List (LogEntry Command)) :
    RaftStorage Command :=
  { storage with log := storage.log ++ entries }

/-- `AddLog` at an index: the log is made long enough and overwritten from there. -/
def addLogAt [Inhabited Command] (storage : RaftStorage Command) (logInsertIndex : Nat)
    (entries : List (LogEntry Command)) : RaftStorage Command :=
  let needSize := logInsertIndex + entries.length
  let log := storage.log ++ List.replicate (needSize - storage.log.length) default
  { storage with log := log.take logInsertIndex ++ entries ++ log.drop needSize }

theorem length_addLogAt [Inhabited Command] (storage : RaftStorage Command) (logInsertIndex : Nat)
    (entries : List (LogEntry Command)) :
    (storage.addLogAt logInsertIndex entries).log.length =
      max storage.log.length (logInsertIndex + entries.length) := by
  simp only [addLogAt, List.length_append, List.length_take, List.length_drop,
    List.length_replicate]
  omega

end RaftStorage

/-- The members of an entry in the order they are written. -/
def LogEntry.codec (command : Codec Command) : Codec (LogEntry Command) :=
  (command.pair .int32).imap (fun members => ⟨members.1, members.2⟩)
    (fun entry => (entry.cmd, entry.term)) fun _ => rfl

/-- The file behind a storage, opened without `O_APPEND`: a write goes to the offset of the
descriptor and moves it. -/
structure StorageFile where
  content : List Byte
  offset : Nat

/-- `FileIO::Write`; one call transfers so many bytes at most. -/
def StorageFile.write (file : StorageFile) (bytes : List Byte) : StorageFile :=
  let written := bytes.take maxTransfer
  { content := file.content.take file.offset ++
      List.replicate (file.offset - file.content.length) 0 ++ written ++
        file.content.drop (file.offset + written.length)
    offset := file.offset + written.length }

/-- `FileIO::Read` of the whole file into a zeroed buffer of its size. -/
def readBuffer (content : List Byte) : List Byte :=
  content.take maxTransfer ++ List.replicate (content.length - maxTransfer) 0

namespace RaftStorage

def serialize (command : Codec Command) (storage : RaftStorage Command) : List Byte :=
  Codec.int32.serialize storage.currentTerm ++ Codec.int32.serialize storage.voteFor ++
    (LogEntry.codec command).serializeAll storage.log

/-- The constructor. A buffer that is too short for what it should hold is read past its
end. -/
def ofFile (command : Codec Command) (content : List Byte) : Option (RaftStorage Command) :=
  if content.isEmpty then some initial
  else do
    let (currentTerm, rest) ← Codec.int32.deserialize (readBuffer content)
    let (voteFor, rest) ← Codec.int32.deserialize rest
    let (log, _) ← (LogEntry.codec command).deserializeAll rest
    return ⟨currentTerm, voteFor, log⟩

def readBack (storage : RaftStorage Command) : RaftStorage Command :=
  { storage with log := storage.log.take (storage.log.length % 2 ^ 32) }

end RaftStorage

structure OpenStorage (Command : Type) where
  storage : RaftStorage Command
  file : StorageFile

def OpenStorage.flush (command : Codec Command) (opened : OpenStorage Command) :
    OpenStorage Command :=
  { opened with file := opened.file.write (opened.storage.serialize command) }

inductive StorageCall (Command : Type) where
  | setCurrentTerm (term : Int32)
  | setVoteFor (voteFor : Int32)
  | addLog (entry : LogEntry Command)
  | addLogs (entries : List (LogEntry Command))
  | addLogAt (logInsertIndex : Nat) (entries : List (LogEntry Command))
  | flush

def StorageCall.run [Inhabited Command] (command : Codec Command) (opened : OpenStorage Command) :
    StorageCall Command → OpenStorage Command
  | .setCurrentTerm term => { opened with storage := { opened.storage with currentTerm := term } }
  | .setVoteFor voteFor => { opened with storage := { opened.storage with voteFor } }
  | .addLog entry => { opened with storage := opened.storage.addLog entry }
  | .addLogs entries => { opened with storage := opened.storage.addLogs entries }
  | .addLogAt logInsertIndex entries =>
    { opened with storage := opened.storage.addLogAt logInsertIndex entries }
  | .flush => opened.flush command

def flushes [Inhabited Command] (command : Codec Command) :
    OpenStorage Command → List (StorageCall Command) → List (RaftStorage Command)
  | _, [] => []
  | opened, call :: rest =>
    let later := flushes command (call.run command opened) rest
    match call with
    | .flush => opened.storage :: later
    | _ => later

/-- The beginning of a file that its descriptor has moved past. -/
structure StorageFile.Keeps (file : StorageFile) (image : List Byte) : Prop where
  front : image <+: file.content
  past : image.length ≤ file.offset

variable {image : List Byte}

theorem StorageFile.Keeps.write {file : StorageFile} (keeps : file.Keeps image)
    (bytes : List Byte) : (file.write bytes).Keeps image := by
  refine ⟨?_, Nat.le_trans keeps.past (Nat.le_add_right _ _)⟩
  have inside : image <+: file.content.take file.offset :=
    prefix_take_iff.mpr ⟨keeps.front, keeps.past⟩
  simp only [StorageFile.write, append_assoc]
  exact inside.trans (prefix_append _ _)

theorem StorageFile.keeps_write {file : StorageFile} {bytes : List Byte} (fresh : file.offset = 0)
    (small : bytes.length ≤ maxTransfer) : (file.write bytes).Keeps bytes := by
  rw [StorageFile.write, take_of_length_le small, fresh]
  refine ⟨?_, by simp⟩
  simp only [take_zero, Nat.zero_sub, replicate_zero, nil_append]
  exact prefix_append _ _

theorem readBuffer_append (small : image.length ≤ maxTransfer) (rest : List Byte) :
    image <+: readBuffer (image ++ rest) := by
  rw [readBuffer, take_append, take_of_length_le small, append_assoc]
  exact prefix_append _ _

theorem RaftStorage.serialize_ne_nil (command : Codec Command) (storage : RaftStorage Command) :
    storage.serialize command ≠ [] := by
  intro empty
  have length := congrArg List.length empty
  rw [RaftStorage.serialize, length_append, length_append] at length
  have first : (Codec.int32.serialize storage.currentTerm).length = 4 := rfl
  rw [first] at length
  simp at length

theorem RaftStorage.ofFile_image {command : Codec Command} {storage : RaftStorage Command}
    {content : List Byte} (front : storage.serialize command <+: content)
    (small : (storage.serialize command).length ≤ maxTransfer) :
    RaftStorage.ofFile command content = some storage.readBack := by
  obtain ⟨rest, rfl⟩ := front
  obtain ⟨tail, buffer⟩ := readBuffer_append small rest
  have nonempty : (storage.serialize command ++ rest).isEmpty = false := by
    rw [isEmpty_eq_false_iff]
    exact append_ne_nil_of_left_ne_nil (storage.serialize_ne_nil command) _
  rw [RaftStorage.ofFile, nonempty, ← buffer, RaftStorage.serialize]
  simp only [Bool.false_eq_true, ↓reduceIte, append_assoc, Codec.deserialize_serialize,
    Codec.deserializeAll_serializeAll, Option.bind_eq_bind, Option.bind_some]
  rfl

variable [Inhabited Command] {command : Codec Command}

theorem StorageFile.Keeps.run (opened : OpenStorage Command) (calls : List (StorageCall Command))
    (keeps : opened.file.Keeps image) :
    (calls.foldl (StorageCall.run command) opened).file.Keeps image := by
  induction calls generalizing opened with
  | nil => exact keeps
  | cons call rest ih =>
    apply ih
    cases call with
    | flush => exact keeps.write _
    | setCurrentTerm | setVoteFor | addLog | addLogs | addLogAt => exact keeps

theorem keeps_first_flush (opened : OpenStorage Command) (calls : List (StorageCall Command))
    {first : RaftStorage Command} (fresh : opened.file.offset = 0)
    (head : (flushes command opened calls).head? = some first)
    (small : (first.serialize command).length ≤ maxTransfer) :
    (calls.foldl (StorageCall.run command) opened).file.Keeps (first.serialize command) := by
  induction calls generalizing opened with
  | nil => cases head
  | cons call rest ih =>
    cases call with
    | flush =>
      obtain rfl : opened.storage = first := by simpa [flushes] using head
      exact StorageFile.Keeps.run (opened.flush command) rest
        (StorageFile.keeps_write fresh small)
    | setCurrentTerm | setVoteFor | addLog | addLogs | addLogAt => exact ih _ fresh head

/-- A new storage over the file shows the last flushed state exactly when the first
`Flush` stored the same. -/
theorem reopened_storage_iff (command : Codec Command) (opened : OpenStorage Command)
    (calls : List (StorageCall Command)) {first : RaftStorage Command}
    (fresh : opened.file.offset = 0) (head : (flushes command opened calls).head? = some first)
    (small : (first.serialize command).length ≤ maxTransfer) :
    RaftStorage.ofFile command (calls.foldl (StorageCall.run command) opened).file.content =
        (flushes command opened calls).getLast? ↔
      (flushes command opened calls).getLast? = some first.readBack := by
  have keeps := keeps_first_flush opened calls fresh head small
  rw [RaftStorage.ofFile_image keeps.front small]
  exact eq_comm

theorem reopened_storage_one_flush :
    RaftStorage.ofFile .uint32
        (([.setCurrentTerm 3, .addLog ⟨7, 3⟩, .setVoteFor 1, .flush] :
          List (StorageCall UInt32)).foldl (StorageCall.run .uint32) ⟨.initial, ⟨[], 0⟩⟩).file.content =
      some ⟨3, 1, [⟨7, 3⟩]⟩ :=
  (reopened_storage_iff .uint32 ⟨.initial, ⟨[], 0⟩⟩
    [.setCurrentTerm 3, .addLog ⟨7, 3⟩, .setVoteFor 1, .flush] rfl rfl (by decide +kernel)).mpr rfl

/-- After a second `Flush` the first state is still the one that is read. -/
theorem reopened_storage_shows_old_term :
    let calls : List (StorageCall UInt32) := [.setCurrentTerm 1, .flush, .setCurrentTerm 2, .flush]
    let opened : OpenStorage UInt32 := ⟨.initial, ⟨[], 0⟩⟩
    (flushes .uint32 opened calls).getLast? = some ⟨2, -1, []⟩ ∧
      RaftStorage.ofFile .uint32
        (calls.foldl (StorageCall.run .uint32) opened).file.content = some ⟨1, -1, []⟩ := by
  decide +kernel

end Bitdb.Raft
