import Bitdb.Net.RpcServer
import Bitdb.Raft.Storage

/-! The messages of Raft as they go over the wire (`bitdb/raft/raft_protocol.h`). Each struct
has its own list of members in `serialize` and in `deserialize`. -/

set_option autoImplicit false

namespace Bitdb.Raft.Wire

variable {Command : Type}

structure RequestVoteArgs where
  term : Int32
  candidateId : Int32
  lastLogIndex : Int32
  lastLogTerm : Int32
  deriving DecidableEq, Repr

def RequestVoteArgs.overload : Overload RequestVoteArgs where
  fresh := ⟨0, 0, 0, 0⟩
  serialize args serializer :=
    serializer
      |> Overload.int32.serialize args.term
      |> Overload.int32.serialize args.candidateId
      |> Overload.int32.serialize args.lastLogIndex
      |> Overload.int32.serialize args.lastLogTerm
  deserialize args serializer := do
    let (term, serializer) ← Overload.int32.deserialize args.term serializer
    let (candidateId, serializer) ← Overload.int32.deserialize args.candidateId serializer
    let (lastLogIndex, serializer) ← Overload.int32.deserialize args.lastLogIndex serializer
    let (lastLogTerm, serializer) ← Overload.int32.deserialize args.lastLogTerm serializer
    return (⟨term, candidateId, lastLogIndex, lastLogTerm⟩, serializer)

structure RequestVoteReply where
  term : Int32
  voteGranted : Bool
  deriving DecidableEq, Repr

def RequestVoteReply.overload : Overload RequestVoteReply where
  fresh := ⟨0, false⟩
  serialize reply serializer :=
    serializer
      |> Overload.int32.serialize reply.term
      |> Overload.bool.serialize reply.voteGranted
  deserialize reply serializer := do
    let (term, serializer) ← Overload.int32.deserialize reply.term serializer
    let (voteGranted, serializer) ← Overload.bool.deserialize reply.voteGranted serializer
    return (⟨term, voteGranted⟩, serializer)

def logEntry (command : Overload Command) : Overload (LogEntry Command) where
  fresh := ⟨command.fresh, 0⟩
  serialize entry serializer :=
    serializer
      |> command.serialize entry.cmd
      |> Overload.int32.serialize entry.term
  deserialize entry serializer := do
    let (cmd, serializer) ← command.deserialize entry.cmd serializer
    let (term, serializer) ← Overload.int32.deserialize entry.term serializer
    return (⟨cmd, term⟩, serializer)

structure AppendEntriesArgs (Command : Type) where
  term : Int32
  leaderId : Int32
  prevLogIndex : Int32
  prevLogTerm : Int32
  entries : List (LogEntry Command)
  leaderCommit : Int32
  deriving DecidableEq, Repr

def AppendEntriesArgs.entriesOverload (command : Overload Command) :
    Overload (List (LogEntry Command)) :=
  .sequence .vector (logEntry command)

def AppendEntriesArgs.overload (command : Overload Command) :
    Overload (AppendEntriesArgs Command) where
  fresh := ⟨0, 0, 0, 0, [], 0⟩
  serialize args serializer :=
    serializer
      |> Overload.int32.serialize args.term
      |> Overload.int32.serialize args.leaderId
      |> Overload.int32.serialize args.prevLogIndex
      |> Overload.int32.serialize args.prevLogTerm
      |> (entriesOverload command).serialize args.entries
      |> Overload.int32.serialize args.leaderCommit
  deserialize args serializer := do
    let (term, serializer) ← Overload.int32.deserialize args.term serializer
    let (leaderId, serializer) ← Overload.int32.deserialize args.leaderId serializer
    let (prevLogIndex, serializer) ← Overload.int32.deserialize args.prevLogIndex serializer
    let (prevLogTerm, serializer) ← Overload.int32.deserialize args.prevLogTerm serializer
    let (entries, serializer) ← (entriesOverload command).deserialize args.entries serializer
    let (leaderCommit, serializer) ← Overload.int32.deserialize args.leaderCommit serializer
    return (⟨term, leaderId, prevLogIndex, prevLogTerm, entries, leaderCommit⟩, serializer)

structure AppendEntriesReply where
  term : Int32
  success : Bool
  deriving DecidableEq, Repr

/-- Both methods have an empty body. -/
def AppendEntriesReply.overload : Overload AppendEntriesReply where
  fresh := ⟨0, false⟩
  serialize _ serializer := serializer
  deserialize reply serializer := some (reply, serializer)

/-- The structs that `raft.h` sends and receives. -/
inductive Message (Command : Type) where
  | requestVoteArgs (args : RequestVoteArgs)
  | requestVoteReply (reply : RequestVoteReply)
  | requestVoteResponse (response : Rpc.RpcResponse RequestVoteReply)
  | logEntry (entry : LogEntry Command)
  | appendEntriesArgs (args : AppendEntriesArgs Command)
  | appendEntriesReply (reply : AppendEntriesReply)
  | appendEntriesResponse (response : Rpc.RpcResponse AppendEntriesReply)

def Message.Survives (command : Overload Command) : Message Command → Prop
  | .requestVoteArgs args => RequestVoteArgs.overload.Survives args
  | .requestVoteReply reply => RequestVoteReply.overload.Survives reply
  | .requestVoteResponse response =>
    (Rpc.RpcResponse.overload RequestVoteReply.overload).Survives response
  | .logEntry entry => (Wire.logEntry command).Survives entry
  | .appendEntriesArgs args => (AppendEntriesArgs.overload command).Survives args
  | .appendEntriesReply reply => AppendEntriesReply.overload.Survives reply
  | .appendEntriesResponse response =>
    (Rpc.RpcResponse.overload AppendEntriesReply.overload).Survives response

def Message.Sized : Message Command → Prop
  | .requestVoteResponse response => SizedString response.errMsg
  | .appendEntriesResponse response => SizedString response.errMsg
  | _ => True

/-- What `raft_protocol.h` can transmit: a reply to `AppendEntries` only if it is the one that
the receiver has anyway. -/
def Message.Transmittable : Message Command → Prop
  | .appendEntriesArgs args => args.entries.length < 2 ^ 32
  | .appendEntriesReply reply => reply = ⟨0, false⟩
  | .appendEntriesResponse response => response.detailValue = ⟨0, false⟩
  | _ => True

open Overload (int32Image boolImage int32_restores bool_restores)
open List Option Serializer

variable {Command : Type} {command : Overload Command}

theorem RequestVoteArgs.restores (target args : RequestVoteArgs) :
    RequestVoteArgs.overload.Restores target args
      (int32Image args.term ++ (int32Image args.candidateId ++
        (int32Image args.lastLogIndex ++ int32Image args.lastLogTerm))) where
  written serializer := by
    simp only [overload, (int32_restores 0 _).written, insert_insert, append_assoc]
  restored consumed rest := by
    simp only [overload, append_assoc, (int32_restores _ _).restored, bind_eq_bind, bind_some]
    rfl

theorem RequestVoteReply.restores (target reply : RequestVoteReply) :
    RequestVoteReply.overload.Restores target reply
      (int32Image reply.term ++ boolImage reply.voteGranted) where
  written serializer := by
    simp only [overload, (int32_restores 0 _).written, (bool_restores false _).written,
      insert_insert]
  restored consumed rest := by
    simp only [overload, append_assoc, (int32_restores _ _).restored,
      (bool_restores _ _).restored, bind_eq_bind, bind_some]
    rfl

theorem logEntry_restores {target entry : LogEntry Command} {image : List Byte}
    (cmd : command.Restores target.cmd entry.cmd image) :
    (logEntry command).Restores target entry (image ++ int32Image entry.term) where
  written serializer := by
    simp only [logEntry, (int32_restores 0 _).written, cmd.written, insert_insert]
  restored consumed rest := by
    simp only [logEntry, append_assoc, (int32_restores _ _).restored,
      cmd.restored, bind_eq_bind, bind_some]
    rfl

namespace AppendEntriesArgs

def image (args : AppendEntriesArgs Command) (cmd : Command → List Byte) : List Byte :=
  int32Image args.term ++ (int32Image args.leaderId ++ (int32Image args.prevLogIndex ++
    (int32Image args.prevLogTerm ++
      (Overload.sequenceImage (fun entry => cmd entry.cmd ++ int32Image entry.term) args.entries ++
        int32Image args.leaderCommit))))

theorem restores {cmd : Command → List Byte} {args : AppendEntriesArgs Command}
    (lawful : ∀ value, command.Restores command.fresh value (cmd value))
    (fewer : args.entries.length < 2 ^ 32) :
    (overload command).Restores (overload command).fresh args (args.image cmd) := by
  have entries : (entriesOverload command).Restores [] args.entries
      (Overload.sequenceImage (fun entry => cmd entry.cmd ++ int32Image entry.term)
        args.entries) := by
    refine Overload.sequence_restores (fun entry _ target held => ?_) fewer
    obtain rfl := eq_of_mem_resize_nil held
    exact logEntry_restores (lawful entry.cmd)
  constructor
  · intro serializer
    simp only [overload, image, (int32_restores 0 _).written, entries.written,
      insert_insert, append_assoc]
  · intro consumed rest
    simp only [overload, image, append_assoc, (int32_restores _ _).restored,
      entries.restored, bind_eq_bind, bind_some]
    rfl

theorem length_entries_deserialize {target args : AppendEntriesArgs Command}
    {before after : Serializer}
    (read : (overload command).deserialize target before = some (args, after)) :
    args.entries.length < 2 ^ 32 := by
  simp only [overload, bind_eq_bind, bind_eq_some_iff] at read
  obtain ⟨_, _, _, _, _, _, _, _, entries, readEntries, _, _, same⟩ := read
  cases same
  exact Overload.length_deserialize_sequence readEntries

theorem survives_iff {cmd : Command → List Byte} (args : AppendEntriesArgs Command)
    (lawful : ∀ value, command.Restores command.fresh value (cmd value)) :
    (overload command).Survives args ↔ args.entries.length < 2 ^ 32 :=
  ⟨fun survives => length_entries_deserialize (survives [] []),
    fun fewer => (restores lawful fewer).survives⟩

end AppendEntriesArgs

theorem AppendEntriesReply.restores (target : AppendEntriesReply) :
    AppendEntriesReply.overload.Restores target target [] where
  written serializer := serializer.insert_nil.symm
  restored consumed rest := by
    rw [nil_append, append_nil]
    rfl

theorem AppendEntriesReply.survives_iff (reply : AppendEntriesReply) :
    AppendEntriesReply.overload.Survives reply ↔ reply = ⟨0, false⟩ := by
  constructor
  · intro survives
    have read := survives [] []
    cases read
    rfl
  · rintro rfl
    exact (AppendEntriesReply.restores ⟨0, false⟩).survives

theorem AppendEntriesReply.survives_response_iff (response : Rpc.RpcResponse AppendEntriesReply)
    (sized : SizedString response.errMsg) :
    (Rpc.RpcResponse.overload AppendEntriesReply.overload).Survives response ↔
      response.detailValue = ⟨0, false⟩ := by
  obtain ⟨errCode, errMsg, detailValue⟩ := response
  -- The response with the fresh value has the same bytes, and it is what is read.
  have received : (Rpc.RpcResponse.overload AppendEntriesReply.overload).Survives
      ⟨errCode, errMsg, ⟨0, false⟩⟩ := by
    refine (Rpc.RpcResponse.restores ?_ (AppendEntriesReply.restores ⟨0, false⟩)).survives
    exact sized
  constructor
  · intro survives
    have same := (survives [] []).symm.trans (received [] [])
    cases same
    rfl
  · rintro rfl
    exact received

/-- Whether a message survives, for any commands whose own codec restores them. -/
theorem message_survives_iff (message : Message Command) (sized : message.Sized)
    (lawful : ∀ cmd, ∃ image, command.Restores command.fresh cmd image) :
    message.Survives command ↔ message.Transmittable := by
  choose image lawful using lawful
  cases message with
  | requestVoteArgs args => exact iff_of_true (RequestVoteArgs.restores _ args).survives trivial
  | requestVoteReply reply => exact iff_of_true (RequestVoteReply.restores _ reply).survives trivial
  | requestVoteResponse response =>
    exact iff_of_true (Rpc.RpcResponse.restores sized (RequestVoteReply.restores _ _)).survives
      trivial
  | logEntry entry => exact iff_of_true (logEntry_restores (lawful entry.cmd)).survives trivial
  | appendEntriesArgs args => exact args.survives_iff lawful
  | appendEntriesReply reply => exact reply.survives_iff
  | appendEntriesResponse response =>
    exact AppendEntriesReply.survives_response_iff response sized

theorem message_survives_iff_entries :
    let args : AppendEntriesArgs Int32 := ⟨3, 1, 0, 2, [⟨7, 3⟩, ⟨8, 3⟩], 0⟩
    (Message.appendEntriesArgs args).Survives Overload.int32 ↔ args.entries.length < 2 ^ 32 :=
  message_survives_iff (.appendEntriesArgs _) trivial fun cmd => ⟨_, int32_restores _ cmd⟩

/-- A follower that accepts entries in term 1 is received as one that refuses them in term 0. -/
theorem append_entries_reply_lost :
    (Rpc.RpcResponse.overload AppendEntriesReply.overload).deserialize
        (.initial AppendEntriesReply.overload)
        (.ofBuffer ((Rpc.RpcResponse.overload AppendEntriesReply.overload).serialize
          ⟨0, [], ⟨1, true⟩⟩ .empty).buffer) =
      some (⟨0, [], ⟨0, false⟩⟩, ⟨[0, 0, 0, 0, 0, 0, 0, 0, 0, 0], 10⟩) := by
  decide

end Bitdb.Raft.Wire
