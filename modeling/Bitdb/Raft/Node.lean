import Bitdb.Base.Run
import Bitdb.Raft.Storage
import Mathlib.Data.Finset.Card
import Mathlib.Data.Fintype.Card

/-! A Raft node (`bitdb/raft/raft.h`, and the messages of `raft_protocol.h`). Every method holds the
mutex of the node, so it is one step. Nodes are numbered from zero, and `-1` in `vote_for_` is
`none`. A log has fewer than 2^31 entries. Clocks only decide when a step is taken. A cluster of
Raft nodes. The network keeps everything that was sent and may deliver it at any time, any number of
times or never; arguments and replies arrive unchanged. What the handlers of a Raft node do, and
what every step keeps of its log and its indices. -/

set_option autoImplicit false

namespace Bitdb.Raft

open Function

variable {n : Nat} {Command : Type}

structure RequestVoteArgs (n : Nat) where
  term : Int32
  candidateId : Fin n
  lastLogIndex : Int
  lastLogTerm : Int32
  deriving DecidableEq

structure RequestVoteReply where
  term : Int32
  voteGranted : Bool
  deriving DecidableEq

structure AppendEntriesArgs (n : Nat) (Command : Type) where
  term : Int32
  leaderId : Fin n
  prevLogIndex : Int
  prevLogTerm : Int32
  entries : List (LogEntry Command)
  leaderCommit : Int
  deriving DecidableEq

structure AppendEntriesReply where
  term : Int32
  success : Bool
  deriving DecidableEq

inductive RaftRole where
  | follower
  | candidate
  | leader
  deriving DecidableEq, Repr

/-- `disk` is what `Flush` has stored last, and `applied` are the calls of `ApplyLog` so
far, with the positions of their entries. -/
structure Node (n : Nat) (Command : Type) where
  myId : Fin n
  stopped : Bool
  role : RaftRole
  followerIdSet : Finset (Fin n)
  currentTerm : Int32
  voteFor : Option (Fin n)
  storage : RaftStorage Command
  disk : RaftStorage Command
  commitIndex : Int
  lastApplied : Int
  nextIndex : Fin n → Int
  matchIndex : Fin n → Int
  applied : List (Int × Command)

namespace Node

/-- The constructor, over a storage that was read from its file. -/
def new (myId : Fin n) (storage : RaftStorage Command) : Node n Command :=
  { myId, stopped := false, role := .follower, followerIdSet := ∅, currentTerm := 0,
    voteFor := none, storage, disk := storage, commitIndex := 0, lastApplied := 0,
    nextIndex := fun _ => 0, matchIndex := fun _ => 0, applied := [] }

def flush (node : Node n Command) : Node n Command := { node with disk := node.storage }

def getLastLogIndex (node : Node n Command) : Int := node.storage.log.length

/-- Indices count from one; a negative one would read in front of the log. -/
def getLogTerm (node : Node n Command) (logIndex : Int) : Option Int32 :=
  if node.getLastLogIndex < logIndex then some (-1)
  else if logIndex = 0 then some 0
  else if logIndex < 0 then none
  else (node.storage.log[logIndex.toNat - 1]?).map (·.term)

def beginNewTerm (term : Int32) (node : Node n Command) : Node n Command :=
  flush { node with
    currentTerm := term
    followerIdSet := ∅
    storage := { node.storage with currentTerm := term, voteFor := -1 } }

def becomeFollower (term : Int32) (node : Node n Command) : Node n Command :=
  beginNewTerm term { node with role := .follower, voteFor := none }

def becomeCandidate (term : Int32) (node : Node n Command) : Node n Command :=
  beginNewTerm term { node with role := .candidate, voteFor := some node.myId }

def becomeLeader (node : Node n Command) : Node n Command :=
  { node with
    role := .leader
    nextIndex := fun _ => node.getLastLogIndex + 1
    matchIndex := fun _ => 0 }

/-- The term and the index of the new entry, when the node is the leader. -/
def newCommand (cmd : Command) (node : Node n Command) : Option (Int32 × Int) × Node n Command :=
  if node.stopped ∨ node.role ≠ .leader then (none, node)
  else (some (node.currentTerm, node.getLastLogIndex),
    flush { node with storage := node.storage.addLog ⟨cmd, node.currentTerm⟩ })

def others (node : Node n Command) : List (Fin n) :=
  (List.finRange n).filter (· ≠ node.myId)

/-- A request of a later term makes the node a follower of that term. -/
def catchUp (term : Int32) (node : Node n Command) : Node n Command :=
  if node.currentTerm < term then node.becomeFollower term else node

/-- A request of a leader makes the node a follower. -/
def stepDown (term : Int32) (node : Node n Command) : Node n Command :=
  if node.role = .follower then node else node.becomeFollower term

def requestVote (args : RequestVoteArgs n) (node : Node n Command) :
    Option (RequestVoteReply × Node n Command) :=
  if node.stopped then some (⟨0, false⟩, node)
  else do
    let node := node.catchUp args.term
    if args.term = node.currentTerm ∧
        (node.voteFor = none ∨ node.voteFor = some args.candidateId) then
      let lastLogIndex := node.getLastLogIndex
      let lastLogTerm ← node.getLogTerm lastLogIndex
      if lastLogTerm < args.lastLogTerm ∨
          (lastLogTerm = args.lastLogTerm ∧ lastLogIndex ≤ args.lastLogIndex) then
        return (⟨node.currentTerm, true⟩, { node with voteFor := some args.candidateId })
      else return (⟨node.currentTerm, false⟩, node)
    else return (⟨node.currentTerm, false⟩, node)

def isLogIndexMatched (prevLogIndex : Int) (prevLogTerm : Int32) (node : Node n Command) :
    Option Bool :=
  if node.getLastLogIndex < prevLogIndex then some false
  else (node.getLogTerm prevLogIndex).map fun term => prevLogTerm = term

/-- How many of the new entries have the terms of the old ones they would replace. -/
def matchingTerms : List (LogEntry Command) → List (LogEntry Command) → Nat
  | old :: olds, new :: news => if old.term = new.term then matchingTerms olds news + 1 else 0
  | _, _ => 0

/-- The entries from the first one on whose term differs from the log, or that is behind
its end, overwrite the log. -/
def storeEntries [Inhabited Command] (prevLogIndex : Int) (entries : List (LogEntry Command))
    (node : Node n Command) : Node n Command :=
  let start := (prevLogIndex + 1).toNat
  let newEntriesIndex := matchingTerms (node.storage.log.drop start) entries
  if newEntriesIndex < entries.length then
    { node with
      storage := node.storage.addLogAt (start + newEntriesIndex) (entries.drop newEntriesIndex) }
  else node

def followCommit (leaderCommit : Int) (node : Node n Command) : Node n Command :=
  if node.commitIndex < leaderCommit then
    { node with commitIndex := min leaderCommit ((node.storage.log.length : Int) - 1) }
  else node

def appendEntries [Inhabited Command] (args : AppendEntriesArgs n Command)
    (node : Node n Command) : Option (AppendEntriesReply × Node n Command) :=
  if args.term < node.currentTerm ∨ node.stopped then some (⟨node.currentTerm, false⟩, node)
  else
    let node := node.catchUp args.term
    -- The answer to a heartbeat keeps the zero its term was initialised with.
    if args.entries.isEmpty then some (⟨0, false⟩, node.stepDown args.term)
    else if args.term = node.currentTerm then do
      let node := node.stepDown args.term
      if ← node.isLogIndexMatched args.prevLogIndex args.prevLogTerm then
        let node := node.storeEntries args.prevLogIndex args.entries
        let node := node.followCommit args.leaderCommit
        return (⟨node.currentTerm, true⟩, node)
      else return (⟨node.currentTerm, false⟩, node)
    else some (⟨node.currentTerm, false⟩, node)

/-- `SendRequestVote` behind its call. The argument carries the term saved when the
request was sent. -/
def receiveVote (target : Fin n) (args : RequestVoteArgs n) (reply : RequestVoteReply)
    (node : Node n Command) : Node n Command :=
  if node.role ≠ .candidate then node
  else if args.term < reply.term then node.becomeFollower reply.term
  else
    let node :=
      if reply.term = args.term ∧ reply.voteGranted then
        { node with followerIdSet := insert target node.followerIdSet }
      else node
    if n / 2 < node.followerIdSet.card + 1 then node.becomeLeader else node

/-- The leader itself and the followers that have the log up to an index. -/
def matchCount (node : Node n Command) (index : Int) : Nat :=
  1 + (node.followerIdSet.filter fun follower => index ≤ node.matchIndex follower).card

def advanceCommit (term : Int32) (node : Node n Command) : Int :=
  let first := (node.commitIndex + 1).toNat
  (List.range' first (node.storage.log.length - first)).foldl
    (fun commitIndex (index : Nat) =>
      if node.storage.log[index]?.map (·.term) = some term ∧
          n + 1 < node.matchCount index * 2 then (index : Int)
      else commitIndex)
    node.commitIndex

/-- `SendAppendEntries` behind its call. A heartbeat that is sent again is no longer known
as one, so its answer is handled like the others. -/
def receiveAppended (target : Fin n) (args : AppendEntriesArgs n Command)
    (reply : AppendEntriesReply) (node : Node n Command) : Node n Command :=
  if args.term < reply.term then node.becomeFollower reply.term
  else if node.role = .leader ∧ reply.term = args.term then
    if reply.success then
      let next := node.nextIndex target + args.entries.length
      let node := { node with
        nextIndex := update node.nextIndex target next
        matchIndex := update node.matchIndex target (next - 1) }
      { node with commitIndex := node.advanceCommit reply.term }
    else
      { node with
        nextIndex := update node.nextIndex target (node.nextIndex target - 1) }
  else node

/-- `StartElection`: the request for all other nodes. The next term must be an `int32_t`. -/
def startElection (node : Node n Command) : Option (RequestVoteArgs n × Node n Command) :=
  if node.currentTerm = Int32.maxValue then none
  else do
    let node := node.becomeCandidate (node.currentTerm + 1)
    let lastLogIndex := node.getLastLogIndex
    let lastLogTerm ← node.getLogTerm lastLogIndex
    return (⟨node.currentTerm, node.myId, lastLogIndex, lastLogTerm⟩, node)

/-- What a leader sends to a node: everything behind the entries it is known to have, or
nothing with a heartbeat. -/
def entriesFor (heartbeat : Bool) (node : Node n Command) (target : Fin n) :
    Option (AppendEntriesArgs n Command) := do
  let prevLogIndex := node.nextIndex target - 1
  let prevLogTerm ← node.getLogTerm prevLogIndex
  return ⟨node.currentTerm, node.myId, prevLogIndex, prevLogTerm,
    if heartbeat then [] else node.storage.log.drop prevLogIndex.toNat, node.commitIndex⟩

/-- The body of the loop of `RunBackgroundApply`. -/
def applyNext (node : Node n Command) : Option (Node n Command) :=
  if node.lastApplied < 0 then none
  else
    (node.storage.log[node.lastApplied.toNat]?).map fun entry =>
      { node with
        applied := node.applied ++ [(node.lastApplied, entry.cmd)]
        lastApplied := node.lastApplied + 1 }

def applyLoop : Nat → Node n Command → Option (Node n Command)
  | 0, node => some node
  | rounds + 1, node => do
      let node ← node.applyNext
      applyLoop rounds node

/-- `RunBackgroundApply` between two naps. -/
def runBackgroundApply (node : Node n Command) : Option (Node n Command) :=
  node.applyLoop (node.commitIndex - node.lastApplied).toNat

end Node

open Base

/-- A request on its way to `target`, or its answer on the way back together with the
arguments that the caller has kept. -/
inductive Message (n : Nat) (Command : Type) where
  | voteRequest (target : Fin n) (args : RequestVoteArgs n)
  | voteReply (target : Fin n) (args : RequestVoteArgs n) (reply : RequestVoteReply)
  | appendRequest (target : Fin n) (args : AppendEntriesArgs n Command)
  | appendReply (target : Fin n) (args : AppendEntriesArgs n Command)
      (reply : AppendEntriesReply)
  deriving DecidableEq

def Message.receiver : Message n Command → Fin n
  | .voteRequest target _ => target
  | .voteReply _ args _ => args.candidateId
  | .appendRequest target _ => target
  | .appendReply _ args _ => args.leaderId

inductive Input (n : Nat) (Command : Type) where
  | election
  | heartbeat
  | commit
  | apply
  | command (cmd : Command)
  | stop
  | receive (message : Message n Command)

/-- A step of a node and the messages it sends. `none` stands for steps the node does not
take, or that have no defined behaviour. -/
def Node.handle [Inhabited Command] (node : Node n Command) :
    Input n Command → Option (Node n Command × List (Message n Command))
  | .election =>
    if node.stopped ∨ node.role = .leader then none
    else node.startElection.map fun (args, reached) =>
      (reached, node.others.map fun target => .voteRequest target args)
  | .heartbeat =>
    if node.stopped ∨ node.role ≠ .leader then none
    else (node.others.mapM fun target =>
      (node.entriesFor true target).map (Message.appendRequest target)).map fun sent =>
        (node, sent)
  | .commit =>
    if node.stopped ∨ node.role ≠ .leader then none
    else ((node.others.filter fun target =>
        node.nextIndex target ≤ node.getLastLogIndex).mapM fun target =>
      (node.entriesFor false target).map (Message.appendRequest target)).map fun sent =>
        (node, sent)
  | .apply => if node.stopped then none else node.runBackgroundApply.map fun reached => (reached, [])
  | .command cmd => some ((node.newCommand cmd).2, [])
  | .stop => some ({ node with stopped := true }, [])
  | .receive (.voteRequest target args) =>
    (node.requestVote args).map fun (reply, reached) =>
      (reached, [.voteReply target args reply])
  | .receive (.voteReply target args reply) => some (node.receiveVote target args reply, [])
  | .receive (.appendRequest target args) =>
    (node.appendEntries args).map fun (reply, reached) =>
      (reached, [.appendReply target args reply])
  | .receive (.appendReply target args reply) =>
    some (node.receiveAppended target args reply, [])

structure Cluster (n : Nat) (Command : Type) where
  nodes : Fin n → Node n Command
  sent : List (Message n Command)

def Cluster.initial : Cluster n Command := ⟨fun myId => .new myId .initial, []⟩

inductive Event (n : Nat) (Command : Type) where
  | act (id : Fin n) (input : Input n Command)
  /-- The node is gone and made anew over the same file. -/
  | restart (id : Fin n)

def Cluster.after (cluster : Cluster n Command) (id : Fin n)
    (stepped : Node n Command × List (Message n Command)) : Cluster n Command :=
  ⟨update cluster.nodes id stepped.1, cluster.sent ++ stepped.2⟩

inductive Step [Inhabited Command] : Cluster n Command → Event n Command → Cluster n Command → Prop
    where
  | act {cluster : Cluster n Command} {id : Fin n} {input : Input n Command}
      {reached : Node n Command} {sent : List (Message n Command)}
      (delivered : ∀ message, input = .receive message →
        message ∈ cluster.sent ∧ message.receiver = id)
      (handled : (cluster.nodes id).handle input = some (reached, sent)) :
      Step cluster (.act id input) (cluster.after id (reached, sent))
  | restart {cluster : Cluster n Command} (id : Fin n) :
      Step cluster (.restart id)
        ⟨update cluster.nodes id (.new id (cluster.nodes id).disk), cluster.sent⟩

abbrev Execution [Inhabited Command] (events : List (Event n Command))
    (reached : Cluster n Command) : Prop :=
  Run Step .initial events reached

/-- The steps without restarts that none of the inputs to avoid is part of. -/
inductive StepWithout [Inhabited Command] (avoided : Node n Command → Input n Command → Prop) :
    Cluster n Command → Event n Command → Cluster n Command → Prop where
  | act {cluster reached : Cluster n Command} {id : Fin n} {input : Input n Command}
      (step : Step cluster (.act id input) reached)
      (without : ¬ avoided (cluster.nodes id) input) :
      StepWithout avoided cluster (.act id input) reached

def Cluster.next [Inhabited Command] [DecidableEq Command] (cluster : Cluster n Command) :
    Event n Command → Option (Cluster n Command)
  | .act id (.receive message) =>
    if message ∈ cluster.sent ∧ message.receiver = id then
      ((cluster.nodes id).handle (.receive message)).map (cluster.after id)
    else none
  | .act id input => ((cluster.nodes id).handle input).map (cluster.after id)
  | .restart id =>
    some ⟨update cluster.nodes id (.new id (cluster.nodes id).disk), cluster.sent⟩

open Base Option

namespace Node

section Fields

variable (term : Int32) (node : Node n Command)

@[simp] theorem becomeFollower_myId : (node.becomeFollower term).myId = node.myId := rfl
@[simp] theorem becomeFollower_currentTerm : (node.becomeFollower term).currentTerm = term := rfl

theorem catchUp_cases : (node.catchUp term = node ∧ ¬ node.currentTerm < term) ∨
    (node.catchUp term = node.becomeFollower term ∧ node.currentTerm < term) := by
  rw [catchUp]
  split
  · exact .inr ⟨rfl, ‹_›⟩
  · exact .inl ⟨rfl, ‹_›⟩

@[simp] theorem catchUp_myId : (node.catchUp term).myId = node.myId := by
  rcases catchUp_cases term node with ⟨same, _⟩ | ⟨follows, _⟩
  · rw [same]
  · rw [follows, becomeFollower_myId]

theorem stepDown_cases : (node.stepDown term = node ∧ node.role = .follower) ∨
    (node.stepDown term = node.becomeFollower term ∧ node.role ≠ .follower) := by
  rw [stepDown]
  split
  · exact .inl ⟨rfl, ‹_›⟩
  · exact .inr ⟨rfl, ‹_›⟩

end Fields

section Handlers

variable {node reached : Node n Command}

theorem getLogTerm_last (node : Node n Command) :
    ∃ term, node.getLogTerm node.getLastLogIndex = some term := by
  rw [getLogTerm, if_neg (Int.lt_irrefl _)]
  by_cases empty : node.getLastLogIndex = 0
  · exact ⟨0, if_pos empty⟩
  · have size : 0 < node.storage.log.length := by
      rw [getLastLogIndex] at empty
      omega
    have inside : node.storage.log.length - 1 < node.storage.log.length := by omega
    rw [if_neg empty, if_neg (by rw [getLastLogIndex]; omega), getLastLogIndex, Int.toNat_natCast,
      List.getElem?_eq_getElem inside]
    exact ⟨_, rfl⟩

theorem requestVote_cases {args : RequestVoteArgs n} {reply : RequestVoteReply}
    (ran : node.requestVote args = some (reply, reached)) :
    (reply.voteGranted = false ∧ (reached = node ∨ reached = node.catchUp args.term)) ∨
      (reply = ⟨args.term, true⟩ ∧ (node.catchUp args.term).currentTerm = args.term ∧
        ((node.catchUp args.term).voteFor = none ∨
          (node.catchUp args.term).voteFor = some args.candidateId) ∧
        reached = { node.catchUp args.term with voteFor := some args.candidateId }) := by
  rw [requestVote] at ran
  split at ran
  · cases ran
    exact .inl ⟨rfl, .inl rfl⟩
  · simp only at ran
    split at ran
    · rename_i open_
      obtain ⟨term, last⟩ := getLogTerm_last (node.catchUp args.term)
      rw [last] at ran
      simp only [bind_eq_bind, bind_some] at ran
      split at ran
      · cases ran
        exact .inr ⟨by rw [← open_.1], open_.1.symm, open_.2, rfl⟩
      · cases ran
        exact .inl ⟨rfl, .inr rfl⟩
    · cases ran
      exact .inl ⟨rfl, .inr rfl⟩

theorem appendEntries_cases [Inhabited Command] {args : AppendEntriesArgs n Command}
    {reply : AppendEntriesReply} (ran : node.appendEntries args = some (reply, reached)) :
    ((args.term < node.currentTerm ∨ node.stopped = true) ∧ reply = ⟨node.currentTerm, false⟩ ∧
        reached = node) ∨
      (¬ args.term < node.currentTerm ∧ node.stopped = false ∧ reply.success = false ∧
        reached = (node.catchUp args.term).stepDown args.term) ∨
      (¬ args.term < node.currentTerm ∧ node.stopped = false ∧ args.entries ≠ [] ∧
        reply.success = true ∧
        ((node.catchUp args.term).stepDown args.term).isLogIndexMatched args.prevLogIndex
          args.prevLogTerm = some true ∧
        reached = (((node.catchUp args.term).stepDown args.term).storeEntries args.prevLogIndex
          args.entries).followCommit args.leaderCommit) := by
  rw [appendEntries] at ran
  split at ran
  · rename_i refused
    cases ran
    exact .inl ⟨refused, rfl, rfl⟩
  · rename_i accepted
    obtain ⟨current, running⟩ := not_or.mp accepted
    rw [Bool.not_eq_true] at running
    simp only at ran
    have caught : args.term = (node.catchUp args.term).currentTerm := by
      rcases catchUp_cases args.term node with ⟨same, notBehind⟩ | ⟨follows, behind⟩
      · rw [same]
        grind
      · rw [follows, becomeFollower_currentTerm]
    split at ran
    · cases ran
      exact .inr (.inl ⟨current, running, rfl, rfl⟩)
    · rename_i entries
      cases matched : ((node.catchUp args.term).stepDown args.term).isLogIndexMatched
          args.prevLogIndex args.prevLogTerm with
      | none => simp [matched] at ran
      | some answer =>
        simp only [matched, bind_eq_bind, bind_some] at ran
        cases answer with
        | false =>
          simp only [Bool.false_eq_true, if_false] at ran
          cases ran
          exact .inr (.inl ⟨current, running, rfl, rfl⟩)
        | true =>
          simp only [if_true] at ran
          cases ran
          exact .inr (.inr ⟨current, running, by simpa using entries, rfl, rfl, rfl⟩)

theorem receiveVote_cases (target : Fin n) (args : RequestVoteArgs n) (reply : RequestVoteReply)
    (node : Node n Command) :
    (node.role ≠ .candidate ∧ node.receiveVote target args reply = node) ∨
      (node.role = .candidate ∧ args.term < reply.term ∧
        node.receiveVote target args reply = node.becomeFollower reply.term) ∨
      (node.role = .candidate ∧ ¬ args.term < reply.term ∧ ∃ followers,
        (followers = node.followerIdSet ∨ (reply = ⟨args.term, true⟩ ∧
          followers = insert target node.followerIdSet)) ∧
        node.receiveVote target args reply =
          if n / 2 < followers.card + 1 then
            becomeLeader { node with followerIdSet := followers }
          else { node with followerIdSet := followers }) := by
  rw [receiveVote]
  split
  · exact .inl ⟨‹_›, rfl⟩
  · rename_i candidate
    rw [not_not] at candidate
    split
    · exact .inr (.inl ⟨candidate, ‹_›, rfl⟩)
    · refine .inr (.inr ⟨candidate, ‹_›, ?_⟩)
      split
      · rename_i granted
        refine ⟨_, .inr ⟨?_, rfl⟩, rfl⟩
        cases reply
        simp_all
      · exact ⟨_, .inl rfl, rfl⟩

/-- What an answer to `AppendEntries` makes of a node: only a term ahead of the request
touches more than its indices. -/
theorem receiveAppended_cases (target : Fin n) (args : AppendEntriesArgs n Command)
    (reply : AppendEntriesReply) (node : Node n Command) :
    (args.term < reply.term ∧
        node.receiveAppended target args reply = node.becomeFollower reply.term) ∨
      (¬ args.term < reply.term ∧ ∃ nextIndex matchIndex commitIndex,
        node.receiveAppended target args reply = { node with nextIndex, matchIndex, commitIndex } ∧
        (commitIndex = node.commitIndex ∨ (reply.success = true ∧ reply.term = args.term ∧
          node.role = .leader ∧
          commitIndex = { node with nextIndex, matchIndex }.advanceCommit reply.term))) := by
  rw [receiveAppended]
  split
  · exact .inl ⟨‹_›, rfl⟩
  · refine .inr ⟨‹_›, ?_⟩
    split
    · rename_i led
      split
      · exact ⟨_, _, _, rfl, .inr ⟨‹_›, led.2, led.1, rfl⟩⟩
      · exact ⟨_, _, _, rfl, .inl rfl⟩
    · exact ⟨_, _, _, rfl, .inl rfl⟩

theorem applyLoop_frame {rounds : Nat} (ran : node.applyLoop rounds = some reached) :
    ∃ applied lastApplied, reached = { node with applied, lastApplied } := by
  induction rounds generalizing node with
  | zero =>
    cases ran
    exact ⟨_, _, rfl⟩
  | succ rounds ih =>
    obtain ⟨middle, first, rest⟩ := bind_eq_some_iff.mp ran
    rw [applyNext] at first
    split at first
    · cases first
    · obtain ⟨entry, _, made⟩ := map_eq_some_iff.mp first
      obtain ⟨applied, lastApplied, ended⟩ := ih rest
      rw [← made] at ended
      exact ⟨applied, lastApplied, ended⟩

theorem startElection_cases {args : RequestVoteArgs n}
    (ran : node.startElection = some (args, reached)) :
    node.currentTerm ≠ Int32.maxValue ∧ (∃ lastLogTerm,
        args = ⟨node.currentTerm + 1, node.myId, node.getLastLogIndex, lastLogTerm⟩) ∧
      reached = node.becomeCandidate (node.currentTerm + 1) := by
  rw [startElection] at ran
  split at ran
  · cases ran
  · obtain ⟨term, last⟩ := getLogTerm_last (node.becomeCandidate (node.currentTerm + 1))
    simp only [last, bind_eq_bind, bind_some] at ran
    cases ran
    exact ⟨‹_›, ⟨term, rfl⟩, rfl⟩

/-- Everything a node does with its inputs, and what it sends. Heartbeats and entries for those
that lack some go to others in the same way. -/
inductive Handles [Inhabited Command] (node : Node n Command) :
    Input n Command → Node n Command → List (Message n Command) → Prop where
  | election {args : RequestVoteArgs n} {reached : Node n Command}
      (notLeader : node.role ≠ .leader) (ran : node.startElection = some (args, reached)) :
      Handles node .election reached (node.others.map fun target => .voteRequest target args)
  | replicate {input : Input n Command} {sent : List (Message n Command)} (heartbeat : Bool)
      (targets : List (Fin n)) (round : input = .heartbeat ∨ input = .commit)
      (leader : node.role = .leader) (others : ∀ target ∈ targets, target ∈ node.others)
      (made : (targets.mapM fun target =>
        (node.entriesFor heartbeat target).map (Message.appendRequest target)) = some sent) :
      Handles node input node sent
  | apply {reached : Node n Command} (ran : node.runBackgroundApply = some reached) :
      Handles node .apply reached []
  | refuse (cmd : Command) : Handles node (.command cmd) node []
  | command (cmd : Command) (leader : node.role = .leader) :
      Handles node (.command cmd)
        (flush { node with storage := node.storage.addLog ⟨cmd, node.currentTerm⟩ }) []
  | stop : Handles node .stop { node with stopped := true } []
  | voteRequest {reply : RequestVoteReply} {reached : Node n Command} (target : Fin n)
      (args : RequestVoteArgs n) (ran : node.requestVote args = some (reply, reached)) :
      Handles node (.receive (.voteRequest target args)) reached [.voteReply target args reply]
  | voteReply (target : Fin n) (args : RequestVoteArgs n) (reply : RequestVoteReply) :
      Handles node (.receive (.voteReply target args reply))
        (node.receiveVote target args reply) []
  | appendRequest {reply : AppendEntriesReply} {reached : Node n Command} (target : Fin n)
      (args : AppendEntriesArgs n Command)
      (ran : node.appendEntries args = some (reply, reached)) :
      Handles node (.receive (.appendRequest target args)) reached
        [.appendReply target args reply]
  | appendReply (target : Fin n) (args : AppendEntriesArgs n Command)
      (reply : AppendEntriesReply) :
      Handles node (.receive (.appendReply target args reply))
        (node.receiveAppended target args reply) []

theorem handles_of_handle [Inhabited Command] {input : Input n Command}
    {sent : List (Message n Command)} (handled : node.handle input = some (reached, sent)) :
    node.Handles input reached sent := by
  cases input with
  | election =>
    rw [handle] at handled
    split at handled
    · cases handled
    · rename_i active
      obtain ⟨⟨args, after⟩, ran, ended⟩ := map_eq_some_iff.mp handled
      cases ended
      exact .election (not_or.mp active).2 ran
  | heartbeat =>
    rw [handle] at handled
    split at handled
    · cases handled
    · rename_i active
      obtain ⟨messages, made, ended⟩ := map_eq_some_iff.mp handled
      cases ended
      exact .replicate true node.others (.inl rfl) (not_not.mp (not_or.mp active).2)
        (fun _ => id) made
  | commit =>
    rw [handle] at handled
    split at handled
    · cases handled
    · rename_i active
      obtain ⟨messages, made, ended⟩ := map_eq_some_iff.mp handled
      cases ended
      exact .replicate false _ (.inr rfl) (not_not.mp (not_or.mp active).2)
        (fun _ member => (List.mem_filter.mp member).1) made
  | apply =>
    rw [handle] at handled
    split at handled
    · cases handled
    · obtain ⟨after, ran, ended⟩ := map_eq_some_iff.mp handled
      cases ended
      exact .apply ran
  | command cmd =>
    cases handled
    rw [newCommand]
    split
    · exact .refuse cmd
    · rename_i active
      exact .command cmd (not_not.mp (not_or.mp active).2)
  | stop =>
    cases handled
    exact .stop
  | receive message =>
    cases message with
    | voteRequest target args =>
      obtain ⟨⟨reply, after⟩, ran, ended⟩ := map_eq_some_iff.mp handled
      cases ended
      exact .voteRequest target args ran
    | voteReply target args reply =>
      cases handled
      exact .voteReply target args reply
    | appendRequest target args =>
      obtain ⟨⟨reply, after⟩, ran, ended⟩ := map_eq_some_iff.mp handled
      cases ended
      exact .appendRequest target args ran
    | appendReply target args reply =>
      cases handled
      exact .appendReply target args reply

end Handlers

/-- A step leaves the log alone, and what is committed and applied of it. -/
structure SameLog (node reached : Node n Command) : Prop where
  log : reached.storage.log = node.storage.log
  commitIndex : reached.commitIndex = node.commitIndex
  lastApplied : reached.lastApplied = node.lastApplied
  applied : reached.applied = node.applied

section SameLog

variable {node middle reached : Node n Command}

theorem SameLog.refl (node : Node n Command) : node.SameLog node := ⟨rfl, rfl, rfl, rfl⟩

theorem SameLog.trans (first : node.SameLog middle) (second : middle.SameLog reached) :
    node.SameLog reached :=
  ⟨second.log.trans first.log, second.commitIndex.trans first.commitIndex,
    second.lastApplied.trans first.lastApplied, second.applied.trans first.applied⟩

theorem sameLog_becomeFollower (term : Int32) (node : Node n Command) :
    node.SameLog (node.becomeFollower term) :=
  ⟨rfl, rfl, rfl, rfl⟩

theorem sameLog_catchUp (term : Int32) (node : Node n Command) :
    node.SameLog (node.catchUp term) := by
  rcases catchUp_cases term node with ⟨same, _⟩ | ⟨follows, _⟩
  · rw [same]
    exact .refl node
  · rw [follows]
    exact sameLog_becomeFollower term node

theorem sameLog_obey (term : Int32) (node : Node n Command) :
    node.SameLog ((node.catchUp term).stepDown term) := by
  refine (sameLog_catchUp term node).trans ?_
  rcases stepDown_cases term (node.catchUp term) with ⟨same, _⟩ | ⟨follows, _⟩
  · rw [same]
    exact .refl _
  · rw [follows]
    exact sameLog_becomeFollower term _

theorem sameLog_requestVote {args : RequestVoteArgs n} {reply : RequestVoteReply}
    (ran : node.requestVote args = some (reply, reached)) : node.SameLog reached := by
  have caught := sameLog_catchUp args.term node
  rcases requestVote_cases ran with ⟨_, rfl | rfl⟩ | ⟨_, _, _, rfl⟩
  · exact .refl reached
  · exact caught
  · exact caught.trans ⟨rfl, rfl, rfl, rfl⟩

theorem sameLog_receiveVote (target : Fin n) (args : RequestVoteArgs n) (reply : RequestVoteReply)
    (node : Node n Command) : node.SameLog (node.receiveVote target args reply) := by
  rcases receiveVote_cases target args reply node with
    ⟨_, same⟩ | ⟨_, _, follows⟩ | ⟨_, _, followers, _, counted⟩
  · rw [same]
    exact .refl node
  · rw [follows]
    exact sameLog_becomeFollower _ node
  · rw [counted]
    split
    · exact ⟨rfl, rfl, rfl, rfl⟩
    · exact ⟨rfl, rfl, rfl, rfl⟩

end SameLog

end Node

end Bitdb.Raft
