import Bitdb.Base.Loops
import Bitdb.Raft.LogProperties

/-! What a leader tells its clients and when it commits. Log positions count from one in requests
and from zero in the loop that commits. -/

set_option autoImplicit false

namespace Bitdb.Raft

open Base Function Finset

variable {n : Nat} {Command : Type}

namespace Node

variable {node reached : Node n Command}

section NewCommand

def entryAt (node : Node n Command) (index : Int) : Option (LogEntry Command) :=
  if index ≤ 0 then none else node.storage.log[index.toNat - 1]?

theorem applyNext_entryAt {index : Int} {entry : LogEntry Command}
    (found : node.entryAt index = some entry) (turn : node.lastApplied = index - 1) :
    node.applyNext = some (node.afterCalls [(index - 1, entry.cmd)]) := by
  rw [entryAt] at found
  split at found
  · cases found
  · rename_i positive
    have position : node.lastApplied.toNat = index.toNat - 1 := by omega
    rw [applyNext, if_neg (by omega), position, found, ← turn]
    rfl

theorem newCommand_cases {cmd : Command} {term : Int32} {index : Int}
    (ran : node.newCommand cmd = (some (term, index), reached)) :
    node.stopped = false ∧ node.role = .leader ∧ term = node.currentTerm ∧
      index = node.storage.log.length ∧
      reached.storage.log = node.storage.log ++ [⟨cmd, node.currentTerm⟩] := by
  rw [newCommand] at ran
  split at ran
  · cases ran
  · rename_i leads
    cases ran
    refine ⟨?_, ?_, rfl, rfl, rfl⟩
    · simpa using fun stopped => leads (.inl stopped)
    · by_contra other
      exact leads (.inr other)

/-- The index that a client is told is that of the entry in front of its command, so it
finds its command there only when the same command of the same term was the last one. -/
theorem new_command_position_iff {cmd : Command} {term : Int32} {index : Int}
    (ran : node.newCommand cmd = (some (term, index), reached)) :
    (reached.entryAt index = some ⟨cmd, term⟩ ∧
        ∀ later : Node n Command, later.storage.log = reached.storage.log →
          later.lastApplied = index - 1 →
          later.applyNext = some (later.afterCalls [(index - 1, cmd)])) ↔
      node.storage.log.getLast? = some ⟨cmd, term⟩ := by
  obtain ⟨_, _, rfl, rfl, log⟩ := newCommand_cases ran
  have position : reached.entryAt node.storage.log.length = node.storage.log.getLast? := by
    rw [entryAt, log, List.getLast?_eq_getElem?, Int.toNat_natCast]
    cases node.storage.log with
    | nil => rfl
    | cons first rest =>
      rw [if_neg (by simp), List.getElem?_append_left (by simp)]
  rw [← position]
  refine ⟨And.left, fun found => ⟨found, fun later same turn => ?_⟩⟩
  have there : later.entryAt node.storage.log.length = some ⟨cmd, node.currentTerm⟩ := by
    rw [entryAt, same]
    exact found
  exact applyNext_entryAt there turn

theorem new_command_position_first : ∃ (cluster : Cluster 2 Nat) (reached : Node 2 Nat),
    Execution [.act 0 .election, .act 1 (.receive (.voteRequest 1 ⟨1, 0, 0, 0⟩)),
      .act 0 (.receive (.voteReply 1 ⟨1, 0, 0, 0⟩ ⟨1, true⟩))] cluster ∧
    (cluster.nodes 0).newCommand 5 = (some (1, 0), reached) ∧
      reached.storage.log = [⟨5, 1⟩] ∧ reached.entryAt 0 = none := by
  obtain ⟨cluster, ran, checked⟩ := exists_run (.initial : Cluster 2 Nat)
    [.act 0 .election, .act 1 (.receive (.voteRequest 1 ⟨1, 0, 0, 0⟩)),
      .act 0 (.receive (.voteReply 1 ⟨1, 0, 0, 0⟩ ⟨1, true⟩))]
    (fun cluster => decide (((cluster.nodes 0).newCommand 5).1 = some (1, 0) ∧
      ((cluster.nodes 0).newCommand 5).2.storage.log = [⟨5, 1⟩])) (by decide +kernel)
  obtain ⟨told, log⟩ := of_decide_eq_true checked
  exact ⟨cluster, _, ran, Prod.ext told rfl, log, rfl⟩

theorem new_command_position_again : ∃ node reached : Node 1 Nat,
    node.newCommand 5 = (some (0, 1), reached) ∧ reached.entryAt 1 = some ⟨5, 0⟩ := by
  have ran : ((new 0 .initial).becomeLeader.newCommand 5).2.newCommand 5 =
    (some (0, 1), (((new (0 : Fin 1) .initial).becomeLeader.newCommand 5).2.newCommand 5).2) := rfl
  exact ⟨_, _, ran, ((new_command_position_iff ran).mpr rfl).1⟩

end NewCommand

section Requests

variable {target : Fin n} {args : AppendEntriesArgs n Command}

theorem entriesFor_eq {heartbeat : Bool} (made : node.entriesFor heartbeat target = some args) :
    0 ≤ args.prevLogIndex ∧ args.prevLogIndex = node.nextIndex target - 1 ∧
      args.entries = if heartbeat then [] else node.storage.log.drop args.prevLogIndex.toNat := by
  rw [entriesFor] at made
  obtain ⟨prevLogTerm, found, built⟩ := Option.bind_eq_some_iff.mp made
  cases built
  have nonneg : 0 ≤ node.nextIndex target - 1 := by
    by_contra negative
    have last : 0 ≤ node.getLastLogIndex := Int.natCast_nonneg _
    rw [getLogTerm, if_neg (by omega), if_neg (by omega), if_pos (by omega)] at found
    cases found
  exact ⟨nonneg, rfl, rfl⟩

theorem handle_requests [Inhabited Command] {input : Input n Command}
    {sent : List (Message n Command)} (handled : node.handle input = some (reached, sent))
    (member : .appendRequest target args ∈ sent) :
    reached = node ∧ ∃ heartbeat, node.entriesFor heartbeat target = some args := by
  cases handles_of_handle handled with
  | election notLeader ran => simp at member
  | replicate heartbeat targets round leader others made =>
    obtain ⟨other, _, _, filled, same⟩ := request_of_mem made member
    cases same
    exact ⟨rfl, heartbeat, filled⟩
  | voteRequest | appendRequest => simp at member
  | _ => cases member

end Requests

section Commit

def acknowledged (target : Fin n) (count : Nat) (node : Node n Command) : Node n Command :=
  { node with
    nextIndex := update node.nextIndex target (node.nextIndex target + count)
    matchIndex := update node.matchIndex target (node.nextIndex target + count - 1) }

/-- The loop that commits takes this index: the entry there is of the term, and by the count
of the leader enough nodes have the log up to it. -/
def CommitsAt (node : Node n Command) (term : Int32) (index : Nat) : Prop :=
  node.commitIndex < index ∧ node.storage.log[index]?.map (·.term) = some term ∧
    n + 1 < node.matchCount index * 2

theorem advanceCommit_eq (term : Int32) (node : Node n Command) (nonneg : 0 ≤ node.commitIndex) :
    (node.advanceCommit term = node.commitIndex ∧ ∀ index, ¬ node.CommitsAt term index) ∨
      ∃ index, node.CommitsAt term index ∧ node.advanceCommit term = index ∧
        ∀ other, node.CommitsAt term other → other ≤ index := by
  have inside : ∀ index, node.CommitsAt term index →
      (node.commitIndex + 1).toNat ≤ index ∧ index < (node.commitIndex + 1).toNat +
        (node.storage.log.length - (node.commitIndex + 1).toNat) := by
    rintro index ⟨behind, entry, _⟩
    have short : index < node.storage.log.length := by
      by_contra beyond
      rw [List.getElem?_eq_none (by omega)] at entry
      cases entry
    omega
  rcases foldl_range'_last (fun index => node.storage.log[index]?.map (·.term) = some term ∧
      n + 1 < node.matchCount index * 2) (fun index => (index : Int))
      (node.commitIndex + 1).toNat (node.storage.log.length - (node.commitIndex + 1).toNat)
      node.commitIndex with ⟨same, without⟩ | ⟨index, low, high, takes, last, greatest⟩
  · refine .inl ⟨same, fun index commits => ?_⟩
    obtain ⟨low, high⟩ := inside index commits
    exact without index low high commits.2
  · refine .inr ⟨index, ⟨by omega, takes⟩, last, fun other commits => ?_⟩
    obtain ⟨low, high⟩ := inside other commits
    exact greatest other low high commits.2

end Commit

end Node

section Executions

/-- No node asks itself for a vote, and requests do not start in front of the log. -/
def Message.Formed : Message n Command → Prop
  | .voteRequest target args => target ≠ args.candidateId
  | .voteReply target args _ => target ≠ args.candidateId
  | .appendRequest _ args => 0 ≤ args.prevLogIndex
  | .appendReply _ _ _ => True

/-- The node does not count its own vote, and its indices are inside its log. -/
structure Node.Formed (id : Fin n) (node : Node n Command) : Prop where
  myId : node.myId = id
  apart : id ∉ node.followerIdSet
  inRange : node.InRange

structure Cluster.Formed (cluster : Cluster n Command) : Prop where
  sent : ∀ message ∈ cluster.sent, message.Formed
  nodes : ∀ id, (cluster.nodes id).Formed id

theorem Node.formed_new (id : Fin n) (storage : RaftStorage Command) :
    (Node.new id storage).Formed id :=
  ⟨rfl, notMem_empty id, Node.inRange_new id storage⟩

variable {node : Node n Command}

theorem Node.Moves.apart {input : Input n Command} {ballot : Ballot n}
    {sent : List (Message n Command)} (moves : node.Moves input ballot sent)
    (formed : ∀ message, input = .receive message → message.Formed ∧ message.receiver = node.myId)
    (apart : node.myId ∉ node.followerIdSet) :
    ballot.myId = node.myId ∧ node.myId ∉ ballot.followerIdSet ∧
      ∀ message ∈ sent, message.Formed ∨ ∃ target args, message = .appendRequest target args := by
  cases moves with
  | keep noTerm quiet =>
    refine ⟨rfl, apart, fun message member => ?_⟩
    have answer := quiet message member
    cases message with
    | voteReply target args reply => exact .inl (formed _ answer.1).1
    | appendReply target args reply => exact .inl trivial
    | voteRequest | appendRequest => exact answer.elim
  | lead noTerm leader requests =>
    refine ⟨rfl, apart, fun message member => ?_⟩
    obtain ⟨target, args, request, _⟩ := requests message member
    exact .inr ⟨target, args, request⟩
  | stand notLeader below requests =>
    refine ⟨rfl, notMem_empty _, fun message member => ?_⟩
    obtain ⟨target, args, rfl, other, own, _⟩ := requests message member
    exact .inl fun same => other (same.trans own)
  | refuse behind refused =>
    refine ⟨rfl, notMem_empty _, fun message member => .inl ?_⟩
    rw [List.mem_singleton.mp member]
    exact (formed _ rfl).1
  | grant ballot caughtUp current free =>
    have same : ballot.myId = node.myId ∧ node.myId ∉ ballot.followerIdSet := by
      rcases caughtUp with rfl | ⟨_, rfl⟩
      · exact ⟨rfl, apart⟩
      · exact ⟨rfl, notMem_empty _⟩
    refine ⟨same.1, same.2, fun message member => .inl ?_⟩
    rw [List.mem_singleton.mp member]
    exact (formed _ rfl).1
  | obey running changed =>
    refine ⟨rfl, notMem_empty _, fun message member => .inl ?_⟩
    rw [List.mem_singleton.mp member]
    trivial
  | answered ahead => exact ⟨rfl, notMem_empty _, by simp⟩
  | count candidate behind followers role counted won =>
    refine ⟨rfl, ?_, by simp⟩
    rcases counted with rfl | ⟨_, rfl⟩
    · exact apart
    · obtain ⟨other, receiver⟩ := formed _ rfl
      rw [mem_insert]
      rintro (same | own)
      · exact other (same ▸ receiver.symm)
      · exact apart own

variable {cluster reached : Cluster n Command}

theorem Cluster.Formed.update (formed : cluster.Formed) {id : Fin n} {node : Node n Command}
    (here : node.Formed id) : ∀ other, (update cluster.nodes id node other).Formed other :=
  (forall_update_iff cluster.nodes fun other node => node.Formed other).mpr
    ⟨here, fun other _ => formed.nodes other⟩

variable [Inhabited Command]

theorem Cluster.Formed.step {event : Event n Command} (formed : cluster.Formed)
    (step : Step cluster event reached) : reached.Formed := by
  cases step with
  | @act id input after sent delivered handled =>
    obtain ⟨myId, apart, inRange⟩ := formed.nodes id
    have received : ∀ message, input = .receive message →
        message.Formed ∧ message.receiver = (cluster.nodes id).myId := by
      intro message same
      rw [myId]
      exact ⟨formed.sent message (delivered message same).1, (delivered message same).2⟩
    obtain ⟨sameId, stillApart, messages⟩ :=
      (Node.handle_moves handled).apart received (myId.symm ▸ apart)
    rw [myId] at sameId stillApart
    have stillInRange : after.InRange :=
      inRange.step ⟨fun target args same => (received _ same).1, sent, handled⟩
    refine ⟨fun message member => ?_, formed.update ⟨sameId, stillApart, stillInRange⟩⟩
    rcases List.mem_append.mp member with old | new
    · exact formed.sent message old
    · rcases messages message new with fine | ⟨target, args, rfl⟩
      · exact fine
      · obtain ⟨_, heartbeat, made⟩ := Node.handle_requests handled new
        exact (Node.entriesFor_eq made).1
  | restart id => exact ⟨formed.sent, formed.update (Node.formed_new id _)⟩

theorem formed_of_execution {events : List (Event n Command)} (ran : Execution events cluster) :
    cluster.Formed :=
  ran.invariant (fun _ state => state.Formed) (fun _ _ _ _ formed step => formed.step step) []
    ⟨by simp [Cluster.initial], fun id => Node.formed_new id _⟩

def Node.Reachable (node : Node n Command) : Prop :=
  ∃ (events : List (Event n Command)) (cluster : Cluster n Command) (id : Fin n),
    Execution events cluster ∧ cluster.nodes id = node

theorem Node.Reachable.formed (reachable : node.Reachable) : node.Formed node.myId := by
  obtain ⟨events, cluster, id, ran, rfl⟩ := reachable
  have formed := (formed_of_execution ran).nodes id
  rwa [formed.myId]

end Executions

section CommitRule

namespace Node

variable {node reached : Node n Command}

/-- By the indices of the leader a majority, itself included, has so many leading entries. -/
def MajorityHas (node : Node n Command) (count : Int) : Prop :=
  n < 2 * (1 + (Finset.univ.filter fun peer =>
    peer ≠ node.myId ∧ count ≤ node.matchIndex peer).card)

theorem CommitsAt.majority {term : Int32} {index : Nat} (apart : node.myId ∉ node.followerIdSet)
    (commits : node.CommitsAt term index) : node.MajorityHas index := by
  have counted : (node.followerIdSet.filter fun follower => (index : Int) ≤
      node.matchIndex follower).card ≤ (Finset.univ.filter fun peer =>
        peer ≠ node.myId ∧ (index : Int) ≤ node.matchIndex peer).card := by
    apply card_le_card
    intro peer member
    obtain ⟨follower, has⟩ := mem_filter.mp member
    refine mem_filter.mpr ⟨mem_univ peer, ?_, has⟩
    rintro rfl
    exact apart follower
  have enough := commits.2.2
  rw [matchCount] at enough
  rw [MajorityHas]
  omega

/-- The answer makes the leader take this index and none behind it. -/
def AdvancesTo (node : Node n Command) (target : Fin n) (args : AppendEntriesArgs n Command)
    (reply : AppendEntriesReply) (index : Nat) : Prop :=
  node.role = .leader ∧ reply.term = args.term ∧ reply.success = true ∧
    (node.acknowledged target args.entries.length).CommitsAt reply.term index ∧
    ∀ other, (node.acknowledged target args.entries.length).CommitsAt reply.term other →
      other ≤ index

theorem receiveAppended_commit (target : Fin n) (args : AppendEntriesArgs n Command)
    (reply : AppendEntriesReply) (nonneg : 0 ≤ node.commitIndex) :
    ((node.receiveAppended target args reply).commitIndex = node.commitIndex ∧
        ∀ index, ¬ node.AdvancesTo target args reply index) ∨
      ∃ index : Nat, node.AdvancesTo target args reply index ∧
        node.receiveAppended target args reply =
          { node.acknowledged target args.entries.length with commitIndex := index } := by
  by_cases acts : node.role = .leader ∧ reply.term = args.term ∧ reply.success = true
  · obtain ⟨leader, same, success⟩ := acts
    have answered : node.receiveAppended target args reply =
        { node.acknowledged target args.entries.length with
          commitIndex :=
            (node.acknowledged target args.entries.length).advanceCommit reply.term } := by
      rw [receiveAppended, if_neg (by simp [same]), if_pos ⟨leader, same⟩, if_pos success]
      rfl
    rcases advanceCommit_eq reply.term (node.acknowledged target args.entries.length) nonneg with
      ⟨unmoved, without⟩ | ⟨index, commits, moved, last⟩
    · refine .inl ⟨?_, fun index advances => without index advances.2.2.2.1⟩
      rw [answered]
      exact unmoved
    · refine .inr ⟨index, ⟨leader, same, success, commits, last⟩, ?_⟩
      rw [answered, moved]
  · refine .inl ⟨?_, fun index advances => acts ⟨advances.1, advances.2.1, advances.2.2.1⟩⟩
    rcases receiveAppended_cases target args reply node with ⟨_, followed⟩ |
      ⟨_, nextIndex, matchIndex, commitIndex, changed, unmoved | ⟨success, same, leader, _⟩⟩
    · rw [followed]
      rfl
    · rw [changed]
      exact unmoved
    · exact absurd ⟨leader, same, success⟩ acts

/-- A command of an earlier term is behind the log of its leader when it is elected
again. -/
def electedAgain (leader other : Fin n) : List (Event n Nat) :=
  commanded leader other ++ [.act other .election,
    .act leader (.receive (.voteRequest leader ⟨2, other, 0, 0⟩)), .act leader .election,
    .act other (.receive (.voteRequest other ⟨3, leader, 1, 1⟩)),
    .act leader (.receive (.voteReply other ⟨3, leader, 1, 1⟩ ⟨3, true⟩)),
    .act leader (.command 6), .act leader .commit,
    .act other (.receive (.appendRequest other ⟨3, leader, 1, 1, [⟨6, 3⟩], 0⟩)),
    .act leader (.receive (.appendReply other ⟨3, leader, 1, 1, [⟨6, 3⟩], 0⟩ ⟨3, false⟩)),
    .act leader .commit,
    .act other (.receive (.appendRequest other ⟨3, leader, 0, 0, [⟨5, 1⟩, ⟨6, 3⟩], 0⟩))]

end Node

end CommitRule

namespace Node

def voteCount (target : Fin n) (args : RequestVoteArgs n) (reply : RequestVoteReply)
    (node : Node n Command) : Nat :=
  (if reply.term = args.term ∧ reply.voteGranted then insert target node.followerIdSet
    else node.followerIdSet).card + 1

theorem receiveVote_leads_iff {node : Node n Command} (candidate : node.role = .candidate)
    (target : Fin n) {args : RequestVoteArgs n} {reply : RequestVoteReply}
    (current : ¬ args.term < reply.term) :
    (node.receiveVote target args reply).role = .leader ↔
      n / 2 < node.voteCount target args reply := by
  have running (votes : Finset (Fin n)) :
      (if n / 2 < votes.card + 1 then becomeLeader { node with followerIdSet := votes }
        else { node with followerIdSet := votes }).role = .leader ↔ n / 2 < votes.card + 1 := by
    by_cases enough : n / 2 < votes.card + 1
    · simp [enough, becomeLeader]
    · simp [enough, candidate]
  rw [receiveVote, if_neg (not_not.mpr candidate), if_neg current, voteCount]
  by_cases granted : reply.term = args.term ∧ reply.voteGranted = true
  · rw [if_pos granted, if_pos granted]
    exact running _
  · rw [if_neg granted, if_neg granted]
    exact running node.followerIdSet

end Node

/-- In a cluster of `n` nodes both tests take `m` of them exactly if they are a majority. -/
structure SameMajority (n m : Nat) (Command : Type) : Prop where
  vote : ∀ (node : Node n Command) (target : Fin n) (args : RequestVoteArgs n)
    (reply : RequestVoteReply), node.role = .candidate → ¬ args.term < reply.term →
      node.voteCount target args reply = m →
        ((node.receiveVote target args reply).role = .leader ↔ n < 2 * m)
  commit : ∀ (node : Node n Command) (term : Int32) (index : Nat), node.commitIndex < index →
    node.storage.log[index]?.map (·.term) = some term → node.matchCount index = m →
      (node.CommitsAt term index ↔ n < 2 * m)

inductive Accepted (n m : Nat) (Command : Type) : Prop where
  | vote (node : Node n Command) (target : Fin n) (args : RequestVoteArgs n)
      (reply : RequestVoteReply) (candidate : node.role = .candidate)
      (current : ¬ args.term < reply.term) (counted : node.voteCount target args reply = m)
      (leads : (node.receiveVote target args reply).role = .leader)
  | commit (node : Node n Command) (term : Int32) (index : Nat)
      (counted : node.matchCount index = m) (commits : node.CommitsAt term index)

theorem Accepted.majority {m : Nat} (accepted : Accepted n m Command) : n < 2 * m := by
  cases accepted with
  | vote node target args reply candidate current counted leads =>
    have enough := (node.receiveVote_leads_iff candidate target current).mp leads
    omega
  | commit node term index counted commits =>
    have enough := commits.2.2
    omega

theorem exists_matchCount {m : Nat} (own : 1 ≤ m) (within : m ≤ n) (command : Command) :
    ∃ node : Node n Command, node.commitIndex = 0 ∧
      node.storage.log[1]?.map (·.term) = some 0 ∧ node.matchCount 1 = m := by
  let myId : Fin n := ⟨0, by omega⟩
  have others : m - 1 ≤ (Finset.univ.erase myId).card := by
    rw [Finset.card_erase_of_mem (Finset.mem_univ _), Finset.card_univ, Fintype.card_fin]
    omega
  obtain ⟨followers, -, size⟩ := Finset.exists_subset_card_eq others
  refine ⟨{ Node.new myId ⟨0, -1, [⟨command, 0⟩, ⟨command, 0⟩]⟩ with
    role := .leader, followerIdSet := followers, matchIndex := fun _ => 1 }, rfl, rfl, ?_⟩
  simp only [Node.matchCount, le_refl, Finset.filter_true, size]
  omega

/-- The tests agree but where the nodes are the smallest majority of an odd number. What they accept
always overlaps. -/
theorem same_majority_iff {m : Nat} (own : 1 ≤ m) (within : m ≤ n) (command : Command) :
    (SameMajority n m Command ↔ 2 * m ≠ n + 1) ∧
    ∀ first second : Finset (Fin n), Accepted n first.card Command →
      Accepted n second.card Command → (first ∩ second).Nonempty := by
  refine ⟨⟨?_, ?_⟩, ?_⟩
  · intro same bare
    obtain ⟨node, before, entry, counted⟩ := exists_matchCount own within command
    have commits := (same.commit node 0 1 (by rw [before]; decide) entry counted).mpr (by omega)
    have enough := commits.2.2
    rw [Nat.cast_one, counted] at enough
    omega
  · intro apart
    constructor
    · intro node target args reply candidate current counted
      rw [node.receiveVote_leads_iff candidate target current, counted]
      omega
    · intro node term index behind entry counted
      rw [Node.CommitsAt, counted]
      constructor
      · intro commits
        omega
      · intro majority
        exact ⟨behind, entry, by omega⟩
  · intro first second firstAccepted secondAccepted
    have firstMajority := firstAccepted.majority
    have secondMajority := secondAccepted.majority
    apply Finset.inter_nonempty_of_card_lt_card_add_card (Finset.subset_univ _)
      (Finset.subset_univ _)
    rw [Finset.card_univ, Fintype.card_fin]
    omega

theorem same_majority_three_of_four : SameMajority 4 3 Nat :=
  (same_majority_iff (by decide) (by decide) 0).1.mpr (by decide)

/-- Two of three nodes have elected a leader. Both have its entries, and it commits none. -/
theorem bare_majority_not_committed : ¬ SameMajority 3 2 Nat ∧
    ∃ cluster : Cluster 3 Nat, Execution (replicated 0 1) cluster ∧
      (cluster.nodes 0).role = .leader ∧ ∃ reached : Cluster 3 Nat,
        Step cluster (.act 0 (.receive (.appendReply 1
          ⟨1, 0, 0, 0, [⟨5, 1⟩, ⟨6, 1⟩, ⟨7, 1⟩], 0⟩ ⟨1, true⟩))) reached ∧
        (reached.nodes 0).matchCount 1 = 2 ∧ (reached.nodes 0).commitIndex = 0 ∧
        (reached.nodes 0).storage.log[1]?.map (·.term) = some 1 := by
  obtain ⟨cluster, ran, checked⟩ := exists_run (.initial : Cluster 3 Nat) (replicated 0 1)
    (fun cluster => (cluster.nodes 0).role = .leader &&
      (cluster.next (.act 0 (.receive (.appendReply 1 ⟨1, 0, 0, 0, [⟨5, 1⟩, ⟨6, 1⟩, ⟨7, 1⟩], 0⟩
        ⟨1, true⟩)))).any fun reached => (reached.nodes 0).matchCount 1 = 2 ∧
          (reached.nodes 0).commitIndex = 0 ∧
          (reached.nodes 0).storage.log[1]?.map (·.term) = some 1)
    (by decide +kernel)
  rw [Bool.and_eq_true] at checked
  obtain ⟨reached, step, found⟩ := exists_step cluster _ _ checked.2
  obtain ⟨counted, before, entry⟩ := of_decide_eq_true found
  refine ⟨?_, cluster, ran, of_decide_eq_true checked.1, reached, step, counted, before, entry⟩
  intro same
  have commits := (same.commit (reached.nodes 0) 1 1 (by rw [before]; decide) entry counted).mpr
    (by decide)
  have enough := commits.2.2
  rw [Nat.cast_one, counted] at enough
  exact absurd enough (by decide)

end Bitdb.Raft
