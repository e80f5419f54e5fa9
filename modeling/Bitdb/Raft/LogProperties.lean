import Bitdb.Raft.CommitProperties
import Bitdb.Raft.ElectionProperties

/-! The logs of a cluster. Entries are stored one position behind the one they have in the log of
the leader. -/

set_option autoImplicit false

namespace Bitdb.Raft

open Base List Function

variable {n : Nat} {Command : Type}

namespace Node

def Accepts (node : Node n Command) : Input n Command → Prop
  | .receive (.appendRequest _ args) => ¬ args.term < node.currentTerm ∧ node.stopped = false ∧
      args.entries ≠ [] ∧
      node.isLogIndexMatched args.prevLogIndex args.prevLogTerm = some true
  | _ => False

def Stores (node : Node n Command) : Input n Command → Prop
  | .receive (.appendRequest target args) => node.Accepts (.receive (.appendRequest target args)) ∧
      matchingTerms (node.storage.log.drop (args.prevLogIndex + 1).toNat) args.entries <
        args.entries.length
  | _ => False

def Idle (node : Node n Command) : Prop :=
  node.commitIndex = 0 ∧ node.lastApplied = 0 ∧ node.applied = []

def Extends (node reached : Node n Command) : Prop :=
  reached.storage.log = node.storage.log ∨ (reached.role = .leader ∧
      ∃ cmd, reached.storage.log = node.storage.log ++ [⟨cmd, reached.currentTerm⟩])

/-- Requests have entries of the node itself, and answers refuse. -/
def SendsOwn (node : Node n Command) : Message n Command → Prop
  | .appendRequest _ args =>
    args.leaderId = node.myId ∧ ∀ entry ∈ args.entries, entry ∈ node.storage.log
  | .appendReply _ _ reply => reply.success = false
  | _ => True

variable {node reached : Node n Command}

theorem isLogIndexMatched_congr {node other : Node n Command}
    (log : other.storage.log = node.storage.log) (prevLogIndex : Int) (prevLogTerm : Int32) :
    other.isLogIndexMatched prevLogIndex prevLogTerm =
      node.isLogIndexMatched prevLogIndex prevLogTerm := by
  rw [isLogIndexMatched, isLogIndexMatched, getLogTerm, getLogTerm, getLastLogIndex,
    getLastLogIndex, log]

theorem SameLog.idle (same : node.SameLog reached) (idle : node.Idle) : reached.Idle :=
  ⟨same.commitIndex.trans idle.1, same.lastApplied.trans idle.2.1, same.applied.trans idle.2.2⟩

theorem sendsOwn_of_mapM {heartbeat : Bool} {targets : List (Fin n)}
    {sent : List (Message n Command)} (made : (targets.mapM fun target =>
      (node.entriesFor heartbeat target).map (Message.appendRequest target)) = some sent)
    {message : Message n Command} (member : message ∈ sent) : node.SendsOwn message := by
  obtain ⟨target, _, args, filled, rfl⟩ := request_of_mem made member
  rw [entriesFor] at filled
  obtain ⟨prevLogTerm, _, built⟩ := Option.bind_eq_some_iff.mp filled
  cases built
  refine ⟨rfl, fun entry inside => ?_⟩
  cases heartbeat with
  | true => simp at inside
  | false => exact mem_of_mem_drop inside

theorem handle_alone [Inhabited Command] {input : Input n Command}
    {sent : List (Message n Command)} (idle : node.Idle)
    (handled : node.handle input = some (reached, sent)) (notAccepting : ¬ node.Accepts input)
    (refused : ∀ target args reply, input = .receive (.appendReply target args reply) →
      reply.success = false) :
    reached.Idle ∧ node.Extends reached ∧ ∀ message ∈ sent, node.SendsOwn message := by
  cases handles_of_handle handled with
  | election notLeader ran =>
    obtain ⟨_, _, rfl⟩ := startElection_cases ran
    refine ⟨idle, .inl rfl, fun message member => ?_⟩
    obtain ⟨target, _, rfl⟩ := mem_map.mp member
    trivial
  | replicate heartbeat targets round leader others made =>
    exact ⟨idle, .inl rfl, fun message => sendsOwn_of_mapM made⟩
  | apply ran =>
    have nothing : node.runBackgroundApply = some node := by
      rw [runBackgroundApply, idle.1, idle.2.1]
      rfl
    rw [nothing] at ran
    cases ran
    exact ⟨idle, .inl rfl, by simp⟩
  | refuse cmd => exact ⟨idle, .inl rfl, by simp⟩
  | command cmd leader => exact ⟨idle, .inr ⟨leader, cmd, rfl⟩, by simp⟩
  | stop => exact ⟨idle, .inl rfl, by simp⟩
  | voteRequest target args ran =>
    have same := sameLog_requestVote ran
    exact ⟨same.idle idle, .inl same.log, by simp [SendsOwn]⟩
  | voteReply target args reply =>
    have same := sameLog_receiveVote target args reply node
    exact ⟨same.idle idle, .inl same.log, by simp⟩
  | appendRequest target args ran =>
    have same := sameLog_obey args.term node
    rcases appendEntries_cases ran with
      ⟨_, rfl, rfl⟩ | ⟨_, _, refusal, rfl⟩ | ⟨current, running, entries, _, matched, _⟩
    · exact ⟨idle, .inl rfl, by simp [SendsOwn]⟩
    · exact ⟨same.idle idle, .inl same.log, by simpa [SendsOwn] using refusal⟩
    · rw [isLogIndexMatched_congr same.log] at matched
      exact absurd ⟨current, running, entries, matched⟩ notAccepting
  | appendReply target args reply =>
    rcases receiveAppended_cases target args reply node with
      ⟨_, follows⟩ | ⟨_, nextIndex, matchIndex, commitIndex, received, commit⟩
    · rw [follows]
      have same := sameLog_becomeFollower reply.term node
      exact ⟨same.idle idle, .inl same.log, by simp⟩
    · rw [received]
      rcases commit with rfl | ⟨success, _⟩
      · exact ⟨idle, .inl rfl, by simp⟩
      · rw [refused target args reply rfl] at success
        cases success

theorem exists_same_term {olds news : List (LogEntry Command)} (some_ : news ≠ [])
    (all : ¬ matchingTerms olds news < news.length) :
    ∃ old ∈ olds, ∃ new ∈ news, old.term = new.term := by
  cases news with
  | nil => exact absurd rfl some_
  | cons new news =>
    cases olds with
    | nil => simp [matchingTerms] at all
    | cons old olds =>
      refine ⟨old, mem_cons_self .., new, mem_cons_self .., ?_⟩
      by_contra different
      simp [matchingTerms, different] at all

theorem Extends.mem (extended : node.Extends reached) {entry : LogEntry Command}
    (member : entry ∈ node.storage.log) : entry ∈ reached.storage.log := by
  rcases extended with same | ⟨_, cmd, added⟩
  · rwa [same]
  · rw [added]
    exact mem_append_left _ member

/-- An answer acts on a node that is past its request, or entries of a leader are stored. -/
def Mixes (node : Node n Command) (input : Input n Command) : Prop :=
  node.Late input ∨ node.Stores input

end Node

def Cluster.Wrote (cluster : Cluster n Command) (id : Fin n) (term : Int32) : Prop :=
  ∃ entry ∈ (cluster.nodes id).storage.log, entry.term = term

/-- Every node has only entries of terms that it has won, and keeps them to itself. -/
structure Cluster.OwnLogs (cluster : Cluster n Command) : Prop where
  elections : Elections cluster.Wrote cluster.ballots cluster.sent
  requested : ∀ target args, .appendRequest target args ∈ cluster.sent →
    ∀ entry ∈ args.entries, entry ∈ (cluster.nodes args.leaderId).storage.log
  refused : ∀ target args reply, .appendReply target args reply ∈ cluster.sent →
    reply.success = false
  idle : ∀ id, (cluster.nodes id).Idle

section Executions

variable {cluster reached : Cluster n Command} {id other : Fin n}

/-- Entries of a leader have terms that nobody else has, so they are not taken for old ones. -/
theorem Cluster.OwnLogs.not_accepting {input : Input n Command} (own : cluster.OwnLogs)
    (delivered : ∀ message, input = .receive message →
      message ∈ cluster.sent ∧ message.receiver = id)
    (notStoring : ¬ (cluster.nodes id).Stores input) : ¬ (cluster.nodes id).Accepts input := by
  intro accepts
  rw [Node.Accepts.eq_def] at accepts
  split at accepts
  · rename_i target args
    obtain ⟨requested, here⟩ := delivered _ rfl
    have same : target = id := here
    subst same
    obtain ⟨old, stored, new, sent, equal⟩ := Node.exists_same_term accepts.2.2.1
      fun fewer => notStoring ⟨accepts, fewer⟩
    have won := own.elections.won target old.term ⟨old, mem_of_mem_drop stored, rfl⟩
    have wonOther := own.elections.won args.leaderId old.term
      ⟨new, own.requested target args requested new sent, equal.symm⟩
    exact (own.elections.leaders target args requested).2
      (wonOther.unique own.elections.single won)
  · exact accepts

theorem ownLogs_initial : (Cluster.initial : Cluster n Command).OwnLogs := by
  refine ⟨{ elections_initial with won := ?_ }, nofun, nofun, fun _ => ⟨rfl, rfl, rfl⟩⟩
  rintro leader term ⟨entry, member, _⟩
  cases member

theorem Cluster.wrote_after {node : Node n Command} {sent : List (Message n Command)}
    (extended : (cluster.nodes id).Extends node) {leader : Fin n} {term : Int32}
    (wrote : (cluster.after id (node, sent)).Wrote leader term) :
    cluster.Wrote leader term ∨ (((cluster.after id (node, sent)).ballots leader).role = .leader ∧
      ((cluster.after id (node, sent)).ballots leader).currentTerm = term) := by
  obtain ⟨entry, member, rfl⟩ := wrote
  rw [Cluster.ballots, Cluster.after_nodes]
  rw [Cluster.after_nodes] at member
  by_cases same : leader = id
  · subst same
    rw [update_self]
    rw [update_self] at member
    rcases extended with unchanged | ⟨leads, cmd, added⟩
    · rw [unchanged] at member
      exact .inl ⟨entry, member, rfl⟩
    · rw [added] at member
      rcases mem_append.mp member with old | new
      · exact .inl ⟨entry, old, rfl⟩
      · rw [mem_singleton.mp new]
        exact .inr ⟨leads, rfl⟩
  · rw [update_of_ne same] at member
    exact .inl ⟨entry, member, rfl⟩

theorem Cluster.mem_log_after {node : Node n Command} (extended : (cluster.nodes id).Extends node)
    {holder : Fin n} {entry : LogEntry Command}
    (member : entry ∈ (cluster.nodes holder).storage.log) :
    entry ∈ (update cluster.nodes id node holder).storage.log := by
  by_cases same : holder = id
  · subst same
    rw [update_self]
    exact extended.mem member
  · rwa [update_of_ne same]

variable [Inhabited Command]

theorem Cluster.OwnLogs.step {event : Event n Command} (own : cluster.OwnLogs)
    (step : StepWithout Node.Mixes cluster event reached) : reached.OwnLogs := by
  cases step with
  | @act _ id input step without =>
    obtain ⟨notLate, notStoring⟩ := not_or.mp without
    have elections := own.elections.step (.act step notLate)
    cases step with
    | @act _ _ node sent delivered handled =>
      obtain ⟨idle, extended, sends⟩ := Node.handle_alone (own.idle id) handled
        (own.not_accepting delivered notStoring)
        fun target args reply same => own.refused target args reply (delivered _ same).1
      refine ⟨{ elections with won := fun leader term wrote => ?_ },
        fun target args member entry inside => ?_, fun target args reply member => ?_,
        fun holder => ?_⟩
      · rcases Cluster.wrote_after extended wrote with old | ⟨leads, rfl⟩
        · exact elections.won leader term old
        · exact elections.won_of_leader leads
      · rcases mem_append.mp member with old | new
        · exact Cluster.mem_log_after extended (own.requested target args old entry inside)
        · obtain ⟨leaderId, entries⟩ := sends _ new
          have myId : (cluster.nodes id).myId = id := (own.elections.sound id).myId
          rw [leaderId, myId]
          exact Cluster.mem_log_after extended (entries entry inside)
      · rcases mem_append.mp member with old | new
        · exact own.refused target args reply old
        · exact sends _ new
      · by_cases same : holder = id
        · subst same
          simpa using idle
        · simpa [same] using own.idle holder

theorem ownLogs_of_run {events : List (Event n Command)}
    (ran : Run (StepWithout Node.Mixes) .initial events cluster) : cluster.OwnLogs :=
  ran.invariant (fun _ state => state.OwnLogs) (fun _ _ _ _ own step => own.step step) []
    ownLogs_initial

end Executions

instance (node : Node n Command) (input : Input n Command) : Decidable (node.Stores input) :=
  match input with
  | .receive (.appendRequest _ args) => inferInstanceAs (Decidable
      ((¬ args.term < node.currentTerm ∧ node.stopped = false ∧ args.entries ≠ [] ∧
        node.isLogIndexMatched args.prevLogIndex args.prevLogTerm = some true) ∧
      Node.matchingTerms (node.storage.log.drop (args.prevLogIndex + 1).toNat) args.entries <
        args.entries.length))
  | .receive (.voteRequest _ _) | .receive (.voteReply _ _ _) | .receive (.appendReply _ _ _)
  | .election | .heartbeat | .commit | .apply | .command _ | .stop => isFalse id

instance (node : Node n Command) (input : Input n Command) : Decidable (node.Mixes input) :=
  inferInstanceAs (Decidable (node.Late input ∨ node.Stores input))

/-- A node becomes the leader of term 1 by the vote of another one and is given a command. -/
def commanded (leader other : Fin n) : List (Event n Nat) :=
  [.act leader .election, .act other (.receive (.voteRequest other ⟨1, leader, 0, 0⟩)),
    .act leader (.receive (.voteReply other ⟨1, leader, 0, 0⟩ ⟨1, true⟩)),
    .act leader (.command 5)]

/-- Two more commands, and all three reach the other node. -/
def replicated (leader other : Fin n) : List (Event n Nat) :=
  commanded leader other ++ [.act leader (.command 6), .act leader (.command 7),
    .act leader .commit, .act other (.receive (.appendRequest other
      ⟨1, leader, 0, 0, [⟨5, 1⟩, ⟨6, 1⟩, ⟨7, 1⟩], 0⟩))]

/-- The leader commits and applies its first entries, and tells the other node with the next
one. -/
def committed (leader other : Fin n) : List (Event n Nat) :=
  replicated leader other ++ [.act leader (.receive (.appendReply other
      ⟨1, leader, 0, 0, [⟨5, 1⟩, ⟨6, 1⟩, ⟨7, 1⟩], 0⟩ ⟨1, true⟩)),
    .act leader .apply, .act leader (.command 8), .act leader .commit,
    .act other (.receive (.appendRequest other ⟨1, leader, 3, 1, [⟨8, 1⟩], 2⟩)),
    .act other .apply]

end Bitdb.Raft
