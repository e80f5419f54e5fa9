import Bitdb.Raft.BallotProperties

/-! The votes of the nodes of a cluster. A restart forgets what a node has promised. Nodes that are
made anew over their files: the constructor begins in term 0 without a vote, whatever the file says.
-/

set_option autoImplicit false

namespace Bitdb.Raft

open Base Function

variable {n : Nat} {Command : Type}

def Ballot.Holds (ballot : Ballot n) (term : Int32) (candidate : Fin n) : Prop :=
  term ≤ ballot.currentTerm ∧ (term = ballot.currentTerm → ballot.voteFor = some candidate)

namespace Node

variable {node reached : Node n Command} {input : Input n Command} {term : Int32}
  {candidate : Fin n}

theorem support_cases (supported : node.support input = some (term, candidate)) :
    (input = .election ∧ term = node.currentTerm + 1 ∧ candidate = node.myId) ∨
      ∃ target args after, input = .receive (.voteRequest target args) ∧
        node.requestVote args = some (⟨term, true⟩, after) ∧
        term = args.term ∧ candidate = args.candidateId := by
  rw [support.eq_def] at supported
  split at supported
  · cases supported
    exact .inl ⟨rfl, rfl, rfl⟩
  · rename_i target args
    obtain ⟨⟨reply, after⟩, ran, granted⟩ := Option.bind_eq_some_iff.mp supported
    dsimp only at granted
    split at granted
    · rename_i yes
      cases granted
      rcases requestVote_cases ran with ⟨no, _⟩ | ⟨rfl, _⟩
      · rw [yes] at no
        cases no
      · exact .inr ⟨target, args, after, rfl, ran, rfl, rfl⟩
    · cases granted
  · cases supported

variable {sent : List (Message n Command)}

theorem handle_election [Inhabited Command]
    (handled : node.handle .election = some (reached, sent)) :
    node.currentTerm ≠ Int32.maxValue ∧ reached = node.becomeCandidate (node.currentTerm + 1) := by
  cases handles_of_handle handled with
  | election notLeader ran =>
    obtain ⟨below, _, moved⟩ := startElection_cases ran
    exact ⟨below, moved⟩
  | replicate heartbeat targets round leader others made =>
    rcases round with round | round
    · cases round
    · cases round

theorem holds_of_support [Inhabited Command] (handled : node.handle input = some (reached, sent))
    (supported : node.support input = some (term, candidate)) :
    reached.ballot.Holds term candidate := by
  rcases support_cases supported with
    ⟨rfl, rfl, rfl⟩ | ⟨target, args, after, rfl, ran, rfl, rfl⟩
  · obtain ⟨_, rfl⟩ := handle_election handled
    exact ⟨Int32.le_refl _, fun _ => rfl⟩
  · rw [handle, ran] at handled
    cases handled
    rcases requestVote_cases ran with ⟨no, _⟩ | ⟨_, current, _, rfl⟩
    · cases no
    · refine ⟨?_, fun _ => rfl⟩
      change args.term ≤ (node.catchUp args.term).currentTerm
      rw [current]
      exact Int32.le_refl _

theorem eq_of_support [Inhabited Command] {other : Fin n} (holds : node.ballot.Holds term candidate)
    (handled : node.handle input = some (reached, sent))
    (supported : node.support input = some (term, other)) : candidate = other := by
  obtain ⟨reachedTerm, votes⟩ := holds
  change term ≤ node.currentTerm at reachedTerm
  change term = node.currentTerm → node.voteFor = some candidate at votes
  rcases support_cases supported with
    ⟨rfl, rfl, rfl⟩ | ⟨target, args, after, rfl, ran, rfl, rfl⟩
  · obtain ⟨below, _⟩ := handle_election handled
    grind
  · rcases requestVote_cases ran with ⟨no, _⟩ | ⟨_, current, free, _⟩
    · cases no
    · rcases catchUp_cases args.term node with ⟨same, _⟩ | ⟨_, behind⟩
      · rw [same] at current free
        rw [votes current.symm] at free
        simpa using free
      · grind

theorem Moves.holds {ballot : Ballot n} (move : node.Moves input ballot sent)
    (holds : node.ballot.Holds term candidate) (notAgain : ¬ node.BeginsAgain input)
    (notYielding : ¬ node.Yields input) : ballot.Holds term candidate := by
  obtain ⟨reachedTerm, votes⟩ := holds
  change term ≤ node.currentTerm at reachedTerm
  change term = node.currentTerm → node.voteFor = some candidate at votes
  have later {ballot : Ballot n} (ahead : term < ballot.currentTerm) :
      ballot.Holds term candidate :=
    ⟨Int32.le_of_lt ahead, fun same => by grind⟩
  cases move with
  | keep | lead => exact ⟨reachedTerm, votes⟩
  | stand notLeader below requests =>
    refine later ?_
    change term < node.currentTerm + 1
    grind
  | refuse behind refused => exact later (Int32.lt_of_le_of_lt reachedTerm behind)
  | grant ballot caughtUp current free =>
    rcases caughtUp with rfl | ⟨behind, rfl⟩
    · refine ⟨reachedTerm, fun same => ?_⟩
      have voted := votes same
      change node.voteFor = none ∨ node.voteFor = some _ at free
      rw [voted] at free
      simpa [eq_comm] using free
    · exact later (Int32.lt_of_le_of_lt reachedTerm behind)
  | obey running changed =>
    rcases changed with behind | ⟨same, role⟩
    · exact later (Int32.lt_of_le_of_lt reachedTerm behind)
    · exact absurd ⟨running, same, role⟩ notYielding
  | @answered _ answer ahead =>
    refine later ?_
    change term < answer
    by_contra notAhead
    refine notAgain ⟨answer, ahead, ?_⟩
    by_cases equal : answer = node.currentTerm
    · have voted := votes (by grind)
      exact .inr ⟨equal, by simp [voted]⟩
    · exact .inl (by grind)
  | count other behind followers role counted won => exact ⟨reachedTerm, votes⟩

end Node

section Executions

variable [Inhabited Command] {cluster reached first second middle last : Cluster n Command}
  {voter candidate : Fin n} {term : Int32}

def Cluster.Supports (cluster : Cluster n Command) : Event n Command → Fin n → Int32 → Fin n → Prop
  | .act id input, voter, term, candidate =>
    id = voter ∧ (cluster.nodes id).support input = some (term, candidate)
  | .restart _, _, _, _ => False

variable {event : Event n Command}

theorem Step.holds_of_supports (step : Step cluster event reached)
    (supports : cluster.Supports event voter term candidate) :
    (reached.ballots voter).Holds term candidate := by
  cases step with
  | act delivered handled =>
    obtain ⟨rfl, supported⟩ := supports
    simp only [Cluster.ballots, Cluster.after_nodes, update_self]
    exact Node.holds_of_support handled supported
  | restart id => exact supports.elim

theorem Step.eq_of_supports {other : Fin n} (step : Step cluster event reached)
    (holds : (cluster.ballots voter).Holds term candidate)
    (supports : cluster.Supports event voter term other) : candidate = other := by
  cases step with
  | act delivered handled =>
    obtain ⟨rfl, supported⟩ := supports
    exact Node.eq_of_support holds handled supported
  | restart id => exact supports.elim

/-- The node begins a term again, or yields to a leader of its own term. -/
def Node.Forgets (node : Node n Command) (input : Input n Command) : Prop :=
  node.BeginsAgain input ∨ node.Yields input

theorem StepWithout.holds (step : StepWithout Node.Forgets cluster event reached)
    (holds : (cluster.ballots voter).Holds term candidate) :
    (reached.ballots voter).Holds term candidate := by
  cases step with
  | @act _ id input step without =>
    obtain ⟨ballot, sent, move, ballots, _, _⟩ := step.act_moves
    obtain ⟨notAgain, notYielding⟩ := not_or.mp without
    rw [ballots]
    by_cases same : voter = id
    · subst same
      rw [update_self]
      exact move.holds holds notAgain notYielding
    · rw [update_of_ne same]
      exact holds

theorem holds_of_run {events : List (Event n Command)}
    (ran : Run (StepWithout Node.Forgets) first events last)
    (holds : (first.ballots voter).Holds term candidate) :
    (last.ballots voter).Holds term candidate :=
  ran.invariant (fun _ state => (state.ballots voter).Holds term candidate)
    (fun _ _ _ _ before step => step.holds before) [] holds

/-- A node does not support two candidates in one term unless a node has begun a term again
or has yielded to a leader of its own term in between. -/
theorem one_vote_per_term {between : List (Event n Command)} {event next : Event n Command}
    {other : Fin n} (step : Step first event second)
    (supports : first.Supports event voter term candidate)
    (ran : Run (StepWithout Node.Forgets) second between middle)
    (nextStep : Step middle next last)
    (supportsOther : middle.Supports next voter term other) : candidate = other :=
  nextStep.eq_of_supports (holds_of_run ran (step.holds_of_supports supports)) supportsOther

end Executions

theorem one_vote_per_term_request_twice : ∃ first second : Cluster 3 Nat,
    Step first (.act 2 (.receive (.voteRequest 2 ⟨1, 0, 0, 0⟩))) second ∧
      first.Supports (.act 2 (.receive (.voteRequest 2 ⟨1, 0, 0, 0⟩))) 2 1 0 ∧
      ∀ last other, Step second (.act 2 (.receive (.voteRequest 2 ⟨1, 0, 0, 0⟩))) last →
        second.Supports (.act 2 (.receive (.voteRequest 2 ⟨1, 0, 0, 0⟩))) 2 1 other →
          0 = other := by
  obtain ⟨first, _, checked⟩ := exists_run (.initial : Cluster 3 Nat) [.act 0 .election]
    (fun first => (first.nodes 2).support (.receive (.voteRequest 2 ⟨1, 0, 0, 0⟩)) = some (1, 0) &&
      (first.next (.act 2 (.receive (.voteRequest 2 ⟨1, 0, 0, 0⟩)))).any fun _ => true)
    (by decide +kernel)
  obtain ⟨supported, next⟩ := Bool.and_eq_true_iff.mp checked
  obtain ⟨second, step, _⟩ := exists_step _ _ _ next
  have supports : first.Supports (.act 2 (.receive (.voteRequest 2 ⟨1, 0, 0, 0⟩))) 2 1 0 :=
    ⟨rfl, of_decide_eq_true supported⟩
  exact ⟨first, second, step, supports, fun last other nextStep supportsOther =>
    one_vote_per_term step supports (.nil _) nextStep supportsOther⟩

/-- A node becomes the leader of term 1 by the vote of another one, and its heartbeat reaches
the third. -/
def heartbeatInOwnTerm (leader voter third : Fin n) : List (Event n Nat) :=
  [.act leader .election, .act voter (.receive (.voteRequest voter ⟨1, leader, 0, 0⟩)),
    .act leader (.receive (.voteReply voter ⟨1, leader, 0, 0⟩ ⟨1, true⟩)), .act leader .heartbeat,
    .act third (.receive (.appendRequest third ⟨1, leader, 0, 0, [], 0⟩))]

/-- Node 0 stands for election in term 1, and behind the heartbeat grants its vote in that
term to node 1. -/
theorem candidate_votes_again : ∃ second middle last : Cluster 3 Nat,
    Step .initial (.act 0 .election) second ∧
      (.initial : Cluster 3 Nat).Supports (.act 0 .election) 0 1 0 ∧
      Run Step second (heartbeatInOwnTerm 1 2 0) middle ∧
      Step middle (.act 0 (.receive (.voteRequest 0 ⟨1, 1, 0, 0⟩))) last ∧
      middle.Supports (.act 0 (.receive (.voteRequest 0 ⟨1, 1, 0, 0⟩))) 0 1 1 := by
  obtain ⟨second, step, checked⟩ := exists_step (.initial : Cluster 3 Nat) (.act 0 .election)
    (fun second => ((heartbeatInOwnTerm 1 2 0).foldlM Cluster.next second).any fun middle =>
      (middle.nodes 0).support (.receive (.voteRequest 0 ⟨1, 1, 0, 0⟩)) = some (1, 1) &&
        (middle.next (.act 0 (.receive (.voteRequest 0 ⟨1, 1, 0, 0⟩)))).any fun _ => true)
    (by decide +kernel)
  obtain ⟨middle, ran, found⟩ := exists_run _ _ _ checked
  obtain ⟨supported, next⟩ := Bool.and_eq_true_iff.mp found
  obtain ⟨last, nextStep, _⟩ := exists_step _ _ _ next
  exact ⟨second, middle, last, step, ⟨rfl, rfl⟩, ran, nextStep, rfl, of_decide_eq_true supported⟩

def Message.term : Message n Command → Int32
  | .voteRequest _ args => args.term
  | .voteReply _ args _ => args.term
  | .appendRequest _ args => args.term
  | .appendReply _ args _ => args.term

/-- Elections and what comes of them happen in positive terms. -/
structure Ballot.Positive (ballot : Ballot n) : Prop where
  nonneg : 0 ≤ ballot.currentTerm
  active : ballot.role ≠ .follower → 0 < ballot.currentTerm

theorem Node.answeredTerm_pos {node : Node n Command} {input : Input n Command} {term : Int32}
    (delivered : ∀ message, input = .receive message → 0 < message.term)
    (ahead : node.answeredTerm input = some term) : 0 < term := by
  rw [answeredTerm.eq_def] at ahead
  split at ahead
  · rename_i target args reply
    split at ahead
    · rename_i both
      cases ahead
      have positive : 0 < args.term := delivered (.voteReply target args reply) rfl
      exact Int32.lt_trans positive both.2
    · cases ahead
  · rename_i target args reply
    split at ahead
    · rename_i above
      cases ahead
      have positive : 0 < args.term := delivered (.appendReply target args reply) rfl
      exact Int32.lt_trans positive above
    · cases ahead
  · cases ahead

theorem Node.Moves.positive {node : Node n Command} {input : Input n Command}
    {ballot : Ballot n} {sent : List (Message n Command)} (move : node.Moves input ballot sent)
    (delivered : ∀ message, input = .receive message → 0 < message.term)
    (positive : node.ballot.Positive) :
    ballot.Positive ∧ (0 < node.currentTerm → 0 < ballot.currentTerm) ∧
      ∀ message ∈ sent, 0 < message.term := by
  have followed {term : Int32} (above : 0 < term) : (node.following term).Positive :=
    ⟨Int32.le_of_lt above, fun _ => above⟩
  cases move with
  | keep noTerm quiet =>
    refine ⟨positive, id, fun message member => ?_⟩
    have answer := quiet message member
    cases message with
    | voteReply target args reply => exact delivered (.voteRequest target args) answer.1
    | appendReply target args reply => exact delivered (.appendRequest target args) answer
    | voteRequest | appendRequest => exact answer.elim
  | lead noTerm leader requests =>
    have above : 0 < node.currentTerm := positive.active (by
      change node.role ≠ .follower
      simp [leader])
    refine ⟨positive, id, fun message member => ?_⟩
    obtain ⟨target, args, rfl, _, _, same⟩ := requests message member
    rwa [Message.term, same]
  | stand notLeader below requests =>
    have nonneg : 0 ≤ node.currentTerm := positive.nonneg
    have above : 0 < node.currentTerm + 1 := by grind
    refine ⟨⟨Int32.le_of_lt above, fun _ => above⟩, fun _ => above, fun message member => ?_⟩
    obtain ⟨target, args, rfl, _, _, same⟩ := requests message member
    rwa [Message.term, same]
  | @refuse target args reply behind refused =>
    have above : 0 < args.term := delivered (.voteRequest target args) rfl
    exact ⟨followed above, fun _ => above, by simpa [Message.term] using above⟩
  | @grant target args ballot caughtUp current free =>
    have above : 0 < args.term := delivered (.voteRequest target args) rfl
    have after : 0 < ballot.currentTerm := current ▸ above
    exact ⟨⟨Int32.le_of_lt after, fun _ => after⟩, fun _ => after, by
      simpa [Message.term] using above⟩
  | @obey target args reply running changed =>
    have above : 0 < args.term := delivered (.appendRequest target args) rfl
    exact ⟨followed above, fun _ => above, by simpa [Message.term] using above⟩
  | @answered _ term ahead =>
    have above := answeredTerm_pos delivered ahead
    exact ⟨followed above, fun _ => above, by simp⟩
  | count candidate behind followers role counted won =>
    have above : 0 < node.currentTerm := positive.active (by
      change node.role ≠ .follower
      simp [candidate])
    exact ⟨⟨Int32.le_of_lt above, fun _ => above⟩, fun _ => above, by simp⟩

structure Cluster.Positive (cluster : Cluster n Command) : Prop where
  ballots : ∀ id, (cluster.ballots id).Positive
  sent : ∀ message ∈ cluster.sent, 0 < message.term

theorem ballot_new_positive (id : Fin n) (storage : RaftStorage Command) :
    (Node.new id storage).ballot.Positive :=
  ⟨Int32.le_refl _, fun active => absurd rfl active⟩

section Executions

variable [Inhabited Command] {cluster reached first second middle last : Cluster n Command}
  {voter candidate : Fin n} {term : Int32}

variable {event : Event n Command}

theorem Cluster.Positive.step (positive : cluster.Positive) (step : Step cluster event reached) :
    reached.Positive := by
  cases event with
  | act id input =>
    obtain ⟨ballot, sent, move, ballots, messages, delivered⟩ := step.act_moves
    obtain ⟨moved, _, sentPositive⟩ := move.positive
      (fun message same => positive.sent message (delivered message same).1)
      (positive.ballots id)
    refine ⟨fun other => ?_, fun message member => ?_⟩
    · rw [ballots]
      by_cases same : other = id
      · subst same
        rwa [update_self]
      · rw [update_of_ne same]
        exact positive.ballots other
    · rw [messages] at member
      rcases List.mem_append.mp member with old | new
      · exact positive.sent message old
      · exact sentPositive message new
  | restart id =>
    cases step
    refine ⟨fun other => ?_, positive.sent⟩
    by_cases same : other = id
    · subst same
      simp only [Cluster.ballots, update_self]
      exact ballot_new_positive _ _
    · simp only [Cluster.ballots, update_of_ne same]
      exact positive.ballots other

theorem positive_of_execution {events : List (Event n Command)}
    (ran : Execution events cluster) : cluster.Positive :=
  ran.invariant (fun _ state => state.Positive) (fun _ _ _ _ positive step => positive.step step)
    [] ⟨fun _ => ballot_new_positive _ _, by simp [Cluster.initial]⟩

/-- Nodes are made anew only in term 0. -/
def StepFresh (cluster : Cluster n Command) (event : Event n Command)
    (reached : Cluster n Command) : Prop :=
  Step cluster event reached ∧ ∀ id, event = .restart id → (cluster.nodes id).currentTerm = 0

theorem StepFresh.past (positive : cluster.Positive)
    (past : 0 < (cluster.ballots voter).currentTerm) (step : StepFresh cluster event reached) :
    0 < (reached.ballots voter).currentTerm ∧ event ≠ .restart voter := by
  obtain ⟨step, fresh⟩ := step
  cases event with
  | act id input =>
    obtain ⟨ballot, sent, move, ballots, _, delivered⟩ := step.act_moves
    refine ⟨?_, nofun⟩
    rw [ballots]
    by_cases same : voter = id
    · subst same
      rw [update_self]
      exact (move.positive (fun message same => positive.sent message (delivered message same).1)
        (positive.ballots voter)).2.1 past
    · rwa [update_of_ne same]
  | restart id =>
    have zero := fresh id rfl
    have other : voter ≠ id := by
      rintro rfl
      change 0 < (cluster.nodes voter).currentTerm at past
      rw [zero] at past
      exact Int32.lt_irrefl past
    refine ⟨?_, by simpa [eq_comm] using other⟩
    cases step
    simpa only [Cluster.ballots, update_of_ne other] using past

theorem not_restarted {between : List (Event n Command)} (positive : first.Positive)
    (past : 0 < (first.ballots voter).currentTerm) (ran : Run StepFresh first between last) :
    .restart voter ∉ between := by
  have kept := ran.invariant (fun history state => state.Positive ∧
    0 < (state.ballots voter).currentTerm ∧ .restart voter ∉ history) ?_ [] ⟨positive, past, by simp⟩
  · simpa using kept.2.2
  · rintro history state event next ⟨positive, past, without⟩ step
    obtain ⟨after, notRestart⟩ := step.past positive past
    refine ⟨positive.step step.1, after, ?_⟩
    simpa [without, eq_comm] using notRestart

theorem Step.supports_pos (positive : cluster.Positive) (step : Step cluster event reached)
    (supports : cluster.Supports event voter term candidate) : 0 < term := by
  cases step with
  | @act id input node sent delivered handled =>
    obtain ⟨rfl, supported⟩ := supports
    rcases Node.support_cases supported with
      ⟨rfl, rfl, rfl⟩ | ⟨target, args, after, rfl, ran, rfl, rfl⟩
    · have nonneg : 0 ≤ (cluster.nodes id).currentTerm := (positive.ballots id).nonneg
      have below := (Node.handle_election handled).1
      grind
    · exact positive.sent (.voteRequest target args) (delivered _ rfl).1
  | restart id => exact supports.elim

end Executions

end Bitdb.Raft
