import Bitdb.Raft.VoteProperties

/-! Elections: as long as no answer acts on a node that is past its request, a term has one
leader. -/

set_option autoImplicit false

namespace Bitdb.Raft

open Base Function Finset

variable {n : Nat} {Command : Type}

section Elections

def Granted (sent : List (Message n Command)) (voter : Fin n) (term : Int32)
    (candidate : Fin n) : Prop :=
  ∃ args : RequestVoteArgs n, args.term = term ∧ args.candidateId = candidate ∧
    .voteReply voter args ⟨term, true⟩ ∈ sent

/-- The node has won the term. It has voted for nobody else there and is still its leader, if
it has not left it. -/
structure Won (ballots : Fin n → Ballot n) (sent : List (Message n Command)) (id : Fin n)
    (term : Int32) : Prop where
  quorum : ∃ voters : Finset (Fin n), n / 2 < voters.card + 1 ∧
    ∀ voter ∈ voters, Granted sent voter term id
  loyal : ∀ candidate, ¬ Granted sent id term candidate
  reached : term ≤ (ballots id).currentTerm
  leads : term = (ballots id).currentTerm → (ballots id).role = .leader

/-- What a node that votes keeps to: a vote that was sent binds it, and votes are counted in
their own term. -/
structure Ballot.Sound (sent : List (Message n Command)) (id : Fin n) (ballot : Ballot n) :
    Prop where
  myId : ballot.myId = id
  binding : ∀ term candidate, Granted sent id term candidate → ballot.Holds term candidate
  follows : ∀ term candidate, Granted sent id term candidate → term = ballot.currentTerm →
    ballot.role = .follower
  own : ballot.role ≠ .follower → ballot.voteFor = some id
  counted : ballot.role ≠ .follower → ∀ voter ∈ ballot.followerIdSet,
    Granted sent voter ballot.currentTerm id
  majority : ballot.role = .leader → n / 2 < ballot.followerIdSet.card + 1

/-- What elections rest on. Only the winner of a term sends entries in it, and the terms
that were seen to be led have been won. -/
structure Elections (led : Fin n → Int32 → Prop) (ballots : Fin n → Ballot n)
    (sent : List (Message n Command)) : Prop where
  sound : ∀ id, (ballots id).Sound sent id
  requests : ∀ target args, .voteRequest target args ∈ sent → args.candidateId ≠ target
  single : ∀ voter term candidate other, Granted sent voter term candidate →
    Granted sent voter term other → candidate = other
  leaders : ∀ target args, .appendRequest target args ∈ sent →
    Won ballots sent args.leaderId args.term ∧ args.leaderId ≠ target
  won : ∀ leader term, led leader term → Won ballots sent leader term

variable {led : Fin n → Int32 → Prop} {ballots : Fin n → Ballot n}
  {sent : List (Message n Command)} {id other : Fin n} {term : Int32}

theorem Won.unique (single : ∀ voter term candidate other, Granted sent voter term candidate →
      Granted sent voter term other → candidate = other)
    (won : Won ballots sent id term) (wonOther : Won ballots sent other term) : id = other := by
  by_contra different
  obtain ⟨voters, majority, granted⟩ := won.quorum
  obtain ⟨otherVoters, otherMajority, otherGranted⟩ := wonOther.quorum
  have outside : id ∉ voters := fun member => won.loyal id (granted id member)
  have otherOutside : other ∉ otherVoters :=
    fun member => wonOther.loyal other (otherGranted other member)
  have overlap : (insert id voters ∩ insert other otherVoters).Nonempty := by
    apply inter_nonempty_of_card_lt_card_add_card (subset_univ _)
      (subset_univ _)
    rw [card_insert_of_notMem outside, card_insert_of_notMem otherOutside,
      card_univ, Fintype.card_fin]
    omega
  obtain ⟨voter, member⟩ := overlap
  simp only [mem_inter, mem_insert] at member
  rcases member with ⟨rfl | voted, same | votedOther⟩
  · exact different same
  · exact won.loyal other (otherGranted voter votedOther)
  · subst same
    exact wonOther.loyal id (granted voter voted)
  · exact different (single voter term id other (granted voter voted)
      (otherGranted voter votedOther))

theorem Elections.won_of_leader (elections : Elections led ballots sent)
    (leader : (ballots id).role = .leader) : Won ballots sent id (ballots id).currentTerm where
  quorum := ⟨(ballots id).followerIdSet, (elections.sound id).majority leader,
    (elections.sound id).counted (by simp [leader])⟩
  loyal candidate granted := by
    have follower := (elections.sound id).follows _ candidate granted rfl
    rw [leader] at follower
    cases follower
  reached := Int32.le_refl _
  leads _ := leader

variable {ballot : Ballot n}

theorem Won.update {leader : Fin n} (won : Won ballots sent leader term)
    (forward : (ballots id).currentTerm ≤ ballot.currentTerm)
    (leads : ballot.currentTerm = (ballots id).currentTerm → (ballots id).role = .leader →
      ballot.role = .leader) : Won (Function.update ballots id ballot) sent leader term := by
  by_cases same : leader = id
  · subst same
    refine ⟨won.quorum, won.loyal, ?_, ?_⟩
    · rw [update_self]
      exact Int32.le_trans won.reached forward
    · rw [update_self]
      intro equal
      have reached := won.reached
      have unmoved : ballot.currentTerm = (ballots leader).currentTerm := by grind
      exact leads unmoved (won.leads (equal.trans unmoved))
  · refine ⟨won.quorum, won.loyal, ?_, ?_⟩
    · rw [update_of_ne same]
      exact won.reached
    · rw [update_of_ne same]
      exact won.leads

theorem Elections.update (elections : Elections led ballots sent) (sound : ballot.Sound sent id)
    (forward : (ballots id).currentTerm ≤ ballot.currentTerm)
    (leads : ballot.currentTerm = (ballots id).currentTerm → (ballots id).role = .leader →
      ballot.role = .leader) : Elections led (Function.update ballots id ballot) sent where
  sound := (forall_update_iff ballots fun voter ballot => ballot.Sound sent voter).mpr
    ⟨sound, fun voter _ => elections.sound voter⟩
  requests := elections.requests
  single := elections.single
  leaders target args member := by
    obtain ⟨won, apart⟩ := elections.leaders target args member
    exact ⟨won.update forward leads, apart⟩
  won leader term seen := (elections.won leader term seen).update forward leads

theorem Ballot.Sound.ahead {before : Ballot n} (sound : before.Sound sent id)
    (ahead : before.currentTerm < ballot.currentTerm) (myId : ballot.myId = id)
    (own : ballot.role ≠ .follower → ballot.voteFor = some id) (empty : ballot.followerIdSet = ∅)
    (notLeader : ballot.role ≠ .leader) : ballot.Sound sent id := by
  have past {term : Int32} {candidate : Fin n} (granted : Granted sent id term candidate) :
      term < ballot.currentTerm :=
    Int32.lt_of_le_of_lt (sound.binding term candidate granted).1 ahead
  refine ⟨myId, ?_, ?_, own, fun _ voter member => ?_, fun leader => absurd leader notLeader⟩
  · intro term candidate granted
    exact ⟨Int32.le_of_lt (past granted), fun same => by have := past granted; grind⟩
  · intro term candidate granted same
    have := past granted
    grind
  · rw [empty] at member
    simp at member

section

variable (elections : Elections led ballots sent)

include elections

theorem Elections.ahead {ballot : Ballot n} (ahead : (ballots id).currentTerm < ballot.currentTerm)
    (myId : ballot.myId = id) (own : ballot.role ≠ .follower → ballot.voteFor = some id)
    (empty : ballot.followerIdSet = ∅) (notLeader : ballot.role ≠ .leader) :
    Elections led (Function.update ballots id ballot) sent :=
  elections.update ((elections.sound id).ahead ahead myId own empty notLeader)
    (Int32.le_of_lt ahead) fun same => by grind

theorem Elections.again (free : ∀ candidate, ¬ Granted sent id (ballots id).currentTerm candidate)
    (notLeader : (ballots id).role ≠ .leader) :
    Elections led (Function.update ballots id ⟨id, .follower, ∅, (ballots id).currentTerm, none⟩)
      sent := by
  refine elections.update ⟨rfl, ?_, fun _ _ _ _ => rfl, nofun, nofun, nofun⟩ (Int32.le_refl _)
    fun _ leader => absurd leader notLeader
  intro term candidate granted
  refine ⟨((elections.sound id).binding term candidate granted).1, ?_⟩
  rintro rfl
  exact absurd granted (free candidate)

theorem Elections.unvoted (noVote : (ballots id).voteFor = none) :
    Elections led (Function.update ballots id ⟨id, .follower, ∅, (ballots id).currentTerm, none⟩)
      sent := by
  refine elections.again (fun candidate granted => ?_) fun leader => ?_
  · have voted := ((elections.sound id).binding _ candidate granted).2 rfl
    rw [noVote] at voted
    cases voted
  · have voted := (elections.sound id).own (by simp [leader])
    rw [noVote] at voted
    cases voted

theorem Elections.yield {args : AppendEntriesArgs n Command}
    (requested : .appendRequest id args ∈ sent) (current : args.term = (ballots id).currentTerm)
    (active : (ballots id).role ≠ .follower) :
    Elections led (Function.update ballots id ⟨id, .follower, ∅, (ballots id).currentTerm, none⟩)
      sent := by
  obtain ⟨won, apart⟩ := elections.leaders id args requested
  rw [current] at won
  refine elections.again (fun candidate granted => ?_) fun leader => ?_
  · exact active ((elections.sound id).follows _ candidate granted rfl)
  · exact apart (won.unique elections.single (elections.won_of_leader leader))

theorem Elections.count (candidate : (ballots id).role = .candidate) {followers : Finset (Fin n)}
    {role : RaftRole}
    (counted : ∀ voter ∈ followers, Granted sent voter (ballots id).currentTerm id)
    (majority : role = .leader → n / 2 < followers.card + 1) :
    Elections led
      (Function.update ballots id { ballots id with role, followerIdSet := followers }) sent := by
  have sound := elections.sound id
  have active : (ballots id).role ≠ .follower := by simp [candidate]
  refine elections.update ⟨sound.myId, sound.binding, fun term other granted same => ?_,
    fun _ => sound.own active, fun _ => counted, majority⟩ (Int32.le_refl _) fun _ leader => ?_
  · exact absurd (sound.follows term other granted same) active
  · rw [candidate] at leader
    cases leader

theorem Elections.follower_of_free {args : RequestVoteArgs n}
    (requested : .voteRequest id args ∈ sent)
    (free : (ballots id).voteFor = none ∨ (ballots id).voteFor = some args.candidateId) :
    (ballots id).role = .follower := by
  by_contra active
  rw [(elections.sound id).own active] at free
  exact elections.requests id args requested (by simpa [eq_comm] using free)

end

def Message.Allowed (ballots : Fin n → Ballot n) (sent : List (Message n Command)) :
    Message n Command → Prop
  | .voteRequest target args => args.candidateId ≠ target
  | .voteReply _ _ reply => reply.voteGranted = false
  | .appendRequest target args => Won ballots sent args.leaderId args.term ∧ args.leaderId ≠ target
  | .appendReply _ _ _ => True

theorem granted_append {new : List (Message n Command)} {voter candidate : Fin n}
    (ungranted : ∀ target args, .voteReply target args ⟨term, true⟩ ∉ new) :
    Granted (sent ++ new) voter term candidate ↔ Granted sent voter term candidate := by
  simp [Granted, ungranted]

theorem Elections.send (elections : Elections led ballots sent) {new : List (Message n Command)}
    (allowed : ∀ message ∈ new, message.Allowed ballots sent) :
    Elections led ballots (sent ++ new) := by
  have same {voter candidate : Fin n} {term : Int32} :
      Granted (sent ++ new) voter term candidate ↔ Granted sent voter term candidate :=
    granted_append fun target args member => by
      have := allowed _ member
      simp [Message.Allowed] at this
  have won {leader : Fin n} {term : Int32} (won : Won ballots sent leader term) :
      Won ballots (sent ++ new) leader term :=
    ⟨by simpa only [same] using won.quorum, by simpa only [same] using won.loyal, won.reached,
      won.leads⟩
  refine ⟨fun id => ?_, fun target args member => ?_, ?_, fun target args member => ?_,
    fun leader term seen => won (elections.won leader term seen)⟩
  · have sound := elections.sound id
    exact ⟨sound.myId, by simpa only [same] using sound.binding,
      by simpa only [same] using sound.follows, sound.own,
      by simpa only [same] using sound.counted, sound.majority⟩
  · rcases List.mem_append.mp member with old | added
    · exact elections.requests target args old
    · exact allowed _ added
  · simpa only [same] using elections.single
  · rcases List.mem_append.mp member with old | added
    · obtain ⟨wonTerm, apart⟩ := elections.leaders target args old
      exact ⟨won wonTerm, apart⟩
    · obtain ⟨wonTerm, apart⟩ := allowed _ added
      exact ⟨won wonTerm, apart⟩

theorem granted_vote {args : RequestVoteArgs n} {voter candidate : Fin n} :
    Granted (sent ++ [.voteReply id args ⟨args.term, true⟩]) voter term candidate ↔
      Granted sent voter term candidate ∨
        (voter = id ∧ term = args.term ∧ candidate = args.candidateId) := by
  constructor
  · rintro ⟨request, rfl, rfl, member⟩
    rcases List.mem_append.mp member with old | added
    · exact .inl ⟨request, rfl, rfl, old⟩
    · simp only [List.mem_singleton, Message.voteReply.injEq] at added
      obtain ⟨rfl, rfl, _⟩ := added
      exact .inr ⟨rfl, rfl, rfl⟩
  · rintro (⟨request, rfl, rfl, old⟩ | ⟨rfl, rfl, rfl⟩)
    · exact ⟨request, rfl, rfl, List.mem_append_left _ old⟩
    · exact ⟨args, rfl, rfl, by simp⟩

theorem Elections.grant (elections : Elections led ballots sent) {args : RequestVoteArgs n}
    (follower : (ballots id).role = .follower) (current : (ballots id).currentTerm = args.term)
    (free : (ballots id).voteFor = none ∨ (ballots id).voteFor = some args.candidateId) :
    Elections led
      (Function.update ballots id { ballots id with voteFor := some args.candidateId })
      (sent ++ [.voteReply id args ⟨args.term, true⟩]) := by
  -- A vote that the node has given in this term before went to the same candidate.
  have repeated {candidate : Fin n} (granted : Granted sent id args.term candidate) :
      candidate = args.candidateId := by
    have voted := ((elections.sound id).binding _ candidate granted).2 current.symm
    rw [voted] at free
    simpa using free
  have won {leader : Fin n} {term : Int32} (before : Won ballots sent leader term) :
      Won (Function.update ballots id { ballots id with voteFor := some args.candidateId })
        (sent ++ [.voteReply id args ⟨args.term, true⟩]) leader term := by
    have updated : Won (Function.update ballots id
        { ballots id with voteFor := some args.candidateId }) sent leader term :=
      before.update (Int32.le_refl _) fun _ leads => leads
    refine ⟨?_, fun candidate granted => ?_, updated.reached, updated.leads⟩
    · obtain ⟨voters, majority, granted⟩ := before.quorum
      exact ⟨voters, majority, fun voter member => granted_vote.mpr (.inl (granted voter member))⟩
    · rcases granted_vote.mp granted with old | ⟨rfl, rfl, rfl⟩
      · exact before.loyal candidate old
      · have leads := before.leads current.symm
        rw [follower] at leads
        cases leads
  refine ⟨(forall_update_iff ballots fun voter ballot => ballot.Sound _ voter).mpr
    ⟨?_, fun voter other => ?_⟩, fun target args member => ?_, ?_, fun target args member => ?_,
    fun leader term seen => won (elections.won leader term seen)⟩
  · refine ⟨(elections.sound id).myId, fun term candidate granted => ?_, fun _ _ _ _ => follower,
      fun active => absurd follower active, fun active => absurd follower active,
      fun leader => by simp [follower] at leader⟩
    rcases granted_vote.mp granted with old | ⟨_, rfl, rfl⟩
    · refine ⟨((elections.sound id).binding term candidate old).1, fun same => ?_⟩
      change term = (ballots id).currentTerm at same
      rw [current] at same
      subst same
      rw [repeated old]
    · exact ⟨by rw [← current]; exact Int32.le_refl _, fun _ => rfl⟩
  · have sound := elections.sound voter
    have same {term : Int32} {candidate : Fin n} :
        Granted (sent ++ [.voteReply id args ⟨args.term, true⟩]) voter term candidate ↔
          Granted sent voter term candidate := by
      simp [granted_vote, other]
    exact ⟨sound.myId, by simpa only [same] using sound.binding,
      by simpa only [same] using sound.follows, sound.own,
      fun active counted member => granted_vote.mpr (.inl (sound.counted active counted member)),
      sound.majority⟩
  · exact elections.requests target args (by simpa using member)
  · intro voter term candidate other granted grantedOther
    rcases granted_vote.mp granted with old | ⟨rfl, rfl, rfl⟩
    · rcases granted_vote.mp grantedOther with oldOther | ⟨rfl, rfl, rfl⟩
      · exact elections.single voter term candidate other old oldOther
      · exact repeated old
    · rcases granted_vote.mp grantedOther with oldOther | ⟨_, _, rfl⟩
      · exact (repeated oldOther).symm
      · rfl
  · obtain ⟨wonTerm, apart⟩ := elections.leaders target args (by simpa using member)
    exact ⟨won wonTerm, apart⟩

end Elections

/-- The answer to a request acts on a node that is past it: the node begins a term again, or
counts a vote of another term. -/
def Node.Late (node : Node n Command) (input : Input n Command) : Prop :=
  node.BeginsAgain input ∨ node.CountsOld input

section Executions

variable {cluster reached first last : Cluster n Command}
  {led : Fin n → Int32 → Prop} {id other : Fin n}

theorem Elections.moves {input : Input n Command} {ballot : Ballot n}
    {sent : List (Message n Command)} (elections : Elections led cluster.ballots cluster.sent)
    (delivered : ∀ message, input = .receive message →
      message ∈ cluster.sent ∧ message.receiver = id) (notLate : ¬ (cluster.nodes id).Late input)
    (move : (cluster.nodes id).Moves input ballot sent) :
    Elections led (Function.update cluster.ballots id ballot) (cluster.sent ++ sent) := by
  obtain ⟨notAgain, notOld⟩ := not_or.mp notLate
  have sound := elections.sound id
  have myId : (cluster.nodes id).myId = id := sound.myId
  have unchanged : Function.update cluster.ballots id (cluster.nodes id).ballot =
    cluster.ballots := Function.update_eq_self id cluster.ballots
  have followed {term : Int32} (ahead : (cluster.nodes id).currentTerm < term) :
      Elections led (Function.update cluster.ballots id ((cluster.nodes id).following term))
        cluster.sent :=
    elections.ahead ahead myId nofun rfl nofun
  cases move with
  | keep noTerm quiet =>
    rw [unchanged]
    refine elections.send fun message member => ?_
    have answer := quiet message member
    cases message with
    | voteReply target args reply => exact answer.2
    | appendReply target args reply => trivial
    | voteRequest | appendRequest => exact answer.elim
  | lead noTerm leader requests =>
    rw [unchanged]
    refine elections.send fun message member => ?_
    obtain ⟨target, args, rfl, apart, leaderId, term⟩ := requests message member
    have won : Won cluster.ballots cluster.sent id (cluster.nodes id).currentTerm :=
      elections.won_of_leader leader
    rw [Message.Allowed, leaderId, term, myId]
    exact ⟨won, by rw [myId] at apart; exact apart.symm⟩
  | stand notLeader below requests =>
    have ahead : (cluster.nodes id).currentTerm < (cluster.nodes id).currentTerm + 1 := by grind
    have stood : Elections led (Function.update cluster.ballots id ⟨(cluster.nodes id).myId,
        .candidate, ∅, (cluster.nodes id).currentTerm + 1, some (cluster.nodes id).myId⟩)
        cluster.sent :=
      elections.ahead ahead myId (fun _ => congrArg some myId) rfl nofun
    refine stood.send fun message member => ?_
    obtain ⟨target, args, rfl, apart, candidateId, _⟩ := requests message member
    rw [Message.Allowed, candidateId]
    exact apart.symm
  | refuse behind refused => exact (followed behind).send (by simpa [Message.Allowed] using refused)
  | @grant target args ballot caughtUp current free =>
    obtain ⟨requested, here⟩ := delivered _ rfl
    have same : target = id := here
    subst same
    rcases caughtUp with rfl | ⟨behind, rfl⟩
    · exact elections.grant (elections.follower_of_free requested free) current free
    · have caught : Function.update cluster.ballots target
          ((cluster.nodes target).following args.term) target =
          (cluster.nodes target).following args.term := update_self ..
      have granted := (followed behind).grant (by rw [caught]; rfl) (by rw [caught]; rfl)
        (by rw [caught]; exact .inl rfl)
      rw [caught, update_idem] at granted
      exact granted
  | @obey target args reply running changed =>
    obtain ⟨requested, here⟩ := delivered _ rfl
    have same : target = id := here
    subst same
    refine Elections.send ?_ (by simp [Message.Allowed])
    rcases changed with behind | ⟨equal, active⟩
    · exact followed behind
    · rw [Node.following, myId, equal]
      exact elections.yield requested equal active
  | @answered _ term ahead =>
    rw [List.append_nil]
    by_cases above : (cluster.nodes id).currentTerm < term
    · exact followed above
    · have equal : term = (cluster.nodes id).currentTerm := by
        by_contra different
        exact notAgain ⟨term, ahead, .inl (by grind)⟩
      have noVote : (cluster.nodes id).voteFor = none := by
        by_contra voted
        exact notAgain ⟨term, ahead, .inr ⟨equal, voted⟩⟩
      rw [Node.following, myId, equal]
      exact elections.unvoted noVote
  | @count target args reply candidate behind followers role counted won =>
    rw [List.append_nil]
    have old := sound.counted (by change (cluster.nodes id).role ≠ _; simp [candidate])
    refine elections.count candidate (fun voter member => ?_) fun leader => ?_
    · rcases counted with rfl | ⟨rfl, rfl⟩
      · exact old voter member
      · rcases mem_insert.mp member with rfl | counted
        · obtain ⟨answered, asked⟩ := delivered _ rfl
          have equal : args.term = (cluster.nodes id).currentTerm := by
            by_contra different
            exact notOld ⟨candidate, rfl, different⟩
          rw [equal] at answered
          exact ⟨args, equal, asked, answered⟩
        · exact old voter counted
    · rcases won with rfl | ⟨_, majority⟩
      · cases leader
      · exact majority

theorem elections_initial :
    Elections (fun _ _ => False) (Cluster.initial : Cluster n Command).ballots
      (Cluster.initial : Cluster n Command).sent := by
  have nothing {voter candidate : Fin n} {term : Int32} :
      ¬ Granted ([] : List (Message n Command)) voter term candidate := by
    simp [Granted]
  refine ⟨fun id => ⟨rfl, ?_, ?_, fun active => absurd rfl active, fun active => absurd rfl active,
    nofun⟩, nofun, ?_, nofun, nofun⟩
  · exact fun _ _ granted => absurd granted nothing
  · exact fun _ _ granted => absurd granted nothing
  · exact fun _ _ _ _ granted => absurd granted nothing

theorem Elections.seen (elections : Elections led cluster.ballots cluster.sent)
    (leader : (cluster.nodes id).role = .leader) :
    Elections (fun node term => led node term ∨ (node = id ∧ term = (cluster.nodes id).currentTerm))
      cluster.ballots cluster.sent :=
  { elections with
    won := by
      rintro node term (seen | ⟨rfl, rfl⟩)
      · exact elections.won node term seen
      · exact elections.won_of_leader leader }

variable [Inhabited Command]

theorem Elections.step {event : Event n Command}
    (elections : Elections led cluster.ballots cluster.sent)
    (step : StepWithout Node.Late cluster event reached) :
    Elections led reached.ballots reached.sent := by
  cases step with
  | act step notLate =>
    obtain ⟨ballot, sent, move, ballots, messages, delivered⟩ := step.act_moves
    rw [ballots, messages]
    exact elections.moves delivered notLate move

theorem Elections.run {events : List (Event n Command)}
    (elections : Elections led first.ballots first.sent)
    (ran : Run (StepWithout Node.Late) first events last) : Elections led last.ballots last.sent :=
  ran.invariant (fun _ state => Elections led state.ballots state.sent)
    (fun _ _ _ _ before step => before.step step) [] elections

theorem elections_of_run {events : List (Event n Command)}
    (ran : Run (StepWithout Node.Late) .initial events cluster) :
    Elections (fun _ _ => False) cluster.ballots cluster.sent :=
  elections_initial.run ran

/-- If no answer acts on a node that is past its request, two leaders of one term are the
same node, be it at the same time or one after the other. -/
theorem one_leader_per_term {earlier later : List (Event n Command)}
    (before : Run (StepWithout Node.Late) .initial earlier first)
    (leader : (first.nodes id).role = .leader)
    (ran : Run (StepWithout Node.Late) first later last)
    (leaderOther : (last.nodes other).role = .leader)
    (same : (first.nodes id).currentTerm = (last.nodes other).currentTerm) : id = other := by
  have elections := ((elections_of_run before).seen leader).run ran
  have won := elections.won id _ (.inr ⟨rfl, rfl⟩)
  rw [same] at won
  exact won.unique elections.single (elections.won_of_leader leaderOther)

end Executions

instance (node : Node n Command) (input : Input n Command) : Decidable (node.Late input) :=
  inferInstanceAs (Decidable (node.BeginsAgain input ∨ node.CountsOld input))

theorem one_leader_per_term_elected : ∃ cluster : Cluster 3 Nat,
    (cluster.nodes 0).role = .leader ∧ ∀ other, (cluster.nodes other).role = .leader →
      (cluster.nodes 0).currentTerm = (cluster.nodes other).currentTerm → 0 = other := by
  obtain ⟨cluster, ran, checked⟩ := exists_run_without Node.Late (.initial : Cluster 3 Nat)
    [.act 0 .election, .act 1 (.receive (.voteRequest 1 ⟨1, 0, 0, 0⟩)),
      .act 0 (.receive (.voteReply 1 ⟨1, 0, 0, 0⟩ ⟨1, true⟩))]
    (fun cluster => (cluster.nodes 0).role = .leader) (by decide +kernel)
  have leader : (cluster.nodes 0).role = .leader := of_decide_eq_true checked
  exact ⟨cluster, leader, fun other leaderOther same =>
    one_leader_per_term ran leader (.nil _) leaderOther same⟩

/-- A node gets a vote in term 1 and stands again in term 2. There the voter votes for another
node, and only then the first one counts the vote of term 1. -/
def oldVote (id voter other : Fin n) : List (Event n Nat) :=
  [.act id .election, .act voter (.receive (.voteRequest voter ⟨1, id, 0, 0⟩)), .act id .election,
    .act other .election, .act other .election,
    .act voter (.receive (.voteRequest voter ⟨2, other, 0, 0⟩)),
    .act other (.receive (.voteReply voter ⟨2, other, 0, 0⟩ ⟨2, true⟩)),
    .act id (.receive (.voteReply voter ⟨1, id, 0, 0⟩ ⟨1, true⟩))]

/-- Both nodes are the leader of term 2. -/
theorem two_leaders_by_old_vote : ∃ cluster : Cluster 3 Nat, Execution (oldVote 0 1 2) cluster ∧
    (cluster.nodes 0).role = .leader ∧ (cluster.nodes 2).role = .leader ∧
      (cluster.nodes 0).currentTerm = 2 ∧ (cluster.nodes 2).currentTerm = 2 := by
  obtain ⟨cluster, ran, checked⟩ := exists_run (.initial : Cluster 3 Nat) (oldVote 0 1 2)
    (fun cluster => decide ((cluster.nodes 0).role = .leader ∧ (cluster.nodes 2).role = .leader ∧
      (cluster.nodes 0).currentTerm = 2 ∧ (cluster.nodes 2).currentTerm = 2)) (by decide +kernel)
  exact ⟨cluster, ran, of_decide_eq_true checked⟩

end Bitdb.Raft
