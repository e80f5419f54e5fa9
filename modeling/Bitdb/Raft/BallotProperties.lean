import Bitdb.Raft.Node

/-! Every step of a node is one of the moves of its ballot, and every step of a cluster
moves the ballot of one node. -/

set_option autoImplicit false

namespace Bitdb.Raft

open Base Option Function

variable {n : Nat} {Command : Type}

structure Ballot (n : Nat) where
  myId : Fin n
  role : RaftRole
  followerIdSet : Finset (Fin n)
  currentTerm : Int32
  voteFor : Option (Fin n)

def Node.ballot (node : Node n Command) : Ballot n :=
  ⟨node.myId, node.role, node.followerIdSet, node.currentTerm, node.voteFor⟩

def Node.following (node : Node n Command) (term : Int32) : Ballot n :=
  ⟨node.myId, .follower, ∅, term, none⟩

/-- An answer to what was received that promises nothing. -/
def Message.Quiet (input : Input n Command) : Message n Command → Prop
  | .voteReply target args reply =>
    input = .receive (.voteRequest target args) ∧ reply.voteGranted = false
  | .appendReply target args _ => input = .receive (.appendRequest target args)
  | _ => False

/-- The term of an answer that is ahead of its request, which the node then follows. -/
def Node.answeredTerm (node : Node n Command) : Input n Command → Option Int32
  | .receive (.voteReply _ args reply) =>
    if node.role = .candidate ∧ args.term < reply.term then some reply.term else none
  | .receive (.appendReply _ args reply) =>
    if args.term < reply.term then some reply.term else none
  | _ => none

/-- Every way a step may change the ballot of a node, with what the node then sends. -/
inductive Node.Moves (node : Node n Command) :
    Input n Command → Ballot n → List (Message n Command) → Prop where
  | keep {input : Input n Command} {sent : List (Message n Command)}
      (noTerm : node.answeredTerm input = none) (quiet : ∀ message ∈ sent, message.Quiet input) :
      Moves node input node.ballot sent
  | lead {input : Input n Command} {sent : List (Message n Command)}
      (noTerm : node.answeredTerm input = none) (leader : node.role = .leader)
      (requests : ∀ message ∈ sent, ∃ target args, message = .appendRequest target args ∧
        target ≠ node.myId ∧ args.leaderId = node.myId ∧ args.term = node.currentTerm) :
      Moves node input node.ballot sent
  | stand {sent : List (Message n Command)} (notLeader : node.role ≠ .leader)
      (below : node.currentTerm ≠ Int32.maxValue)
      (requests : ∀ message ∈ sent, ∃ target args, message = .voteRequest target args ∧
        target ≠ node.myId ∧ args.candidateId = node.myId ∧ args.term = node.currentTerm + 1) :
      Moves node .election ⟨node.myId, .candidate, ∅, node.currentTerm + 1, some node.myId⟩ sent
  | refuse {target : Fin n} {args : RequestVoteArgs n} {reply : RequestVoteReply}
      (behind : node.currentTerm < args.term) (refused : reply.voteGranted = false) :
      Moves node (.receive (.voteRequest target args)) (node.following args.term)
        [.voteReply target args reply]
  | grant {target : Fin n} {args : RequestVoteArgs n} (ballot : Ballot n)
      (caughtUp : ballot = node.ballot ∨
        (node.currentTerm < args.term ∧ ballot = node.following args.term))
      (current : ballot.currentTerm = args.term)
      (free : ballot.voteFor = none ∨ ballot.voteFor = some args.candidateId) :
      Moves node (.receive (.voteRequest target args))
        { ballot with voteFor := some args.candidateId } [.voteReply target args ⟨args.term, true⟩]
  | obey {target : Fin n} {args : AppendEntriesArgs n Command} {reply : AppendEntriesReply}
      (running : node.stopped = false)
      (changed : node.currentTerm < args.term ∨
        (args.term = node.currentTerm ∧ node.role ≠ .follower)) :
      Moves node (.receive (.appendRequest target args)) (node.following args.term)
        [.appendReply target args reply]
  | answered {input : Input n Command} {term : Int32}
      (ahead : node.answeredTerm input = some term) :
      Moves node input (node.following term) []
  | count {target : Fin n} {args : RequestVoteArgs n} {reply : RequestVoteReply}
      (candidate : node.role = .candidate) (behind : ¬ args.term < reply.term)
      (followers : Finset (Fin n))
      (role : RaftRole)
      (counted : followers = node.followerIdSet ∨
        (reply = ⟨args.term, true⟩ ∧ followers = insert target node.followerIdSet))
      (won : role = .candidate ∨ (role = .leader ∧ n / 2 < followers.card + 1)) :
      Moves node (.receive (.voteReply target args reply))
        { node.ballot with role, followerIdSet := followers } []

/-- The term and the candidate that a node supports with a step: itself when it stands for
election, or whom it grants its vote. -/
def Node.support (node : Node n Command) : Input n Command → Option (Int32 × Fin n)
  | .election => some (node.currentTerm + 1, node.myId)
  | .receive (.voteRequest _ args) => do
      let (reply, _) ← node.requestVote args
      if reply.voteGranted then some (args.term, args.candidateId) else none
  | _ => none

/-- An answer takes the node back to a term that it has left. -/
def Node.TakenBack (node : Node n Command) (input : Input n Command) : Prop :=
  ∃ term, node.answeredTerm input = some term ∧ term < node.currentTerm

/-- An answer makes the node begin a term that it has left, or the one it has voted in. -/
def Node.BeginsAgain (node : Node n Command) (input : Input n Command) : Prop :=
  ∃ term, node.answeredTerm input = some term ∧
    (term < node.currentTerm ∨ (term = node.currentTerm ∧ node.voteFor ≠ none))

/-- A candidate or a leader obeys another leader of its own term. -/
def Node.Yields (node : Node n Command) : Input n Command → Prop
  | .receive (.appendRequest _ args) =>
    node.stopped = false ∧ args.term = node.currentTerm ∧ node.role ≠ .follower
  | _ => False

/-- A candidate counts a vote that it was given in another term. -/
def Node.CountsOld (node : Node n Command) : Input n Command → Prop
  | .receive (.voteReply _ args reply) => node.role = .candidate ∧
      reply = ⟨args.term, true⟩ ∧ args.term ≠ node.currentTerm
  | _ => False

section Decidable

variable (node : Node n Command) (input : Input n Command)

instance decidableExistsAnswered (holds : Int32 → Prop) [DecidablePred holds] :
    Decidable (∃ term, node.answeredTerm input = some term ∧ holds term) :=
  match answered : node.answeredTerm input with
  | none => isFalse (by rintro ⟨term, same, _⟩; cases same)
  | some term => decidable_of_iff (holds term)
      ⟨fun yes => ⟨term, rfl, yes⟩, by rintro ⟨_, ⟨rfl⟩, yes⟩; exact yes⟩

instance : Decidable (node.BeginsAgain input) :=
  inferInstanceAs (Decidable (∃ term, node.answeredTerm input = some term ∧
    (term < node.currentTerm ∨ (term = node.currentTerm ∧ node.voteFor ≠ none))))

instance : Decidable (node.CountsOld input) :=
  match input with
  | .receive (.voteReply _ args reply) => inferInstanceAs (Decidable (node.role = .candidate ∧
      reply = ⟨args.term, true⟩ ∧ args.term ≠ node.currentTerm))
  | .receive (.voteRequest _ _) | .receive (.appendRequest _ _) | .receive (.appendReply _ _ _)
  | .election | .heartbeat | .commit | .apply | .command _ | .stop => isFalse id

end Decidable

namespace Node

variable {node reached : Node n Command}

@[simp] theorem ballot_becomeFollower (term : Int32) (node : Node n Command) :
    (node.becomeFollower term).ballot = node.following term := rfl

theorem ballot_catchUp (term : Int32) (node : Node n Command) :
    ((node.catchUp term).ballot = node.ballot ∧ ¬ node.currentTerm < term) ∨
      ((node.catchUp term).ballot = node.following term ∧ node.currentTerm < term) := by
  rcases catchUp_cases term node with ⟨same, notBehind⟩ | ⟨follows, behind⟩
  · exact .inl ⟨by rw [same], notBehind⟩
  · exact .inr ⟨by rw [follows, ballot_becomeFollower], behind⟩

theorem ballot_obey {term : Int32} (current : ¬ term < node.currentTerm) :
    ((node.catchUp term).stepDown term).ballot = node.ballot ∨
      (((node.catchUp term).stepDown term).ballot = node.following term ∧
        (node.currentTerm < term ∨ (term = node.currentTerm ∧ node.role ≠ .follower))) := by
  rcases stepDown_cases term (node.catchUp term) with ⟨same, role⟩ | ⟨follows, role⟩
  · rw [same]
    rcases ballot_catchUp term node with ⟨kept, _⟩ | ⟨caught, behind⟩
    · exact .inl kept
    · exact .inr ⟨caught, .inl behind⟩
  · refine .inr ⟨by rw [follows, ballot_becomeFollower, following, catchUp_myId, following], ?_⟩
    rcases catchUp_cases term node with ⟨same, notBehind⟩ | ⟨_, behind⟩
    · exact .inr ⟨by grind, same ▸ role⟩
    · exact .inl behind

theorem moves_requestVote {target : Fin n} {args : RequestVoteArgs n} {reply : RequestVoteReply}
    (ran : node.requestVote args = some (reply, reached)) :
    node.Moves (.receive (.voteRequest target args)) reached.ballot
      [.voteReply target args reply] := by
  rcases requestVote_cases ran with ⟨refused, same | caught⟩ | ⟨rfl, current, free, rfl⟩
  · exact same ▸ .keep rfl (by simpa [Message.Quiet] using refused)
  · rw [caught]
    rcases ballot_catchUp args.term node with ⟨kept, _⟩ | ⟨followed, behind⟩
    · rw [kept]
      exact .keep rfl (by simpa [Message.Quiet] using refused)
    · rw [followed]
      exact .refuse behind refused
  · refine .grant (node.catchUp args.term).ballot ?_ current free
    rcases ballot_catchUp args.term node with ⟨kept, _⟩ | ⟨followed, behind⟩
    · exact .inl kept
    · exact .inr ⟨behind, followed⟩

theorem ballot_stored [Inhabited Command] (prevLogIndex : Int)
    (entries : List (LogEntry Command)) (leaderCommit : Int) (node : Node n Command) :
    ((node.storeEntries prevLogIndex entries).followCommit leaderCommit).ballot = node.ballot := by
  rw [followCommit, storeEntries]
  split <;> split <;> rfl

theorem moves_appendEntries [Inhabited Command] {target : Fin n}
    {args : AppendEntriesArgs n Command} {reply : AppendEntriesReply}
    (ran : node.appendEntries args = some (reply, reached)) :
    node.Moves (.receive (.appendRequest target args)) reached.ballot
      [.appendReply target args reply] := by
  have obeyed (running : node.stopped = false) (current : ¬ args.term < node.currentTerm) :
      node.Moves (.receive (.appendRequest target args))
        ((node.catchUp args.term).stepDown args.term).ballot [.appendReply target args reply] := by
    rcases ballot_obey current with kept | ⟨followed, changed⟩
    · rw [kept]
      exact .keep rfl (by simp [Message.Quiet])
    · rw [followed]
      exact .obey running changed
  rcases appendEntries_cases ran with
    ⟨_, _, rfl⟩ | ⟨current, running, _, rfl⟩ | ⟨current, running, _, _, _, rfl⟩
  · exact .keep rfl (by simp [Message.Quiet])
  · exact obeyed running current
  · rw [ballot_stored]
    exact obeyed running current

theorem moves_receiveVote (target : Fin n) (args : RequestVoteArgs n) (reply : RequestVoteReply)
    (node : Node n Command) :
    node.Moves (.receive (.voteReply target args reply))
      (node.receiveVote target args reply).ballot [] := by
  rcases receiveVote_cases target args reply node with
    ⟨other, same⟩ | ⟨candidate, ahead, follows⟩ | ⟨candidate, behind, followers, counted, received⟩
  · rw [same]
    exact .keep (if_neg fun both => other both.1) (by simp)
  · rw [follows]
    exact .answered (if_pos ⟨candidate, ahead⟩)
  · rw [received]
    split
    · rename_i majority
      exact .count candidate behind followers .leader counted (.inr ⟨rfl, majority⟩)
    · have move := Moves.count candidate behind followers .candidate counted (.inl rfl)
      rw [← candidate] at move
      exact move

theorem moves_receiveAppended (target : Fin n) (args : AppendEntriesArgs n Command)
    (reply : AppendEntriesReply) (node : Node n Command) :
    node.Moves (.receive (.appendReply target args reply))
      (node.receiveAppended target args reply).ballot [] := by
  rcases receiveAppended_cases target args reply node with
    ⟨ahead, follows⟩ | ⟨behind, nextIndex, matchIndex, commitIndex, received, _⟩
  · rw [follows]
    exact .answered (if_pos ahead)
  · rw [received]
    exact .keep (if_neg behind) (by simp)

theorem ballot_applyLoop {rounds : Nat} (ran : node.applyLoop rounds = some reached) :
    reached.ballot = node.ballot := by
  obtain ⟨applied, lastApplied, rfl⟩ := applyLoop_frame ran
  rfl

theorem mem_others {node : Node n Command} {target : Fin n} :
    target ∈ node.others ↔ target ≠ node.myId := by
  simp [others, List.mem_finRange]

theorem moves_startElection {args : RequestVoteArgs n} (notLeader : node.role ≠ .leader)
    (ran : node.startElection = some (args, reached)) :
    node.Moves .election reached.ballot
      (node.others.map fun target => .voteRequest target args) := by
  obtain ⟨below, ⟨lastLogTerm, rfl⟩, rfl⟩ := startElection_cases ran
  refine .stand notLeader below fun message member => ?_
  obtain ⟨target, other, rfl⟩ := List.mem_map.mp member
  exact ⟨target, _, rfl, mem_others.mp other, rfl, rfl⟩

theorem mem_of_mapM_eq_some {α β : Type} {made : α → Option β} {items : List α}
    {results : List β} (ran : items.mapM made = some results) {result : β}
    (member : result ∈ results) : ∃ item ∈ items, made item = some result := by
  induction items generalizing results with
  | nil =>
    cases ran
    cases member
  | cons item items ih =>
    rw [List.mapM_cons] at ran
    obtain ⟨first, front, rest⟩ := bind_eq_some_iff.mp ran
    obtain ⟨others, back, both⟩ := bind_eq_some_iff.mp rest
    cases both
    rcases List.mem_cons.mp member with rfl | later
    · exact ⟨item, List.mem_cons_self .., front⟩
    · obtain ⟨found, inside, equal⟩ := ih back later
      exact ⟨found, List.mem_cons_of_mem _ inside, equal⟩

variable {sent : List (Message n Command)}

theorem request_of_mem {heartbeat : Bool} {targets : List (Fin n)} {message : Message n Command}
    (made : (targets.mapM fun target =>
      (node.entriesFor heartbeat target).map (Message.appendRequest target)) = some sent)
    (member : message ∈ sent) : ∃ target ∈ targets, ∃ args,
      node.entriesFor heartbeat target = some args ∧ message = .appendRequest target args := by
  obtain ⟨target, inside, mapped⟩ := mem_of_mapM_eq_some made member
  obtain ⟨args, filled, rfl⟩ := map_eq_some_iff.mp mapped
  exact ⟨target, inside, args, filled, rfl⟩

theorem moves_sent {input : Input n Command} {heartbeat : Bool} {targets : List (Fin n)}
    (noTerm : node.answeredTerm input = none) (leader : node.role = .leader)
    (others : ∀ target ∈ targets, target ≠ node.myId) (ran : (targets.mapM fun target =>
      (node.entriesFor heartbeat target).map (Message.appendRequest target)) = some sent) :
    node.Moves input node.ballot sent := by
  refine .lead noTerm leader fun message member => ?_
  obtain ⟨target, inside, args, filled, rfl⟩ := request_of_mem ran member
  rw [entriesFor] at filled
  obtain ⟨prevLogTerm, _, built⟩ := bind_eq_some_iff.mp filled
  cases built
  exact ⟨target, _, rfl, others target inside, rfl, rfl⟩

theorem handle_moves [Inhabited Command] {input : Input n Command}
    (handled : node.handle input = some (reached, sent)) :
    node.Moves input reached.ballot sent := by
  cases handles_of_handle handled with
  | election notLeader ran => exact moves_startElection notLeader ran
  | replicate heartbeat targets round leader others made =>
    have noTerm : node.answeredTerm input = none := by
      rcases round with rfl | rfl
      · rfl
      · rfl
    exact moves_sent noTerm leader (fun target member => mem_others.mp (others target member))
      made
  | apply ran =>
    rw [ballot_applyLoop ran]
    exact .keep rfl (by simp)
  | refuse | command | stop => exact .keep rfl (by simp)
  | voteRequest target args ran => exact moves_requestVote ran
  | voteReply target args reply => exact moves_receiveVote target args reply node
  | appendRequest target args ran => exact moves_appendEntries ran
  | appendReply target args reply => exact moves_receiveAppended target args reply node

end Node

@[simp] theorem Cluster.after_nodes (cluster : Cluster n Command) (id : Fin n)
    (stepped : Node n Command × List (Message n Command)) :
    (cluster.after id stepped).nodes = Function.update cluster.nodes id stepped.1 := rfl

def Cluster.ballots (cluster : Cluster n Command) (id : Fin n) : Ballot n :=
  (cluster.nodes id).ballot

section Steps

variable [Inhabited Command] {cluster reached : Cluster n Command}

theorem Step.act_moves {id : Fin n} {input : Input n Command}
    (step : Step cluster (.act id input) reached) : ∃ ballot sent,
      (cluster.nodes id).Moves input ballot sent ∧
        reached.ballots = Function.update cluster.ballots id ballot ∧
        reached.sent = cluster.sent ++ sent ∧
        ∀ message, input = .receive message → message ∈ cluster.sent ∧ message.receiver = id := by
  cases step with
  | @act _ _ node sent delivered handled =>
    refine ⟨node.ballot, sent, Node.handle_moves handled, ?_, rfl, delivered⟩
    funext other
    by_cases same : other = id
    · subst same
      simp [Cluster.ballots]
    · simp [Cluster.ballots, same]

theorem step_of_next [DecidableEq Command] {event : Event n Command}
    (next : cluster.next event = some reached) : Step cluster event reached := by
  cases event with
  | restart id =>
    cases next
    exact .restart id
  | act id input =>
    have made : (∀ message, input = .receive message →
        message ∈ cluster.sent ∧ message.receiver = id) ∧
        ((cluster.nodes id).handle input).map (cluster.after id) = some reached := by
      cases input with
      | receive message =>
        rw [Cluster.next] at next
        split at next
        · rename_i delivered
          refine ⟨?_, next⟩
          rintro _ ⟨⟩
          exact delivered
        · cases next
      | election | heartbeat | commit | apply | command | stop => exact ⟨by rintro _ ⟨⟩, next⟩
    obtain ⟨delivered, mapped⟩ := made
    obtain ⟨⟨node, sent⟩, handled, rfl⟩ := map_eq_some_iff.mp mapped
    exact .act delivered handled

theorem exists_step [DecidableEq Command] (cluster : Cluster n Command) (event : Event n Command)
    (check : Cluster n Command → Bool) (found : (cluster.next event).any check = true) :
    ∃ reached, Step cluster event reached ∧ check reached = true := by
  cases next : cluster.next event with
  | none => simp [next] at found
  | some reached =>
    rw [next] at found
    exact ⟨reached, step_of_next next, found⟩

theorem exists_run [DecidableEq Command] (cluster : Cluster n Command)
    (events : List (Event n Command)) (check : Cluster n Command → Bool)
    (found : (events.foldlM Cluster.next cluster).any check = true) :
    ∃ reached, Run Step cluster events reached ∧ check reached = true :=
  Run.exists_of_foldlM (fun _ _ _ => step_of_next) cluster events check found

def Cluster.nextWithout [DecidableEq Command] (avoided : Node n Command → Input n Command → Prop)
    [∀ node input, Decidable (avoided node input)] (cluster : Cluster n Command) :
    Event n Command → Option (Cluster n Command)
  | .act id input =>
    if avoided (cluster.nodes id) input then none else cluster.next (.act id input)
  | .restart _ => none

theorem exists_run_without [DecidableEq Command] (avoided : Node n Command → Input n Command → Prop)
    [∀ node input, Decidable (avoided node input)] (cluster : Cluster n Command)
    (events : List (Event n Command)) (check : Cluster n Command → Bool)
    (found : (events.foldlM (Cluster.nextWithout avoided) cluster).any check = true) :
    ∃ reached, Run (StepWithout avoided) cluster events reached ∧ check reached = true := by
  refine Run.exists_of_foldlM (fun state event next taken => ?_) cluster events check found
  cases event with
  | restart id => cases taken
  | act id input =>
    rw [Cluster.nextWithout] at taken
    split at taken
    · cases taken
    · exact .act (step_of_next taken) ‹_›

end Steps

section

variable {ballot : Ballot n} {input : Input n Command} {node : Node n Command}
  {sent : List (Message n Command)} (move : node.Moves input ballot sent)

include move

theorem Node.Moves.term_cases :
    (node.answeredTerm input = none ∧ node.currentTerm ≤ ballot.currentTerm) ∨
      ∃ term, node.answeredTerm input = some term ∧ ballot = node.following term := by
  have same : node.currentTerm ≤ node.currentTerm := Int32.le_refl _
  cases move with
  | keep noTerm quiet | lead noTerm leader requests => exact .inl ⟨noTerm, same⟩
  | stand notLeader below requests =>
    refine .inl ⟨rfl, ?_⟩
    change node.currentTerm ≤ node.currentTerm + 1
    grind
  | refuse behind refused => exact .inl ⟨rfl, Int32.le_of_lt behind⟩
  | grant ballot caughtUp current free =>
    refine .inl ⟨rfl, ?_⟩
    rcases caughtUp with rfl | ⟨behind, rfl⟩
    · exact same
    · exact Int32.le_of_lt behind
  | @obey target args reply running changed =>
    refine .inl ⟨rfl, ?_⟩
    change node.currentTerm ≤ args.term
    rcases changed with behind | ⟨equal, _⟩
    · exact Int32.le_of_lt behind
    · rw [equal]
      exact same
  | answered ahead => exact .inr ⟨_, ahead, rfl⟩
  | count candidate behind followers role counted won =>
    exact .inl ⟨if_neg fun both => behind both.2, same⟩

theorem Node.Moves.term_le_iff :
    node.currentTerm ≤ ballot.currentTerm ↔ ¬ node.TakenBack input := by
  rcases move.term_cases with ⟨noTerm, forward⟩ | ⟨term, ahead, rfl⟩
  · refine iff_of_true forward ?_
    rintro ⟨term, ahead, _⟩
    rw [noTerm] at ahead
    cases ahead
  · rw [Node.TakenBack, ahead]
    change node.currentTerm ≤ term ↔ _
    constructor
    · rintro forward ⟨_, ⟨rfl⟩, back⟩
      grind
    · intro notBack
      have above : ¬ term < node.currentTerm := fun back => notBack ⟨term, rfl, back⟩
      grind

end

section Executions

variable [Inhabited Command] {cluster reached first last : Cluster n Command}

def Cluster.TermsLe (before after : Cluster n Command) : Prop :=
  ∀ id, (before.nodes id).currentTerm ≤ (after.nodes id).currentTerm

theorem termsLe_iff {id : Fin n} {input : Input n Command}
    (step : Step cluster (.act id input) reached) :
    cluster.TermsLe reached ↔ ¬ (cluster.nodes id).TakenBack input := by
  obtain ⟨ballot, sent, move, ballots, _, _⟩ := step.act_moves
  have after (other : Fin n) : (reached.nodes other).currentTerm =
      (update cluster.ballots id ballot other).currentTerm :=
    congrArg (fun ballots => (ballots other).currentTerm) ballots
  rw [← move.term_le_iff]
  constructor
  · intro forward
    have moved := forward id
    rw [after id, update_self] at moved
    exact moved
  · intro forward other
    rw [after other]
    by_cases same : other = id
    · subst same
      rw [update_self]
      exact forward
    · rw [update_of_ne same]
      exact Int32.le_refl _

theorem termsLe_of_run {events : List (Event n Command)}
    (ran : Run (StepWithout Node.TakenBack) first events last) : first.TermsLe last := by
  refine ran.invariant (fun _ state => first.TermsLe state) ?_ [] fun _ => Int32.le_refl _
  intro _ state event next forward step id
  cases step with
  | act step without =>
    have moved := (termsLe_iff step).mpr without id
    exact Int32.le_trans (forward id) moved

/-- As long as no answer takes a node back to a term that it has left, terms never decrease,
and the next step of a node keeps them so exactly if no answer takes it back. -/
theorem terms_nondecreasing_iff {events : List (Event n Command)} {id : Fin n}
    {input : Input n Command} (ran : Run (StepWithout Node.TakenBack) first events cluster)
    (step : Step cluster (.act id input) reached) :
    first.TermsLe cluster ∧ (cluster.TermsLe reached ↔ ¬ (cluster.nodes id).TakenBack input) :=
  ⟨termsLe_of_run ran, termsLe_iff step⟩

end Executions

/-- A node asks for votes in term 1, another one answers from term 2, and the first goes on
to term 3. -/
def oldAnswer (id other : Fin n) : List (Event n Nat) :=
  [.act id .election, .act other .election, .act other .election,
    .act other (.receive (.voteRequest other ⟨1, id, 0, 0⟩)), .act id .election,
    .act id .election]

theorem old_answer_takes_term_back : ∃ cluster reached : Cluster 2 Nat,
    Execution (oldAnswer 0 1) cluster ∧
      Step cluster (.act 0 (.receive (.voteReply 1 ⟨1, 0, 0, 0⟩ ⟨2, false⟩))) reached ∧
      (cluster.nodes 0).currentTerm = 3 ∧ (reached.nodes 0).currentTerm = 2 := by
  obtain ⟨cluster, ran, checked⟩ := exists_run (.initial : Cluster 2 Nat) (oldAnswer 0 1)
    (fun cluster => (cluster.nodes 0).currentTerm = 3 &&
      (cluster.next (.act 0 (.receive (.voteReply 1 ⟨1, 0, 0, 0⟩ ⟨2, false⟩)))).any
        fun reached => (reached.nodes 0).currentTerm = 2) (by decide +kernel)
  obtain ⟨before, next⟩ := Bool.and_eq_true_iff.mp checked
  obtain ⟨reached, step, after⟩ := exists_step _ _ _ next
  exact ⟨cluster, reached, ran, step, of_decide_eq_true before, of_decide_eq_true after⟩

theorem terms_nondecreasing_first_election : ∃ reached : Cluster 2 Nat,
    Step .initial (.act 0 .election) reached ∧ Cluster.TermsLe .initial reached := by
  obtain ⟨reached, step, _⟩ := exists_step (.initial : Cluster 2 Nat) (.act 0 .election)
    (fun _ => true) (by decide +kernel)
  refine ⟨reached, step, (terms_nondecreasing_iff (.nil _) step).2.mpr ?_⟩
  rintro ⟨term, ⟨⟩, _⟩

end Bitdb.Raft
