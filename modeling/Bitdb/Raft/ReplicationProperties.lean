import Bitdb.Raft.LeaderProperties

/-! Round trips of `AppendEntries`: what a follower makes of its log, and a leader of the answers.
-/

set_option autoImplicit false

namespace Bitdb.Raft

open Base List Function

variable {n : Nat} {Command : Type}

section Conflict

/-- The scan passes entries of equal terms and stops at a position of the log against an
entry of another term. -/
structure StopsAt (log entries : List (LogEntry Command)) (start i j : Nat) : Prop where
  position : i = start + j
  passed : ∀ k < j, log[start + k]?.map (·.term) = entries[k]?.map (·.term)
  differ : ∃ old new, log[i]? = some old ∧ entries[j]? = some new ∧ old.term ≠ new.term

theorem matchingTerms_of_differ {olds news : List (LogEntry Command)} {j : Nat}
    {old new : LogEntry Command} (passed : ∀ k < j, olds[k]?.map (·.term) = news[k]?.map (·.term))
    (here : olds[j]? = some old) (there : news[j]? = some new) (differ : old.term ≠ new.term) :
    Node.matchingTerms olds news = j := by
  induction j generalizing olds news with
  | zero =>
    obtain ⟨olds, rfl⟩ : ∃ rest, olds = old :: rest := by
      cases olds with
      | nil => cases here
      | cons first rest =>
        cases here
        exact ⟨rest, rfl⟩
    cases news with
    | nil => cases there
    | cons first rest =>
      cases there
      rw [Node.matchingTerms, if_neg differ]
  | succ j ih =>
    cases olds with
    | nil => cases here
    | cons first olds =>
      cases news with
      | nil => cases there
      | cons second news =>
        have same : first.term = second.term := Option.some.inj (passed 0 (Nat.succ_pos j))
        rw [Node.matchingTerms, if_pos same,
          ih (fun k below => passed (k + 1) (Nat.succ_lt_succ below)) here there]

theorem StopsAt.matchingTerms_eq {log entries : List (LogEntry Command)} {start i j : Nat}
    (stops : StopsAt log entries start i j) : Node.matchingTerms (log.drop start) entries = j := by
  obtain ⟨old, new, here, there, differ⟩ := stops.differ
  rw [stops.position] at here
  refine matchingTerms_of_differ (fun k below => ?_) ?_ there differ
  · rw [List.getElem?_drop]
    exact stops.passed k below
  · rw [List.getElem?_drop]
    exact here

theorem RaftStorage.addLogAt_inside [Inhabited Command] (storage : RaftStorage Command)
    {index : Nat} (inside : index ≤ storage.log.length) (entries : List (LogEntry Command)) :
    (storage.addLogAt index entries).log =
      storage.log.take index ++ entries ++ storage.log.drop (index + entries.length) := by
  rw [addLogAt]
  dsimp only
  rw [take_append_of_le_length inside]
  congr 1
  rw [drop_append, append_right_eq_self]
  simp

theorem followCommit_storage (leaderCommit : Int) (node : Node n Command) :
    (node.followCommit leaderCommit).storage = node.storage := by
  rw [Node.followCommit]
  split
  · rfl
  · rfl

theorem StopsAt.log_storeEntries [Inhabited Command] {node : Node n Command} {prevLogIndex : Int}
    {entries : List (LogEntry Command)} {i j : Nat}
    (stops : StopsAt node.storage.log entries (prevLogIndex + 1).toNat i j) :
    (node.storeEntries prevLogIndex entries).storage.log =
      node.storage.log.take i ++ entries.drop j ++
        node.storage.log.drop (i + (entries.length - j)) := by
  obtain ⟨old, new, here, there, _⟩ := stops.differ
  have inside := (List.getElem?_eq_some_iff.mp here).1
  have left := (List.getElem?_eq_some_iff.mp there).1
  rw [Node.storeEntries, stops.matchingTerms_eq, if_pos left, ← stops.position]
  dsimp only
  rw [RaftStorage.addLogAt_inside _ (Nat.le_of_lt inside), length_drop]

/-- Entries that differ from those in the log replace them, but what the log has behind the
new entries stays. The stale tail is gone exactly if it is not longer than they are. -/
theorem stale_tail_discarded_iff [Inhabited Command] {node reached : Node n Command}
    {args : AppendEntriesArgs n Command} {reply : AppendEntriesReply} {i j : Nat}
    (ran : node.appendEntries args = some (reply, reached)) (accepted : reply.success = true)
    (stops : StopsAt node.storage.log args.entries (args.prevLogIndex + 1).toNat i j) :
    reached.storage.log = node.storage.log.take i ++ args.entries.drop j ↔
      node.storage.log.length ≤ i + (args.entries.length - j) := by
  rcases Node.appendEntries_cases ran with
    ⟨_, rfl, _⟩ | ⟨_, _, refused, _⟩ | ⟨_, _, _, _, _, rfl⟩
  · cases accepted
  · rw [refused] at accepted
    cases accepted
  · rw [followCommit_storage]
    rw [← (Node.sameLog_obey args.term node).log] at stops ⊢
    rw [stops.log_storeEntries, append_right_eq_self, drop_eq_nil_iff]

/-- The last entry of the old log is behind the only new one. -/
theorem stale_tail_survives : ∃ reached : Node 2 Nat,
    (Node.new 1 ⟨1, -1, [⟨1, 1⟩, ⟨2, 1⟩, ⟨3, 1⟩]⟩).appendEntries ⟨2, 0, 0, 0, [⟨4, 2⟩], 0⟩ =
        some (⟨2, true⟩, reached) ∧
      StopsAt [⟨1, 1⟩, ⟨2, 1⟩, ⟨3, 1⟩] [⟨4, 2⟩] 1 1 0 ∧
      reached.storage.log = [⟨1, 1⟩, ⟨4, 2⟩, ⟨3, 1⟩] :=
  ⟨_, rfl, ⟨rfl, by simp, _, _, rfl, rfl, by decide⟩, rfl⟩

theorem stale_tail_discarded_one : ∃ reached : Node 2 Nat,
    (Node.new 1 ⟨1, -1, [⟨1, 1⟩, ⟨2, 1⟩]⟩).appendEntries ⟨2, 0, 0, 0, [⟨4, 2⟩], 0⟩ =
        some (⟨2, true⟩, reached) ∧ reached.storage.log = [⟨1, 1⟩, ⟨4, 2⟩] := by
  obtain ⟨reached, ran⟩ : ∃ reached : Node 2 Nat,
      (Node.new 1 ⟨1, -1, [⟨1, 1⟩, ⟨2, 1⟩]⟩).appendEntries ⟨2, 0, 0, 0, [⟨4, 2⟩], 0⟩ =
        some (⟨2, true⟩, reached) := ⟨_, rfl⟩
  have stops : StopsAt [⟨1, 1⟩, ⟨2, 1⟩] [⟨4, 2⟩] 1 1 0 :=
    ⟨rfl, by simp, ⟨2, 1⟩, ⟨4, 2⟩, rfl, rfl, by decide⟩
  exact ⟨reached, ran, (stale_tail_discarded_iff ran rfl stops).mpr (by decide)⟩

end Conflict

section Leadership

/-- The time that a node is leader, with the requests it has sent and those of them that
were answered with success. -/
structure Leadership (n : Nat) (Command : Type) where
  node : Node n Command
  requests : List (Fin n × AppendEntriesArgs n Command)
  successes : List (Fin n × AppendEntriesArgs n Command)

def Message.request? : Message n Command → Option (Fin n × AppendEntriesArgs n Command)
  | .appendRequest target args => some (target, args)
  | _ => none

/-- The request that an answer of its own term says to have succeeded. -/
def Input.success? : Input n Command → Option (Fin n × AppendEntriesArgs n Command)
  | .receive (.appendReply target args reply) =>
    if reply.term = args.term ∧ reply.success then some (target, args) else none
  | _ => none

namespace Leadership

def start (node : Node n Command) : Leadership n Command := ⟨node.becomeLeader, [], []⟩

/-- The leader takes a step, with answers that come in any order, late or several times, and
stays the leader. -/
inductive Step [Inhabited Command] : Leadership n Command → Input n Command →
    Leadership n Command → Prop where
  | mk {leadership : Leadership n Command} {input : Input n Command} {reached : Node n Command}
      {sent : List (Message n Command)}
      (handled : leadership.node.handle input = some (reached, sent))
      (leads : reached.role = .leader) :
      Step leadership input ⟨reached, leadership.requests ++ sent.filterMap Message.request?,
        leadership.successes ++ input.success?.toList⟩

/-- An answer of success finds the target where the request has started, or before it, and
the request was sent by this leader in this term of office. A failure finds the target behind
the first position. -/
def Orderly (leadership : Leadership n Command) : Input n Command → Prop
  | .receive (.appendReply target args reply) => reply.term = args.term →
      if reply.success then (target, args) ∈ leadership.requests ∧
        leadership.node.nextIndex target ≤ args.prevLogIndex + 1
      else 2 ≤ leadership.node.nextIndex target
  | _ => True

def OrderlyStep [Inhabited Command] (leadership : Leadership n Command) (input : Input n Command)
    (reached : Leadership n Command) : Prop :=
  Step leadership input reached ∧ leadership.Orderly input

end Leadership

/-- Everything that a step may do to the log and the indices of a node that stays the
leader. -/
inductive Node.LeaderEffect (node : Node n Command) : Input n Command → Node n Command → Prop where
  | keep {input : Input n Command} {reached : Node n Command}
      (nextIndex : reached.nextIndex = node.nextIndex)
      (matchIndex : reached.matchIndex = node.matchIndex)
      (log : node.storage.log <+: reached.storage.log) (noSuccess : input.success? = none) :
      LeaderEffect node input reached
  | success {target : Fin n} {args : AppendEntriesArgs n Command} {reply : AppendEntriesReply}
      (current : reply.term = args.term) (success : reply.success = true) (commitIndex : Int) :
      LeaderEffect node (.receive (.appendReply target args reply))
        { node.acknowledged target args.entries.length with commitIndex }
  | failure {target : Fin n} {args : AppendEntriesArgs n Command} {reply : AppendEntriesReply}
      (current : reply.term = args.term) (failure : reply.success = false) :
      LeaderEffect node (.receive (.appendReply target args reply))
        { node with
          nextIndex := update node.nextIndex target (node.nextIndex target - 1) }

namespace Node

variable {node reached : Node n Command}

theorem obey_role (term : Int32) (node : Node n Command) :
    ((node.catchUp term).stepDown term).role = .follower := by
  rcases stepDown_cases term (node.catchUp term) with ⟨same, follower⟩ | ⟨followed, _⟩
  · rw [same]
    exact follower
  · rw [followed]
    rfl

theorem leaderEffect_receiveAppended {target : Fin n} {args : AppendEntriesArgs n Command}
    {reply : AppendEntriesReply} (leader : node.role = .leader)
    (leads : (node.receiveAppended target args reply).role = .leader) :
    node.LeaderEffect (.receive (.appendReply target args reply))
      (node.receiveAppended target args reply) := by
  rw [receiveAppended] at leads ⊢
  split at leads
  · cases leads
  · rename_i behind
    rw [if_neg behind]
    by_cases current : reply.term = args.term
    · rw [if_pos ⟨leader, current⟩]
      cases success : reply.success with
      | true => exact .success current success _
      | false => exact .failure current success
    · rw [if_neg fun acts => current acts.2]
      exact .keep rfl rfl prefix_rfl (if_neg fun acts => current acts.1)

theorem leaderEffect_of_handle [Inhabited Command] {input : Input n Command}
    {sent : List (Message n Command)} (handled : node.handle input = some (reached, sent))
    (leader : node.role = .leader) (leads : reached.role = .leader) :
    node.LeaderEffect input reached := by
  have same (noSuccess : input.success? = none) (equal : reached = node) :
      node.LeaderEffect input reached := by
    rw [equal]
    exact .keep rfl rfl prefix_rfl noSuccess
  cases handles_of_handle handled with
  | election notLeader ran => exact absurd leader notLeader
  | replicate heartbeat targets round leader others made =>
    rcases round with rfl | rfl
    · exact same rfl rfl
    · exact same rfl rfl
  | apply ran =>
    obtain ⟨applied, lastApplied, rfl⟩ := applyLoop_frame ran
    exact .keep rfl rfl prefix_rfl rfl
  | refuse cmd => exact same rfl rfl
  | command cmd leader => exact .keep rfl rfl (prefix_append _ _) rfl
  | stop => exact .keep rfl rfl prefix_rfl rfl
  | voteRequest target args ran =>
    have caughtUp : node.catchUp args.term = node ∨ (node.catchUp args.term).role = .follower := by
      rcases catchUp_cases args.term node with ⟨unmoved, _⟩ | ⟨followed, _⟩
      · exact .inl unmoved
      · exact .inr (by rw [followed]; rfl)
    rcases requestVote_cases ran with ⟨_, rfl | rfl⟩ | ⟨_, _, _, rfl⟩
    · exact same rfl rfl
    · rcases caughtUp with unmoved | follower
      · exact same rfl unmoved
      · rw [follower] at leads
        cases leads
    · rcases caughtUp with unmoved | follower
      · rw [unmoved]
        exact .keep rfl rfl prefix_rfl rfl
      · rw [follower] at leads
        cases leads
  | voteReply target args reply =>
    refine same rfl ?_
    rw [receiveVote, if_pos (by rw [leader]; decide)]
  | appendRequest target args ran =>
    rcases appendEntries_cases ran with ⟨_, _, rfl⟩ | ⟨_, _, _, rfl⟩ | ⟨_, _, _, _, _, rfl⟩
    · exact same rfl rfl
    · rw [obey_role] at leads
      cases leads
    · change (Node.ballot _).role = .leader at leads
      rw [ballot_stored] at leads
      cases (obey_role _ _).symm.trans leads
  | appendReply target args reply => exact leaderEffect_receiveAppended leader leads

end Node

/-- The request has the entries that the log has at its position, so success means that the
target has the leading entries of the log up to the end of it. -/
def AppendEntriesArgs.Covers (args : AppendEntriesArgs n Command)
    (log : List (LogEntry Command)) : Prop :=
  0 ≤ args.prevLogIndex ∧ args.prevLogIndex + args.entries.length ≤ log.length ∧
    args.entries = (log.drop args.prevLogIndex.toNat).take args.entries.length

namespace Leadership

variable {leadership : Leadership n Command} {node : Node n Command}

variable {args : AppendEntriesArgs n Command}

theorem covers_of_prefix {log longer : List (LogEntry Command)} (covers : args.Covers log)
    (grown : log <+: longer) : args.Covers longer := by
  obtain ⟨nonneg, inside, same⟩ := covers
  obtain ⟨rest, rfl⟩ := grown
  refine ⟨nonneg, by rw [length_append]; omega, ?_⟩
  rw [drop_append_of_le_length (by omega), take_append_of_le_length (by rw [length_drop]; omega)]
  exact same

theorem covers_entriesFor {heartbeat : Bool} {target : Fin n}
    (upper : node.nextIndex target ≤ node.storage.log.length + 1)
    (made : node.entriesFor heartbeat target = some args) : args.Covers node.storage.log := by
  obtain ⟨nonneg, start, entries⟩ := Node.entriesFor_eq made
  cases heartbeat with
  | true =>
    have empty : args.entries = [] := entries
    refine ⟨nonneg, by rw [empty, length_nil]; omega, ?_⟩
    rw [empty]
    rfl
  | false =>
    have rest : args.entries = node.storage.log.drop args.prevLogIndex.toNat := entries
    refine ⟨nonneg, by rw [rest, length_drop]; omega, ?_⟩
    rw [rest, take_length]

/-- What the leader knows about the others is what its successful requests have covered. -/
structure Sound (leadership : Leadership n Command) : Prop where
  leader : leadership.node.role = .leader
  requests : ∀ request ∈ leadership.requests, request.2.Covers leadership.node.storage.log
  successes : ∀ request ∈ leadership.successes, request.2.Covers leadership.node.storage.log
  next : ∀ peer, 1 ≤ leadership.node.nextIndex peer ∧
    leadership.node.nextIndex peer ≤ leadership.node.storage.log.length + 1
  matched : ∀ peer, leadership.node.matchIndex peer ≤ 0 ∨
    ∃ args, (peer, args) ∈ leadership.successes ∧
      leadership.node.matchIndex peer ≤ args.prevLogIndex + args.entries.length

theorem sound_start (node : Node n Command) : (start node).Sound where
  leader := rfl
  requests := by simp [start]
  successes := by simp [start]
  next peer := by
    change 1 ≤ node.getLastLogIndex + 1 ∧ node.getLastLogIndex + 1 ≤ node.storage.log.length + 1
    rw [Node.getLastLogIndex]
    omega
  matched _ := .inl (Int.le_refl 0)

variable {input : Input n Command} {requests : List (Fin n × AppendEntriesArgs n Command)}

theorem log_prefix_of_effect {reached : Node n Command} (effect : node.LeaderEffect input reached) :
    node.storage.log <+: reached.storage.log := by
  cases effect with
  | keep nextIndex matchIndex log noSuccess => exact log
  | success | failure => exact prefix_rfl

section

variable (sound : leadership.Sound)

include sound

theorem Sound.covers_sent [Inhabited Command] {reached : Node n Command}
    {sent : List (Message n Command)}
    (handled : leadership.node.handle input = some (reached, sent)) :
    ∀ request ∈ sent.filterMap Message.request?, request.2.Covers reached.storage.log := by
  intro request member
  obtain ⟨message, inside, same⟩ := mem_filterMap.mp member
  cases message with
  | appendRequest target args =>
    cases same
    obtain ⟨rfl, heartbeat, made⟩ := Node.handle_requests handled inside
    exact covers_entriesFor (sound.next target).2 made
  | voteRequest | voteReply | appendReply => cases same

theorem Sound.success {target : Fin n} (member : (target, args) ∈ leadership.requests)
    (start : leadership.node.nextIndex target ≤ args.prevLogIndex + 1) (commitIndex : Int)
    (covered : ∀ request ∈ requests, request.2.Covers leadership.node.storage.log) :
    Sound ⟨{ leadership.node.acknowledged target args.entries.length with commitIndex }, requests,
      leadership.successes ++ [(target, args)]⟩ := by
  have covers : args.Covers leadership.node.storage.log := sound.requests _ member
  refine ⟨sound.leader, covered, fun request inside => ?_, fun peer => ?_, fun peer => ?_⟩
  · rcases mem_append.mp inside with old | new
    · exact sound.successes request old
    · cases mem_singleton.mp new
      exact covers
  · have next := sound.next peer
    have inside := covers.2.1
    by_cases same : peer = target
    · subst same
      simp only [Node.acknowledged, update_self]
      omega
    · simp only [Node.acknowledged, update_of_ne same]
      exact next
  · by_cases same : peer = target
    · subst same
      refine .inr ⟨args, mem_append_right _ (mem_singleton_self _), ?_⟩
      simp only [Node.acknowledged, update_self]
      omega
    · simp only [Node.acknowledged, update_of_ne same]
      rcases sound.matched peer with nothing | ⟨other, inside, bound⟩
      · exact .inl nothing
      · exact .inr ⟨other, mem_append_left _ inside, bound⟩

theorem Sound.failure {target : Fin n} (behind : 2 ≤ leadership.node.nextIndex target)
    (covered : ∀ request ∈ requests, request.2.Covers leadership.node.storage.log) :
    Sound ⟨{ leadership.node with
      nextIndex := update leadership.node.nextIndex target
        (leadership.node.nextIndex target - 1) }, requests, leadership.successes⟩ := by
  refine ⟨sound.leader, covered, sound.successes, fun peer => ?_, sound.matched⟩
  have next := sound.next peer
  by_cases same : peer = target
  · subst same
    simp only [update_self]
    omega
  · simp only [update_of_ne same]
    exact next

theorem Sound.step [Inhabited Command] {reached : Leadership n Command}
    (step : OrderlyStep leadership input reached) : reached.Sound := by
  obtain ⟨step, orderly⟩ := step
  cases step with
  | @mk after sent handled leads =>
    have effect := Node.leaderEffect_of_handle handled sound.leader leads
    have grown := log_prefix_of_effect effect
    have requests : ∀ request ∈ leadership.requests ++ sent.filterMap Message.request?,
        request.2.Covers after.storage.log := by
      intro request member
      rcases mem_append.mp member with old | new
      · exact covers_of_prefix (sound.requests request old) grown
      · exact sound.covers_sent handled request new
    cases effect with
    | keep nextIndex matchIndex log noSuccess =>
      rw [noSuccess, Option.toList_none, append_nil]
      refine ⟨leads, requests, fun request member => ?_, fun peer => ?_, ?_⟩
      · exact covers_of_prefix (sound.successes request member) grown
      · have longer := log.length_le
        have next := sound.next peer
        dsimp only
        rw [nextIndex]
        omega
      · dsimp only
        rw [matchIndex]
        exact sound.matched
    | @success target args reply current success commitIndex =>
      have counted : Input.success? (.receive (.appendReply target args reply)) =
          some (target, args) := if_pos ⟨current, success⟩
      have answer := orderly current
      rw [if_pos success] at answer
      rw [counted]
      exact sound.success answer.1 answer.2 commitIndex requests
    | @failure target args reply current failure =>
      have refused : ¬ reply.success = true := by simp [failure]
      have counted : Input.success? (.receive (.appendReply target args reply)) = none :=
        if_neg fun acts => refused acts.2
      have answer := orderly current
      rw [if_neg refused] at answer
      rw [counted, Option.toList_none, append_nil]
      exact sound.failure answer requests

end

theorem sound_of_run [Inhabited Command] {inputs : List (Input n Command)}
    (ran : Run OrderlyStep (start node) inputs leadership) : leadership.Sound :=
  ran.invariant (fun _ state => state.Sound) (fun _ _ _ _ sound step => sound.step step) []
    (sound_start node)

/-- From the moment a node becomes the leader, as long as answers are orderly, it sends every
node entries from inside its log or right behind it, and knows of no more entries there than a
successful request has covered. -/
theorem leader_bookkeeping [Inhabited Command] {inputs : List (Input n Command)}
    (ran : Run OrderlyStep (start node) inputs leadership) (peer : Fin n) :
    1 ≤ leadership.node.nextIndex peer ∧
      leadership.node.nextIndex peer ≤ leadership.node.storage.log.length + 1 ∧
      (leadership.node.matchIndex peer ≤ 0 ∨ ∃ args, (peer, args) ∈ leadership.successes ∧
        args.Covers leadership.node.storage.log ∧
        leadership.node.matchIndex peer ≤ args.prevLogIndex + args.entries.length) := by
  have sound := sound_of_run ran
  refine ⟨(sound.next peer).1, (sound.next peer).2, ?_⟩
  rcases sound.matched peer with nothing | ⟨args, member, covered⟩
  · exact .inl nothing
  · exact .inr ⟨args, member, sound.successes _ member, covered⟩

theorem leader_bookkeeping_one_success : ∃ leadership : Leadership 2 Nat,
    Run OrderlyStep (start (.new 0 .initial)) [.command 5, .commit,
        .receive (.appendReply 1 ⟨0, 0, 0, 0, [⟨5, 0⟩], 0⟩ ⟨0, true⟩)] leadership ∧
      leadership.node.matchIndex 1 = 1 ∧ 1 ≤ leadership.node.nextIndex 1 ∧
      leadership.node.nextIndex 1 ≤ leadership.node.storage.log.length + 1 := by
  have ran : Run OrderlyStep (start (.new (0 : Fin 2) .initial)) [.command 5, .commit,
      .receive (.appendReply 1 ⟨0, 0, 0, 0, [⟨5, 0⟩], 0⟩ ⟨0, true⟩)] _ :=
    .cons ⟨.mk rfl rfl, trivial⟩ (.cons ⟨.mk rfl rfl, trivial⟩
      (.cons ⟨.mk rfl rfl, fun _ => ⟨by decide, by decide⟩⟩ (.nil _)))
  have kept := leader_bookkeeping ran 1
  exact ⟨_, ran, rfl, kept.1, kept.2.1⟩

end Leadership

theorem Node.becomes_leader [Inhabited Command] {node reached : Node n Command}
    {input : Input n Command} {sent : List (Message n Command)}
    (handled : node.handle input = some (reached, sent)) (other : node.role ≠ .leader)
    (leads : reached.role = .leader) : ∃ candidate : Node n Command,
      reached = candidate.becomeLeader := by
  have moved : reached.ballot.role = .leader := leads
  generalize same : reached.ballot = ballot at moved
  have moves := handle_moves handled
  rw [same] at moves
  cases moves with
  | keep noTerm quiet => exact absurd moved other
  | lead noTerm leader requests => exact absurd leader other
  | stand | refuse => cases moved
  | grant ballot caughtUp current free =>
    rcases caughtUp with rfl | ⟨_, rfl⟩
    · exact absurd moved other
    · cases moved
  | obey | answered => cases moved
  | @count target args reply candidate behind followers role counted won =>
    cases handled
    rcases receiveVote_cases target args reply node with ⟨role, _⟩ | ⟨_, ahead, _⟩ |
      ⟨_, _, followers, _, answered⟩
    · exact absurd candidate role
    · exact absurd ahead behind
    · rw [answered] at leads ⊢
      split at leads
      · rename_i enough
        rw [if_pos enough]
        exact ⟨_, rfl⟩
      · rw [candidate] at leads
        cases leads

theorem Step.of_leads [Inhabited Command] {cluster reached : Cluster n Command}
    {event : Event n Command} (step : Step cluster event reached) {id : Fin n}
    (leads : (reached.nodes id).role = .leader) :
    reached.nodes id = cluster.nodes id ∨
      ∃ input sent, (cluster.nodes id).handle input = some (reached.nodes id, sent) := by
  cases step with
  | @act other input after sent delivered handled =>
    by_cases same : id = other
    · subst same
      rw [Cluster.after_nodes, update_self]
      exact .inr ⟨input, sent, handled⟩
    · exact .inl (update_of_ne same _ _)
  | restart other =>
    dsimp only at leads
    by_cases same : id = other
    · subst same
      rw [update_self] at leads
      cases leads
    · exact .inl (update_of_ne same _ _)

theorem Node.term_of_leading [Inhabited Command] {node reached : Node n Command}
    {input : Input n Command} {sent : List (Message n Command)}
    (handled : node.handle input = some (reached, sent)) (leader : node.role = .leader)
    (leads : reached.role = .leader) : reached.currentTerm = node.currentTerm := by
  have moved : reached.ballot.role = .leader := leads
  have moves := handle_moves handled
  change reached.ballot.currentTerm = node.currentTerm
  generalize reached.ballot = ballot at moved moves
  cases moves with
  | keep | lead => rfl
  | stand notLeader => exact absurd leader notLeader
  | grant ballot caughtUp =>
    rcases caughtUp with rfl | ⟨_, rfl⟩
    · rfl
    · cases moved
  | refuse | obey | answered => cases moved
  | count candidate =>
    rw [leader] at candidate
    cases candidate

/-- A step of the cluster in which a node is the leader all along. -/
def StepLed [Inhabited Command] (id : Fin n) (cluster : Cluster n Command)
    (event : Event n Command) (reached : Cluster n Command) : Prop :=
  Step cluster event reached ∧ (cluster.nodes id).role = .leader ∧ (reached.nodes id).role = .leader

/-- As long as a node is the leader it stays in its term and only puts entries behind its log,
whatever the others do and whatever is delivered. -/
theorem leader_append_only [Inhabited Command] {id : Fin n} {events : List (Event n Command)}
    {first last : Cluster n Command} (ran : Run (StepLed id) first events last) :
    (first.nodes id).storage.log <+: (last.nodes id).storage.log ∧
      (last.nodes id).currentTerm = (first.nodes id).currentTerm := by
  refine ran.invariant (fun _ cluster => (first.nodes id).storage.log <+:
    (cluster.nodes id).storage.log ∧
      (cluster.nodes id).currentTerm = (first.nodes id).currentTerm) ?_ [] ⟨prefix_rfl, rfl⟩
  rintro _ cluster event reached ⟨grown, term⟩ ⟨step, leader, leads⟩
  rcases step.of_leads leads with same | ⟨input, sent, handled⟩
  · rw [same]
    exact ⟨grown, term⟩
  · exact ⟨grown.trans (Leadership.log_prefix_of_effect
      (Node.leaderEffect_of_handle handled leader leads)),
      (Node.term_of_leading handled leader leads).trans term⟩

theorem leader_append_only_command : ∃ last : Cluster 1 Nat,
    (last.nodes 0).storage.log = [⟨5, 0⟩] ∧ [] <+: (last.nodes 0).storage.log ∧
      (last.nodes 0).currentTerm = 0 := by
  have ran : Run (StepLed 0) (⟨fun _ => (Node.new 0 .initial).becomeLeader, []⟩ : Cluster 1 Nat)
      [.act 0 (.command 5)] _ :=
    .cons ⟨.act (by rintro _ ⟨⟩) rfl, rfl, rfl⟩ (.nil _)
  have kept := leader_append_only ran
  exact ⟨_, rfl, kept.1, kept.2⟩

/-- The same entry is sent twice before the first answer comes. -/
def answeredTwice (leader other : Fin n) : List (Event n Nat) :=
  commanded leader other ++ [.act leader .commit, .act leader .commit,
    .act other (.receive (.appendRequest other ⟨1, leader, 0, 0, [⟨5, 1⟩], 0⟩)),
    .act other (.receive (.appendRequest other ⟨1, leader, 0, 0, [⟨5, 1⟩], 0⟩)),
    .act leader (.receive (.appendReply other ⟨1, leader, 0, 0, [⟨5, 1⟩], 0⟩ ⟨1, true⟩)),
    .act leader (.receive (.appendReply other ⟨1, leader, 0, 0, [⟨5, 1⟩], 0⟩ ⟨1, true⟩))]

/-- The leader has one entry and takes the other node for having two. -/
theorem answered_twice_counts_twice : ∃ cluster : Cluster 2 Nat,
    Execution (answeredTwice 0 1) cluster ∧ (cluster.nodes 0).role = .leader ∧
      (cluster.nodes 0).storage.log = [⟨5, 1⟩] ∧ (cluster.nodes 0).nextIndex 1 = 3 ∧
      (cluster.nodes 0).matchIndex 1 = 2 := by
  obtain ⟨cluster, ran, checked⟩ := exists_run (.initial : Cluster 2 Nat) (answeredTwice 0 1)
    (fun cluster => decide ((cluster.nodes 0).role = .leader ∧
      (cluster.nodes 0).storage.log = [⟨5, 1⟩] ∧ (cluster.nodes 0).nextIndex 1 = 3 ∧
      (cluster.nodes 0).matchIndex 1 = 2)) (by decide +kernel)
  exact ⟨cluster, ran, of_decide_eq_true checked⟩

end Leadership

end Bitdb.Raft
