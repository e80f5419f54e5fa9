import Bitdb.Raft.Node

/-! The commit and apply indices of a Raft node stay inside its log. -/

set_option autoImplicit false

namespace Bitdb.Raft

open Base List

variable {n : Nat} {Command : Type}

namespace Node

/-- The commit index never points behind the last entry, and what was applied are the
entries from the first one on. -/
structure InRange (node : Node n Command) : Prop where
  nonneg : 0 ≤ node.lastApplied
  le_commit : node.lastApplied ≤ node.commitIndex
  commit : node.commitIndex = 0 ∨ node.commitIndex < node.storage.log.length
  positions : node.applied.map (·.1) = (List.range node.lastApplied.toNat).map Int.ofNat

/-- What a step other than applying does to the log and the indices. -/
structure Commits (node reached : Node n Command) : Prop where
  grown : node.storage.log.length ≤ reached.storage.log.length
  commit : reached.commitIndex = node.commitIndex ∨ (node.commitIndex < reached.commitIndex ∧
      reached.commitIndex < reached.storage.log.length)
  lastApplied : reached.lastApplied = node.lastApplied
  applied : reached.applied = node.applied

theorem inRange_new (myId : Fin n) (storage : RaftStorage Command) : (new myId storage).InRange :=
  ⟨Int.le_refl 0, Int.le_refl 0, .inl rfl, rfl⟩

variable {node middle reached : Node n Command}

theorem Commits.commit_le (commits : node.Commits reached) :
    node.commitIndex ≤ reached.commitIndex := by
  rcases commits.commit with same | ⟨ahead, _⟩ <;> omega

theorem InRange.commits (inRange : node.InRange) (commits : node.Commits reached) :
    reached.InRange where
  nonneg := commits.lastApplied ▸ inRange.nonneg
  le_commit := by
    have before := inRange.le_commit
    have after := commits.commit_le
    rw [commits.lastApplied]
    omega
  commit := by
    have grown := commits.grown
    rcases commits.commit with same | ⟨_, inside⟩
    · rcases inRange.commit with zero | inside
      · exact .inl (same.trans zero)
      · exact .inr (by omega)
    · exact .inr inside
  positions := by rw [commits.applied, commits.lastApplied, inRange.positions]

theorem SameLog.commits (same : node.SameLog reached) : node.Commits reached :=
  ⟨by rw [same.log], .inl same.commitIndex, same.lastApplied, same.applied⟩

theorem Commits.trans (first : node.Commits middle) (second : middle.Commits reached) :
    node.Commits reached where
  grown := first.grown.trans second.grown
  commit := by
    have grown := second.grown
    rcases second.commit with same | ⟨ahead, inside⟩
    · rw [same]
      rcases first.commit with unchanged | ⟨ahead, inside⟩
      · exact .inl unchanged
      · exact .inr ⟨ahead, by omega⟩
    · exact .inr ⟨by have := first.commit_le; omega, inside⟩
  lastApplied := second.lastApplied.trans first.lastApplied
  applied := second.applied.trans first.applied

section Handlers

theorem matchingTerms_le (olds news : List (LogEntry Command)) :
    matchingTerms olds news ≤ olds.length := by
  induction olds generalizing news with
  | nil => simp [matchingTerms]
  | cons old olds ih =>
    cases news with
    | nil => simp [matchingTerms]
    | cons new news =>
      rw [matchingTerms, length_cons]
      split
      · have := ih news
        omega
      · omega

theorem length_storeEntries [Inhabited Command] {prevLogIndex : Int} (nonneg : 0 ≤ prevLogIndex)
    {entries : List (LogEntry Command)} (some_ : entries ≠ []) (node : Node n Command) :
    node.storage.log.length ≤ (node.storeEntries prevLogIndex entries).storage.log.length ∧
      2 ≤ (node.storeEntries prevLogIndex entries).storage.log.length := by
  have count := length_pos_iff.mpr some_
  have start : 1 ≤ (prevLogIndex + 1).toNat := by omega
  have inside := matchingTerms_le (node.storage.log.drop (prevLogIndex + 1).toNat) entries
  rw [length_drop] at inside
  rw [storeEntries]
  split
  · rw [RaftStorage.length_addLogAt, length_drop]
    omega
  · omega

theorem storeEntries_frame [Inhabited Command] (prevLogIndex : Int)
    (entries : List (LogEntry Command)) (node : Node n Command) : ∃ storage,
    node.storeEntries prevLogIndex entries = { node with storage } := by
  rw [storeEntries]
  split
  · exact ⟨_, rfl⟩
  · exact ⟨_, rfl⟩

theorem commits_stored [Inhabited Command] {prevLogIndex : Int} (nonneg : 0 ≤ prevLogIndex)
    {entries : List (LogEntry Command)} (some_ : entries ≠ []) (leaderCommit : Int)
    (inRange : node.InRange) :
    node.Commits ((node.storeEntries prevLogIndex entries).followCommit leaderCommit) := by
  obtain ⟨grown, size⟩ := length_storeEntries nonneg some_ node
  obtain ⟨storage, stored⟩ := storeEntries_frame prevLogIndex entries node
  rw [stored] at grown size ⊢
  rw [followCommit]
  split
  · rename_i ahead
    dsimp only at ahead grown size
    refine ⟨grown, ?_, rfl, rfl⟩
    dsimp only
    rcases inRange.commit with zero | inside <;> omega
  · exact ⟨grown, .inl rfl, rfl, rfl⟩

theorem advanceCommit_cases (term : Int32) (node : Node n Command) (nonneg : 0 ≤ node.commitIndex) :
    node.advanceCommit term = node.commitIndex ∨ (node.commitIndex < node.advanceCommit term ∧
        node.advanceCommit term < node.storage.log.length) := by
  refine List.foldlRecOn (motive := fun last => last = node.commitIndex ∨
    (node.commitIndex < last ∧ last < node.storage.log.length)) _ _ (.inl rfl) ?_
  intro last inside index member
  obtain ⟨first, below⟩ := mem_range'_1.mp member
  split
  · exact .inr ⟨by omega, by omega⟩
  · exact inside

theorem commits_receiveAppended (target : Fin n) (args : AppendEntriesArgs n Command)
    (reply : AppendEntriesReply) (inRange : node.InRange) :
    node.Commits (node.receiveAppended target args reply) := by
  rcases receiveAppended_cases target args reply node with
    ⟨_, follows⟩ | ⟨_, nextIndex, matchIndex, commitIndex, received, commit⟩
  · rw [follows]
    exact (sameLog_becomeFollower _ node).commits
  · rw [received]
    refine ⟨Nat.le_refl _, ?_, rfl, rfl⟩
    rcases commit with same | ⟨_, _, _, advanced⟩
    · exact .inl same
    · rw [advanced]
      exact advanceCommit_cases reply.term { node with nextIndex, matchIndex }
        (inRange.nonneg.trans inRange.le_commit)

theorem commits_appendEntries [Inhabited Command] {args : AppendEntriesArgs n Command}
    {reply : AppendEntriesReply} (nonneg : 0 ≤ args.prevLogIndex) (inRange : node.InRange)
    (ran : node.appendEntries args = some (reply, reached)) : node.Commits reached := by
  have down := (sameLog_obey args.term node).commits
  rcases appendEntries_cases ran with ⟨_, _, rfl⟩ | ⟨_, _, _, rfl⟩ | ⟨_, _, entries, _, _, rfl⟩
  · exact (SameLog.refl reached).commits
  · exact down
  · exact down.trans (commits_stored nonneg entries _ (inRange.commits down))

/-- The calls of `ApplyLog` for the entries at consecutive positions. -/
structure Calls (log : List (LogEntry Command)) (first count : Nat)
    (calls : List (Int × Command)) : Prop where
  positions : calls.map (·.1) = (List.range' first count).map Int.ofNat
  commands : ∀ call ∈ calls, 0 ≤ call.1 ∧ (log[call.1.toNat]?).map (·.cmd) = some call.2

def afterCalls (calls : List (Int × Command)) (node : Node n Command) : Node n Command :=
  { node with
    applied := node.applied ++ calls
    lastApplied := node.lastApplied + calls.length }

theorem afterCalls_append (first second : List (Int × Command)) (node : Node n Command) :
    (node.afterCalls first).afterCalls second = node.afterCalls (first ++ second) := by
  simp [afterCalls, add_assoc]

theorem applyNext_eq (nonneg : 0 ≤ node.lastApplied)
    (inside : node.lastApplied.toNat < node.storage.log.length) :
    ∃ entry, node.storage.log[node.lastApplied.toNat]? = some entry ∧
      node.applyNext = some (node.afterCalls [(node.lastApplied, entry.cmd)]) := by
  have found := List.getElem?_eq_getElem inside
  refine ⟨_, found, ?_⟩
  rw [applyNext, if_neg (by omega), found]
  rfl

theorem applyLoop_eq (rounds : Nat) (node : Node n Command) (nonneg : 0 ≤ node.lastApplied)
    (inside : node.lastApplied.toNat + rounds ≤ node.storage.log.length) :
    ∃ calls, Calls node.storage.log node.lastApplied.toNat rounds calls ∧
      node.applyLoop rounds = some (node.afterCalls calls) := by
  induction rounds generalizing node with
  | zero => exact ⟨[], ⟨rfl, by simp⟩, by simp [applyLoop, afterCalls]⟩
  | succ rounds ih =>
    obtain ⟨entry, found, next⟩ := applyNext_eq nonneg (by omega)
    have moved : (node.afterCalls [(node.lastApplied, entry.cmd)]).lastApplied =
      node.lastApplied + 1 := rfl
    obtain ⟨calls, ⟨positions, commands⟩, looped⟩ :=
      ih (node.afterCalls [(node.lastApplied, entry.cmd)]) (by omega) (by
        have log : (node.afterCalls [(node.lastApplied, entry.cmd)]).storage.log =
          node.storage.log := rfl
        rw [log, moved]
        omega)
    refine ⟨(node.lastApplied, entry.cmd) :: calls, ⟨?_, ?_⟩, ?_⟩
    · have shifted : (node.lastApplied + 1).toNat = node.lastApplied.toNat + 1 := by omega
      rw [map_cons, positions, moved, shifted, List.range'_succ, map_cons]
      simp [nonneg]
    · intro call member
      rcases mem_cons.mp member with rfl | later
      · exact ⟨nonneg, by rw [found]; rfl⟩
      · exact commands call later
    · rw [applyLoop, next, Option.bind_eq_bind, Option.bind_some, looped, afterCalls_append]
      rfl

theorem InRange.runBackgroundApply_eq (inRange : node.InRange) :
    ∃ calls, Calls node.storage.log node.lastApplied.toNat
        (node.commitIndex - node.lastApplied).toNat calls ∧
      node.runBackgroundApply = some (node.afterCalls calls) := by
  have nonneg := inRange.nonneg
  have le_commit := inRange.le_commit
  refine applyLoop_eq _ node nonneg ?_
  rcases inRange.commit with zero | inside <;> omega

theorem Calls.length {log : List (LogEntry Command)} {first count : Nat}
    {calls : List (Int × Command)} (made : Calls log first count calls) : calls.length = count := by
  have lengths := congrArg List.length made.positions
  simpa using lengths

theorem InRange.afterCalls {calls : List (Int × Command)} (inRange : node.InRange)
    (made : Calls node.storage.log node.lastApplied.toNat
      (node.commitIndex - node.lastApplied).toNat calls) : (node.afterCalls calls).InRange := by
  have nonneg := inRange.nonneg
  have le_commit := inRange.le_commit
  have length := made.length
  refine ⟨?_, ?_, inRange.commit, ?_⟩
  · simp only [Node.afterCalls]
    omega
  · simp only [Node.afterCalls]
    omega
  · have moved : (node.lastApplied + calls.length).toNat = node.lastApplied.toNat +
        (node.commitIndex - node.lastApplied).toNat := by omega
    simp only [Node.afterCalls]
    rw [moved, map_append, inRange.positions, made.positions, ← map_append,
      range_eq_range', range_eq_range', ← List.range'_append_1, Nat.zero_add]

end Handlers

/-- A step of one node on its own, with requests that anyone may have made up. -/
def Step [Inhabited Command] (node : Node n Command) (input : Input n Command)
    (reached : Node n Command) : Prop :=
  (∀ target args, input = .receive (.appendRequest target args) → 0 ≤ args.prevLogIndex) ∧
    ∃ sent, node.handle input = some (reached, sent)

theorem InRange.step_cases [Inhabited Command] {input : Input n Command} (inRange : node.InRange)
    (step : Step node input reached) :
    node.Commits reached ∨ ∃ calls, Calls node.storage.log node.lastApplied.toNat
      (node.commitIndex - node.lastApplied).toNat calls ∧ reached = node.afterCalls calls := by
  obtain ⟨nonneg, sent, handled⟩ := step
  have same : node.Commits node := (SameLog.refl node).commits
  cases handles_of_handle handled with
  | election notLeader ran =>
    obtain ⟨_, _, rfl⟩ := startElection_cases ran
    exact .inl (SameLog.commits ⟨rfl, rfl, rfl, rfl⟩)
  | replicate heartbeat targets round leader others made => exact .inl same
  | apply ran =>
    obtain ⟨calls, made, applied⟩ := inRange.runBackgroundApply_eq
    rw [applied] at ran
    cases ran
    exact .inr ⟨calls, made, rfl⟩
  | refuse cmd => exact .inl same
  | command cmd leader =>
    refine .inl ⟨?_, .inl rfl, rfl, rfl⟩
    simp [flush, RaftStorage.addLog]
  | stop => exact .inl (SameLog.commits ⟨rfl, rfl, rfl, rfl⟩)
  | voteRequest target args ran => exact .inl (sameLog_requestVote ran).commits
  | voteReply target args reply =>
    exact .inl (sameLog_receiveVote target args reply node).commits
  | appendRequest target args ran =>
    exact .inl (commits_appendEntries (nonneg target args rfl) inRange ran)
  | appendReply target args reply =>
    exact .inl (commits_receiveAppended target args reply inRange)

theorem InRange.step [Inhabited Command] {input : Input n Command} (inRange : node.InRange)
    (step : Step node input reached) : reached.InRange := by
  rcases inRange.step_cases step with commits | ⟨calls, made, rfl⟩
  · exact inRange.commits commits
  · exact inRange.afterCalls made

theorem inRange_of_run [Inhabited Command] {myId : Fin n} {storage : RaftStorage Command}
    {inputs : List (Input n Command)} (ran : Run Step (new myId storage) inputs node) :
    node.InRange :=
  ran.invariant (fun _ reached => reached.InRange)
    (fun _ _ _ _ inRange step => inRange.step step) [] (inRange_new myId storage)

end Node

end Bitdb.Raft
