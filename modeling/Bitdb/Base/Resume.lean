import Bitdb.Base.Journal

/-! Replaying the end of a journal again, over the map that the whole journal has led to. -/

set_option autoImplicit false

namespace Bitdb.Base.Journal

open List Function Journal.Action

variable {κ π : Type}

def Action.key : Action κ π → κ
  | .put key _ => key
  | .delete key => key

theorem survivors_apart {front back : List (Entry κ π)}
    (apart : ∀ entry ∈ front, ∀ txn, entry.txn = some txn → Fresh txn back) :
    survivors (front ++ back) = survivors front ++ survivors back := by
  rw [survivors_append fun entry member txn owned => (apart entry member txn owned).finished]
  congr 1
  refine filterMap_congr fun entry member => ?_
  cases entry with
  | immediate action => rfl
  | queued txn action =>
    have before : finished front txn = false := by
      refine Fresh.finished fun other inside owned => ?_
      exact apart other inside txn owned _ member rfl
    rw [Entry.survivor, Entry.survivor, finished_append, before, Bool.false_or]
  | finish txn => rfl

section Suffix

variable {front back entries : List (Entry κ π)}

/-- The end of a journal is a journal in blocks: at most its first transaction has lost its
beginning. -/
theorem Blocks.of_append (blocks : Blocks entries) (split : front ++ back = entries) :
    Blocks back := by
  induction blocks generalizing back with
  | nil =>
    rw [(append_eq_nil_iff.mp split).2]
    exact .nil
  | @immediate entries before action ih =>
    rcases append_eq_append_iff.mp split with ⟨rest, inside, rfl⟩ | ⟨cut, _, block⟩
    · exact (ih inside.symm).immediate action
    · rcases append_eq_singleton_iff.mp block.symm with ⟨_, rfl⟩ | ⟨_, rfl⟩
      · exact Blocks.nil.immediate action
      · exact .nil
  | @committed entries txn before fresh actions ih =>
    rcases append_eq_append_iff.mp split with ⟨rest, inside, rfl⟩ | ⟨cut, _, block⟩
    · refine (ih inside.symm).committed (fun entry member => fresh entry ?_) actions
      rw [inside]
      exact mem_append_right _ member
    · rcases append_eq_append_iff.mp block.symm with ⟨second, queued, rfl⟩ | ⟨_, _, last⟩
      · obtain ⟨_, later, _, _, rfl⟩ := map_eq_append_iff.mp queued
        exact Blocks.nil.committed (fun _ impossible => by cases impossible) later
      · rcases append_eq_singleton_iff.mp last.symm with ⟨_, rfl⟩ | ⟨_, rfl⟩
        · exact Blocks.nil.committed (fun _ impossible => by cases impossible) []
        · exact .nil
  | @abandoned entries txn before fresh actions ih =>
    rcases append_eq_append_iff.mp split with ⟨rest, inside, rfl⟩ | ⟨cut, _, block⟩
    · refine (ih inside.symm).abandoned (fun entry member => fresh entry ?_) actions
      rw [inside]
      exact mem_append_right _ member
    · obtain ⟨_, later, _, _, rfl⟩ := map_eq_append_iff.mp block
      exact Blocks.nil.abandoned (fun _ impossible => by cases impossible) later

theorem Blocks.ends (blocks : Blocks entries) :
    entries.Pairwise fun earlier later => ∀ txn, earlier = .finish txn → later.txn ≠ some txn := by
  induction blocks with
  | nil => exact .nil
  | @immediate entries before action ih =>
    refine pairwise_append.mpr ⟨ih, pairwise_singleton _ _, ?_⟩
    intro earlier _ later last txn _ owned
    rw [mem_singleton.mp last] at owned
    cases owned
  | @committed entries txn before fresh actions ih =>
    refine pairwise_append.mpr ⟨ih, pairwise_append.mpr ⟨?_, pairwise_singleton _ _, ?_⟩, ?_⟩
    · refine pairwise_map.mpr (pairwise_of_forall fun _ _ txn finish => ?_)
      cases finish
    · intro earlier queued later _ txn finish
      obtain ⟨action, _, rfl⟩ := mem_map.mp queued
      cases finish
    · intro earlier inside later block other finish owned
      have same : other = txn := by
        rcases mem_append.mp block with queued | last
        · obtain ⟨action, _, rfl⟩ := mem_map.mp queued
          exact (Option.some.inj owned).symm
        · rw [mem_singleton.mp last] at owned
          exact (Option.some.inj owned).symm
      exact fresh earlier inside (by rw [finish, same]; rfl)
  | @abandoned entries txn before fresh actions ih =>
    refine pairwise_append.mpr ⟨ih, ?_, ?_⟩
    · refine pairwise_map.mpr (pairwise_of_forall fun _ _ txn finish => ?_)
      cases finish
    · intro earlier inside later block other finish owned
      obtain ⟨action, _, rfl⟩ := mem_map.mp block
      obtain rfl := Option.some.inj owned
      exact fresh earlier inside (by rw [finish]; rfl)

theorem Blocks.survivors_split (blocks : Blocks (front ++ back)) :
    survivors (front ++ back) =
      front.filterMap (Entry.survivor (finished (front ++ back))) ++ survivors back := by
  rw [survivors, filterMap_append]
  congr 1
  refine filterMap_congr fun entry member => ?_
  cases entry with
  | immediate action => rfl
  | queued txn action =>
    have before : finished front txn = false := by
      rw [finished, any_eq_false]
      intro earlier inside ended
      cases earlier with
      | immediate | queued => cases ended
      | finish other =>
        exact (pairwise_append.mp blocks.ends).2.2 _ inside _ member txn
          (congrArg Entry.finish (of_decide_eq_true ended)) rfl
    rw [Entry.survivor, Entry.survivor, finished_append, before, Bool.false_or]
  | finish txn => rfl

end Suffix

variable [DecidableEq κ]

section Replay

variable {state : State κ π} {front back entries : List (Entry κ π)}

/-- Nothing is queued yet in the transactions of these entries. -/
def State.Clear (state : State κ π) (entries : List (Entry κ π)) : Prop :=
  ∀ entry ∈ entries, ∀ txn, entry.txn = some txn → state.pending txn = []

theorem applyAll_append (live : κ → Option π) (first second : List (Action κ π)) :
    applyAll live (first ++ second) =
      (applyAll live first).bind fun reached => applyAll reached second := by
  induction first generalizing live with
  | nil => rfl
  | cons action first ih =>
    rw [cons_append, applyAll, applyAll]
    cases applied : action.apply live with
    | none => rfl
    | some next => exact ih next

theorem Blocks.replay_clear (blocks : Blocks entries) (clear : state.Clear entries) :
    (replay state entries).map State.live = applyAll state.live (survivors entries) := by
  induction blocks with
  | nil => rfl
  | @immediate entries before action ih =>
    have first := ih fun entry member => clear entry (mem_append_left _ member)
    rw [survivors_immediate, applyAll_append, ← first, replay_append]
    cases replay state entries with
    | none => rfl
    | some middle =>
      simp only [Option.bind_some, Option.map_some, replay, State.step, applyAll]
      cases action.apply middle.live <;> rfl
  | @committed entries txn before fresh actions ih =>
    have first := ih fun entry member => clear entry (mem_append_left _ member)
    rw [survivors_committed fresh, applyAll_append, ← first, replay_append]
    cases ran : replay state entries with
    | none => rfl
    | some middle =>
      have empty : middle.pending txn = [] := by
        rw [replay_pending_fresh ran fresh]
        exact clear (.finish txn) (by simp) txn rfl
      rw [Option.bind_some, Option.map_some, replay_committed middle empty, Option.map_map,
        Option.bind_some]
      exact Option.map_id'
  | @abandoned entries txn before fresh actions ih =>
    have first := ih fun entry member => clear entry (mem_append_left _ member)
    rw [survivors_abandoned fresh, ← first, replay_append]
    cases replay state entries with
    | none => rfl
    | some middle => rw [Option.bind_some, replay_queued, Option.map_some, Option.map_some]

/-- The end of a journal starts from what its front has offered. A transaction that is cut in
two has put its first part there. -/
theorem Blocks.exists_before (blocks : Blocks (front ++ back))
    (ran : replay .empty (front ++ back) = some state) :
    ∃ before, applyAll before (survivors back) = some state.live ∧
      ∀ key payload, before key = some payload → ∃ entry ∈ front, entry.Offers key payload := by
  have applied := blocks.replay_clear (show State.empty.Clear (front ++ back) from
    fun _ _ _ _ => rfl)
  rw [ran, blocks.survivors_split, applyAll_append] at applied
  obtain ⟨before, reached, ended⟩ := Option.bind_eq_some_iff.mp applied.symm
  refine ⟨before, ended, fun key payload live => ?_⟩
  rcases applyAll_live reached live with impossible | put
  · cases impossible
  · obtain ⟨entry, inside, offered, _⟩ := offered_of_survivor put
    exact ⟨entry, inside, offered⟩

end Replay

section Again

variable {before after again reached : κ → Option π} {actions : List (Action κ π)}

theorem Action.overwrite_of_ne {action : Action κ π} {key : κ} (other : action.key ≠ key)
    (live : κ → Option π) : action.overwrite live key = live key := by
  cases action with
  | put | delete => exact update_of_ne other.symm _ _

theorem Action.overwrite_key (action : Action κ π) (live other : κ → Option π) :
    action.overwrite live action.key = action.overwrite other action.key := by
  cases action with
  | put | delete => simp [overwrite, key]

theorem Action.isSome_apply_delete (key : κ) (live : κ → Option π) :
    ((delete key).apply live).isSome = (live key).isSome := by
  rw [apply]
  split
  · rename_i there
    exact there.symm
  · rename_i missing
    exact (Bool.eq_false_iff.mpr missing).symm

theorem applyAll_untouched (ran : applyAll before actions = some after) {key : κ}
    (others : ∀ action ∈ actions, action.key ≠ key) : after key = before key := by
  induction actions generalizing before with
  | nil =>
    cases ran
    rfl
  | cons action rest ih =>
    obtain ⟨middle, first, later⟩ := Option.bind_eq_some_iff.mp ran
    rw [ih later fun other member => others other (mem_cons_of_mem _ member)]
    rw [apply_eq_overwrite first]
    exact overwrite_of_ne (others action mem_cons_self) before

theorem put_of_applyAll (ran : applyAll before actions = some after) {key : κ} {payload : π}
    (touched : ∃ action ∈ actions, action.key = key) (found : after key = some payload) :
    .put key payload ∈ actions := by
  induction actions generalizing before with
  | nil =>
    obtain ⟨_, impossible, _⟩ := touched
    cases impossible
  | cons action rest ih =>
    obtain ⟨middle, first, later⟩ := Option.bind_eq_some_iff.mp ran
    by_cases more : ∃ action ∈ rest, action.key = key
    · exact mem_cons_of_mem _ (ih later more)
    · have last := applyAll_untouched later fun other member same => more ⟨other, member, same⟩
      rw [found, apply_eq_overwrite first] at last
      obtain ⟨other, member, rfl⟩ := touched
      rcases mem_cons.mp member with rfl | inside
      · cases other with
        | put written stored =>
          rw [overwrite, key, update_self] at last
          cases last
          exact mem_cons_self
        | delete written =>
          rw [overwrite, key, update_self] at last
          cases last
      · exact absurd ⟨other, inside, rfl⟩ more

/-- The actions are applied again to another map. It agrees with the first one on the keys that
were touched already, and has the other keys that are there in the end. -/
structure Resumes (seen : κ → Prop) (before again after : κ → Option π) : Prop where
  same : ∀ key, seen key → again key = before key
  shape : ∀ key, ¬ seen key → (again key).isSome = (after key).isSome

variable {seen : κ → Prop}

section

variable (resumes : Resumes seen before again after)

include resumes

theorem Resumes.step (action : Action κ π) :
    Resumes (fun key => seen key ∨ action.key = key) (action.overwrite before)
      (action.overwrite again) after := by
  refine ⟨fun key touched => ?_, fun key untouched => ?_⟩
  · by_cases here : action.key = key
    · subst here
      exact action.overwrite_key again before
    · rw [overwrite_of_ne here, overwrite_of_ne here]
      exact resumes.same key (touched.resolve_right here)
  · obtain ⟨unseen, other⟩ := not_or.mp untouched
    rw [overwrite_of_ne other]
    exact resumes.shape key unseen

theorem Resumes.stale_of_apply {action : Action κ π} (first : (action.apply before).isSome)
    (failed : action.apply again = none) :
    action = .delete action.key ∧ ¬ seen action.key ∧ after action.key = none := by
  cases action with
  | put written payload => cases failed
  | delete written =>
    have gone := congrArg Option.isSome failed
    rw [isSome_apply_delete] at first gone
    have unseen : ¬ seen written := by
      intro touched
      rw [resumes.same written touched, first] at gone
      cases gone
    rw [resumes.shape written unseen] at gone
    exact ⟨rfl, unseen, Option.isNone_iff_eq_none.mp (Option.isSome_eq_false_iff.mp gone)⟩

/-- Applying the actions again succeeds unless a key that is gone in the end was deleted before
it was put. -/
theorem Resumes.applyAll_isSome_iff (ran : applyAll before actions = some after) :
    (applyAll again actions).isSome ↔ ∀ key, ¬ seen key → after key = none →
      actions.find? (fun action => action.key = key) ≠ some (.delete key) := by
  induction actions generalizing before again seen with
  | nil => simp [applyAll]
  | cons action rest ih =>
    obtain ⟨middle, first, later⟩ := Option.bind_eq_some_iff.mp ran
    obtain rfl := apply_eq_overwrite first
    cases applied : action.apply again with
    | some next =>
      obtain rfl := apply_eq_overwrite applied
      rw [applyAll, applied, Option.bind_some, ih (resumes.step action) later]
      refine forall_congr' fun key => ?_
      by_cases here : action.key = key
      · subst here
        rw [List.find?_cons_of_pos (by simp)]
        refine ⟨fun _ unseen ended stale => ?_, fun _ touched => absurd (.inr rfl) touched⟩
        have there : (again action.key).isSome := by
          rw [← isSome_apply_delete, ← Option.some.inj stale, applied]
          rfl
        rw [resumes.shape action.key unseen, ended] at there
        cases there
      · rw [List.find?_cons_of_neg (by simpa using here), not_or]
        exact ⟨fun all unseen => all ⟨unseen, here⟩, fun all untouched => all untouched.1⟩
    | none =>
      obtain ⟨stale, unseen, ended⟩ := resumes.stale_of_apply (by rw [first]; rfl) applied
      rw [applyAll, applied]
      refine ⟨fun impossible => (by cases impossible), fun all => ?_⟩
      refine absurd ?_ (all action.key unseen ended)
      rw [List.find?_cons_of_pos (by simp), ← stale]

theorem Resumes.reached_eq (ran : applyAll before actions = some after)
    (ranAgain : applyAll again actions = some reached) {key : κ}
    (touched : seen key ∨ ∃ action ∈ actions, action.key = key) : reached key = after key := by
  induction actions generalizing before again seen with
  | nil =>
    cases ran
    cases ranAgain
    refine resumes.same key (touched.resolve_right ?_)
    rintro ⟨_, impossible, _⟩
    cases impossible
  | cons action rest ih =>
    obtain ⟨middle, first, later⟩ := Option.bind_eq_some_iff.mp ran
    obtain ⟨next, firstAgain, laterAgain⟩ := Option.bind_eq_some_iff.mp ranAgain
    obtain rfl := apply_eq_overwrite first
    obtain rfl := apply_eq_overwrite firstAgain
    refine ih (resumes.step action) later laterAgain ?_
    rcases touched with earlier | ⟨other, member, same⟩
    · exact .inl (.inl earlier)
    · rcases mem_cons.mp member with rfl | inside
      · exact .inl (.inr same)
      · exact .inr ⟨other, inside, same⟩

end

omit [DecidableEq κ] in
theorem resumes_start (same : ∀ key, (again key).isSome = (after key).isSome) :
    Resumes (fun _ => False) before again after :=
  ⟨fun _ impossible => impossible.elim, fun key _ => same key⟩

end Again

theorem applyAll_alike {ν : Type} {shown : π → ν} {live other reached : κ → Option π}
    {actions : List (Action κ π)} (alike : ∀ key, (other key).map shown = (live key).map shown)
    (ran : applyAll live actions = some reached) :
    ∃ last, applyAll other actions = some last ∧
      ∀ key, (last key).map shown = (reached key).map shown := by
  induction actions generalizing live other with
  | nil =>
    cases ran
    exact ⟨other, rfl, alike⟩
  | cons action rest ih =>
    obtain ⟨middle, first, later⟩ := Option.bind_eq_some_iff.mp ran
    have applied : action.apply other = some (action.overwrite other) := by
      cases action with
      | put written payload => rfl
      | delete written =>
        have there : (live written).isSome := by
          rw [← isSome_apply_delete, first]
          rfl
        rw [← Option.isSome_map (f := shown), ← alike, Option.isSome_map] at there
        exact if_pos there
    obtain rfl := apply_eq_overwrite first
    rw [applyAll, applied]
    refine ih (fun key => ?_) later
    by_cases here : action.key = key
    · subst here
      rw [action.overwrite_key other live]
    · rw [overwrite_of_ne here, overwrite_of_ne here]
      exact alike key

/-- The front of a journal is replaced by a map, which shows what the journal showed when its
middle was the end. -/
structure Replaced {ν : Type} (shown : π → ν) (front middle tail : List (Entry κ π))
    (state final : State κ π) (again : κ → Option π) : Prop where
  blocks : Blocks (front ++ middle)
  blocksAll : Blocks (front ++ middle ++ tail)
  ran : replay .empty (front ++ middle) = some state
  ranAll : replay .empty (front ++ middle ++ tail) = some final
  apart : ∀ entry ∈ front ++ middle, ∀ txn, entry.txn = some txn → Fresh txn tail
  alike : ∀ key, (again key).map shown = (state.live key).map shown

section Replaced

variable {ν : Type} {shown : π → ν} {front middle tail : List (Entry κ π)}
  {state final reached : State κ π} {again : κ → Option π}

section

variable (replaced : Replaced shown front middle tail state final again)

include replaced

theorem Replaced.resumes (before : κ → Option π) :
    Resumes (fun _ => False) before again state.live := by
  refine resumes_start fun key => ?_
  rw [← Option.isSome_map (f := shown), replaced.alike, Option.isSome_map]

theorem Replaced.applyAll_tail : applyAll state.live (survivors tail) = some final.live := by
  have first := replaced.blocks.replay_clear (show State.empty.Clear (front ++ middle) from
    fun _ _ _ _ => rfl)
  have all := replaced.blocksAll.replay_clear (show State.empty.Clear (front ++ middle ++ tail) from
    fun _ _ _ _ => rfl)
  rw [replaced.ran] at first
  rw [replaced.ranAll, survivors_apart replaced.apart, applyAll_append, ← first] at all
  exact all.symm

theorem Replaced.replay_again :
    (replay ⟨again, fun _ => []⟩ (middle ++ tail)).map State.live =
      (applyAll again (survivors middle)).bind fun live => applyAll live (survivors tail) := by
  have blocks := replaced.blocksAll.of_append (append_assoc front middle tail).symm
  rw [blocks.replay_clear fun _ _ _ _ => rfl, survivors_apart fun entry member =>
    replaced.apart entry (mem_append_right _ member), applyAll_append]

theorem Replaced.middle_alike {live : κ → Option π}
    (applied : applyAll again (survivors middle) = some live) (key : κ) :
    (live key).map shown = (state.live key).map shown := by
  obtain ⟨before, ran, _⟩ := replaced.blocks.exists_before replaced.ran
  by_cases touched : ∃ action ∈ survivors middle, action.key = key
  · rw [(replaced.resumes before).reached_eq ran applied (.inr touched)]
  · rw [applyAll_untouched applied fun action member same => touched ⟨action, member, same⟩]
    exact replaced.alike key

/-- The rest of the journal can be replayed over the map unless the middle begins its work on a
key that is gone with a tombstone. -/
theorem Replaced.isSome_iff :
    (replay ⟨again, fun _ => []⟩ (middle ++ tail)).isSome ↔ ∀ key, state.live key = none →
      (survivors middle).find? (fun action => action.key = key) ≠ some (.delete key) := by
  obtain ⟨before, ran, _⟩ := replaced.blocks.exists_before replaced.ran
  have applies := (replaced.resumes before).applyAll_isSome_iff ran
  simp only [not_false_eq_true, forall_const] at applies
  rw [← applies, ← Option.isSome_map (f := State.live), replaced.replay_again]
  cases applied : applyAll again (survivors middle) with
  | none => rfl
  | some live =>
    obtain ⟨last, ended, _⟩ := applyAll_alike (replaced.middle_alike applied)
      replaced.applyAll_tail
    rw [Option.bind_some, ended]
    rfl

variable (ran : replay ⟨again, fun _ => []⟩ (middle ++ tail) = some reached)

include ran

theorem Replaced.exists_live : ∃ live, applyAll again (survivors middle) = some live ∧
    applyAll live (survivors tail) = some reached.live := by
  have applied := replaced.replay_again
  rw [ran] at applied
  exact Option.bind_eq_some_iff.mp applied.symm

theorem Replaced.live_alike (key : κ) :
    (reached.live key).map shown = (final.live key).map shown := by
  obtain ⟨live, applied, ended⟩ := replaced.exists_live ran
  obtain ⟨last, reached', alike⟩ := applyAll_alike (replaced.middle_alike applied)
    replaced.applyAll_tail
  cases ended.symm.trans reached'
  exact alike key

theorem Replaced.origin {key : κ} {payload : π} (found : reached.live key = some payload) :
    (∃ entry ∈ middle ++ tail, entry.Offers key payload) ∨ again key = some payload ∧
        ∃ stored, state.live key = some stored ∧ ∃ entry ∈ front, entry.Offers key stored := by
  obtain ⟨live, applied, ended⟩ := replaced.exists_live ran
  obtain ⟨before, ran, offered⟩ := replaced.blocks.exists_before replaced.ran
  rcases applyAll_live ended found with here | put
  · by_cases touched : ∃ action ∈ survivors middle, action.key = key
    · obtain ⟨entry, inside, offers, _⟩ := offered_of_survivor (put_of_applyAll applied touched here)
      exact .inl ⟨entry, mem_append_left _ inside, offers⟩
    · have untouched : ∀ action ∈ survivors middle, action.key ≠ key :=
        fun action member same => touched ⟨action, member, same⟩
      rw [applyAll_untouched applied untouched] at here
      have there : (state.live key).isSome := by
        rw [← Option.isSome_map (f := shown), ← replaced.alike, here]
        rfl
      obtain ⟨stored, kept⟩ := Option.isSome_iff_exists.mp there
      refine .inr ⟨here, stored, kept, offered key stored ?_⟩
      rw [← applyAll_untouched ran untouched, kept]
  · obtain ⟨entry, inside, offers, _⟩ := offered_of_survivor put
    exact .inl ⟨entry, mem_append_right _ inside, offers⟩

end

end Replaced

end Bitdb.Base.Journal
