import Bitdb.Ds.SkipList

/-! The pointers that `Insert` and `Remove` write. -/

set_option autoImplicit false

namespace Bitdb.Ds

open Base Base.Levels List Option Linked

variable {K V : Type} {heap : Heap K V} {first cell : Cell K V} {front back : List (Cell K V)}

variable {other : Cell K V}

theorem Linked.name_ne {passed rest : List (Cell K V)}
    (distinct : ((passed ++ cell :: rest).map Item.name).Nodup) (member : other ∈ passed ++ rest) :
    other.name ≠ cell.name := by
  intro same
  rw [map_append, map_cons, nodup_middle, nodup_cons, ← map_append]
    at distinct
  exact distinct.1 (same ▸ mem_map_of_mem member)

theorem mem_without {passed rest : List (Cell K V)} (member : other ∈ passed ++ cell :: rest)
    (itself : other.name ≠ cell.name) : other ∈ passed ++ rest := by
  rcases mem_append.mp member with before | behind
  · exact mem_append_left _ before
  · rcases mem_cons.mp behind with same | later
    · exact absurd (congrArg Item.name same) itself
    · exact mem_append_right _ later

theorem Linked.overwrite (linked : Linked heap (front ++ cell :: back)) (content : K × V) :
    Linked (heap.insert cell.name (Cell.node ⟨cell.name, cell.height, content⟩
      (links (front ++ cell :: back) cell.name)))
      (front ++ ⟨cell.name, cell.height, content⟩ :: back) := by
  have same : links (front ++ cell :: back) =
      links (front ++ ⟨cell.name, cell.height, content⟩ :: back) :=
    links_content cell.name cell.height cell.content content front back
  refine ⟨fun other member => ?_, ?_⟩
  · rw [← same]
    rcases mem_append.mp member with before | behind
    · have old : other ∈ front ++ back := mem_append_left _ before
      rw [AList.lookup_insert_ne (name_ne linked.distinct old)]
      exact linked.holds other (mem_append_left _ before)
    · rcases mem_cons.mp behind with rfl | later
      · rw [AList.lookup_insert]
      · have old : other ∈ front ++ back := mem_append_right _ later
        rw [AList.lookup_insert_ne (name_ne linked.distinct old)]
        exact linked.holds other (mem_append_right _ (mem_cons_of_mem _ later))
  · have distinct := linked.distinct
    rw [map_append, map_cons] at distinct ⊢
    exact distinct

theorem getElem?_prevs {top k : Nat} (below : k < top) (prev : Nat → Address) :
    (((List.range top).map fun i => some (prev i))[k]?).join = some (prev k) := by
  simp [below]

/-- The pointers while a cell is put into the row, with the levels below `k` done. -/
def joining (first : Cell K V) (front : List (Cell K V)) (cell : Cell K V)
    (back : List (Cell K V)) (k : Nat) : Address → Nat → Option Address :=
  fun name i =>
    if i < k then links (first :: front ++ cell :: back) name i
    else if name = cell.name then none
    else links (first :: front ++ back) name i

section

variable (distinct : ((first :: front ++ cell :: back).map Item.name).Nodup)

include distinct

theorem links_with {k : Nat} (reaches : k < cell.height)
    (member : other ∈ first :: front ++ back) (above : k < other.height) :
    links (first :: front ++ cell :: back) other.name k =
      if other.name = (lastAbove k first front).name then some cell.name
      else links (first :: front ++ back) other.name k := by
  rcases mem_append.mp member with before | behind
  · exact links_insert distinct before above reaches
  · have absent : other.name ∉ (first :: front).map Item.name := by
      intro used
      rw [map_append, nodup_append] at distinct
      exact distinct.2.2 _ used _ (mem_map_of_mem (mem_cons_of_mem _ behind)) rfl
    have different : other.name ≠ (lastAbove k first front).name := by
      intro same
      exact absent (same ▸ mem_map_of_mem (lastAbove_mem k first front))
    rw [if_neg different, links_append absent, links_append absent, links,
      if_neg (name_ne distinct member)]

theorem links_self (k : Nat) :
    links (first :: front ++ cell :: back) cell.name k = successor back k :=
  links_split distinct rfl k

theorem Holds.joining_succ {k : Nat} (reaches : k < cell.height)
    {next : Address → Nat → Option Address}
    (holds : Holds heap (first :: front ++ cell :: back) next)
    (here : next cell.name k = successor back k)
    (before : next (lastAbove k first front).name k = some cell.name)
    (others : ∀ name, name ≠ cell.name → name ≠ (lastAbove k first front).name →
      next name k = joining first front cell back k name k)
    (rest : ∀ name i, i ≠ k → next name i = joining first front cell back k name i) :
    Holds heap (first :: front ++ cell :: back) (joining first front cell back (k + 1)) := by
  refine holds.congr fun other member i below => ?_
  by_cases level : i = k
  · subst level
    have done : joining first front cell back (i + 1) other.name i =
        links (first :: front ++ cell :: back) other.name i := if_pos (Nat.lt_succ_self i)
    rw [done]
    by_cases itself : other.name = cell.name
    · rw [itself, here, links_self distinct]
    · rw [links_with distinct reaches (mem_without member itself) below]
      split
      next same => rw [same, before]
      next different =>
        rw [others other.name itself different, joining, if_neg (Nat.lt_irrefl i), if_neg itself]
  · rw [rest other.name i level, joining, joining]
    have same : i < k ↔ i < k + 1 := by omega
    simp only [same]

theorem nodup_without : ((first :: front ++ back).map Item.name).Nodup := by
  rw [map_append, map_cons (l := back), nodup_middle, nodup_cons, ← map_append] at distinct
  exact distinct.2

theorem lastAbove_name_ne (k : Nat) : (lastAbove k first front).name ≠ cell.name :=
  name_ne distinct (mem_append_left back (lastAbove_mem k first front))

theorem Holds.link {k : Nat} (reaches : k < cell.height) (high : k < first.height)
    {prevs : List (Option Address)} (found : (prevs[k]?).join = some (lastAbove k first front).name)
    (holds : Holds heap (first :: front ++ cell :: back) (joining first front cell back k)) :
    ∃ reached, link prevs cell.name heap k = some reached ∧
      Holds reached (first :: front ++ cell :: back) (joining first front cell back (k + 1)) := by
  have present : lastAbove k first front ∈ first :: front ++ cell :: back :=
    mem_append_left _ (lastAbove_mem k first front)
  have above : k < (lastAbove k first front).height :=
    lt_height_lastAbove front (Nat.le_refl k) high
  have different := lastAbove_name_ne distinct k
  have pointer : joining first front cell back k (lastAbove k first front).name k =
      successor back k := by
    rw [joining, if_neg (Nat.lt_irrefl k), if_neg different, links_lastAbove (nodup_without distinct)]
  obtain ⟨middle, wroteNode, middleHolds⟩ := holds.setNext distinct
    (by simp : cell ∈ first :: front ++ cell :: back) reaches (successor back k)
  obtain ⟨reached, wrotePrev, reachedHolds⟩ :=
    middleHolds.setNext distinct present above (some cell.name)
  refine ⟨reached, ?_, Holds.joining_succ distinct reaches reachedHolds ?_ ?_ ?_ ?_⟩
  · simp only [Ds.link, found, bind_eq_bind, bind_some,
      holds.nextOf present above, pointer, wroteNode, wrotePrev]
  · rw [update_of_ne _ different.symm, update_at]
  · rw [update_at]
  · intro name itself other
    rw [update_of_ne _ other, update_of_ne _ itself]
  · intro name i level
    simp only [update, level, and_false, if_false]

theorem Holds.raise {k : Nat} (reaches : k < cell.height) (high : k < first.height)
    (low : ∀ other ∈ front ++ back, other.height ≤ k)
    (holds : Holds heap (first :: front ++ cell :: back) (joining first front cell back k)) :
    ∃ reached, Ds.setNext heap first.name k (some cell.name) = some reached ∧
      Holds reached (first :: front ++ cell :: back) (joining first front cell back (k + 1)) := by
  have top : lastAbove k first front = first :=
    lastAbove_of_low (fun other member => low other (mem_append_left _ member)) first
  have different := lastAbove_name_ne distinct k
  have nothing : successor back k = none :=
    successor_eq_none.mpr fun other member => low other (mem_append_right _ member)
  obtain ⟨reached, wrote, reachedHolds⟩ := holds.setNext distinct
    (by simp : first ∈ first :: front ++ cell :: back) high (some cell.name)
  rw [top] at different
  refine ⟨reached, wrote, Holds.joining_succ distinct reaches reachedHolds ?_ ?_ ?_ ?_⟩
  · rw [update_of_ne _ different.symm, joining, if_neg (Nat.lt_irrefl k), if_pos rfl, nothing]
  · rw [top, update_at]
  · intro name itself other
    rw [top] at other
    rw [update_of_ne _ other]
  · intro name i level
    simp only [update, level, and_false, if_false]

theorem Holds.joined (holds : Holds heap (first :: front ++ cell :: back)
      (joining first front cell back cell.height)) :
    Linked heap (first :: front ++ cell :: back) := by
  refine ⟨holds.congr fun other member i below => ?_, distinct⟩
  rw [joining]
  split
  next => rfl
  next low =>
    have itself : other.name ≠ cell.name := by
      intro same
      have equal := inj_on_of_nodup_map distinct member (by simp) same
      rw [equal] at below
      exact low below
    rw [if_neg itself, links_low (Nat.not_lt.mp low) (first :: front) back itself]

end

theorem Holds.newNode (linked : Linked heap (first :: front ++ back))
    (distinct : ((first :: front ++ cell :: back).map Item.name).Nodup) :
    Holds (heap.insert cell.name (newNode cell.height (Cell.key cell) (Cell.value cell)))
      (first :: front ++ cell :: back) (joining first front cell back 0) := by
  intro other member
  have pointers : joining first front cell back 0 other.name =
      fun i => if other.name = cell.name then none
        else links (first :: front ++ back) other.name i :=
    funext fun i => if_neg (Nat.not_lt_zero i)
  rw [pointers]
  by_cases itself : other.name = cell.name
  · have equal := inj_on_of_nodup_map distinct member (by simp) itself
    subst equal
    simp only [AList.lookup_insert, if_true, Cell.node, Ds.newNode, map_const', length_range]
  · simp only [if_neg itself]
    rw [AList.lookup_insert_ne itself]
    exact linked.holds other (mem_without member itself)

theorem Linked.insert (linked : Linked heap (first :: front ++ back)) {top : Nat}
    (cell : Cell K V) (unused : heap.lookup cell.name = none)
    (low : ∀ other ∈ front ++ back, other.height ≤ top) (fits : cell.height ≤ first.height) :
    ∃ middle reached,
      forRange 0 (min cell.height top)
        (link ((List.range top).map fun i => some (lastAbove i first front).name) cell.name)
        (heap.insert cell.name (newNode cell.height (Cell.key cell) (Cell.value cell))) =
          some middle ∧
      forRange top cell.height (fun heap i => setNext heap first.name i (some cell.name)) middle =
        some reached ∧
      Linked reached (first :: front ++ cell :: back) := by
  have absent : cell.name ∉ (first :: front ++ back).map Item.name := by
    intro used
    obtain ⟨other, member, same⟩ := mem_map.mp used
    rw [← same, linked.holds other member] at unused
    cases unused
  have distinct : ((first :: front ++ cell :: back).map Item.name).Nodup := by
    have old := linked.distinct
    rw [map_append] at absent old
    rw [map_append, map_cons (l := back), nodup_middle, nodup_cons]
    exact ⟨absent, old⟩
  obtain ⟨middle, linking, middleHolds⟩ := forRange_invariant
    (link ((List.range top).map fun i => some (lastAbove i first front).name) cell.name)
    (fun k heap => Holds heap (first :: front ++ cell :: back) (joining first front cell back k))
    (Nat.zero_le (min cell.height top)) (Holds.newNode linked distinct)
    (fun k heap _ below holds => by
      have bounds := Nat.lt_min.mp below
      exact Holds.link distinct bounds.1 (lt_of_lt_of_le bounds.1 fits)
        (getElem?_prevs bounds.2 fun i => (lastAbove i first front).name) holds)
  rcases Nat.le_total cell.height top with short | tall
  · rw [Nat.min_eq_left short] at linking middleHolds ⊢
    exact ⟨middle, middle, linking, forRange_of_le short _ _, Holds.joined distinct middleHolds⟩
  · rw [Nat.min_eq_right tall] at linking middleHolds ⊢
    obtain ⟨reached, raising, reachedHolds⟩ := forRange_invariant
      (fun heap i => setNext heap first.name i (some cell.name))
      (fun k heap => Holds heap (first :: front ++ cell :: back) (joining first front cell back k))
      tall middleHolds
      (fun k heap above below holds =>
        Holds.raise distinct below (lt_of_lt_of_le below fits)
          (fun other member => (low other member).trans above) holds)
    exact ⟨middle, reached, linking, raising, Holds.joined distinct reachedHolds⟩

/-- The pointers while a cell is taken out of the row, with the levels below `k` done. The cell
itself keeps its pointers. -/
def leaving (first : Cell K V) (front : List (Cell K V)) (cell : Cell K V)
    (back : List (Cell K V)) (k : Nat) : Address → Nat → Option Address :=
  fun name i =>
    if i < k ∧ name ≠ cell.name then links (first :: front ++ back) name i
    else links (first :: front ++ cell :: back) name i

theorem Holds.unlink (distinct : ((first :: front ++ cell :: back).map Item.name).Nodup) {k : Nat}
    (reaches : k < cell.height) (high : k < first.height) {prevs : List (Option Address)}
    (found : (prevs[k]?).join = some (lastAbove k first front).name)
    (holds : Holds heap (first :: front ++ cell :: back) (leaving first front cell back k)) :
    ∃ reached, unlink prevs cell.name heap k = some reached ∧
      Holds reached (first :: front ++ cell :: back) (leaving first front cell back (k + 1)) := by
  have present : lastAbove k first front ∈ first :: front ++ cell :: back :=
    mem_append_left _ (lastAbove_mem k first front)
  have above : k < (lastAbove k first front).height :=
    lt_height_lastAbove front (Nat.le_refl k) high
  have different := lastAbove_name_ne distinct k
  have pointer : leaving first front cell back k cell.name k = successor back k := by
    rw [leaving, if_neg (fun both => both.2 rfl), links_self distinct]
  obtain ⟨reached, wrote, reachedHolds⟩ := holds.setNext distinct present above (successor back k)
  refine ⟨reached, ?_, reachedHolds.congr fun other member i below => ?_⟩
  · simp only [Ds.unlink, found, bind_eq_bind, bind_some,
      holds.nextOf (by simp : cell ∈ first :: front ++ cell :: back) reaches, pointer, wrote]
  by_cases itself : other.name = cell.name
  · rw [itself, update_of_ne _ different.symm, leaving, leaving, if_neg (fun both => both.2 rfl),
      if_neg (fun both => both.2 rfl)]
  by_cases level : i = k
  · subst level
    rw [leaving, if_pos ⟨Nat.lt_succ_self i, itself⟩]
    by_cases last : other.name = (lastAbove i first front).name
    · rw [last, update_at, links_lastAbove (nodup_without distinct)]
    · rw [update_of_ne _ last, leaving, if_neg (fun both => Nat.lt_irrefl i both.1),
        links_with distinct reaches (mem_without member itself) below, if_neg last]
  · have same : i < k ↔ i < k + 1 := by omega
    simp only [update, level, and_false, if_false, leaving, same]

theorem Holds.left (distinct : ((first :: front ++ cell :: back).map Item.name).Nodup)
    (holds : Holds heap (first :: front ++ cell :: back)
      (leaving first front cell back cell.height)) :
    Linked (heap.erase cell.name) (first :: front ++ back) := by
  have others : first :: front ++ back ⊆ first :: front ++ cell :: back := by
    intro other member
    rcases mem_append.mp member with before | behind
    · exact mem_append_left _ before
    · exact mem_append_right _ (mem_cons_of_mem _ behind)
  have absent : cell.name ∉ (first :: front ++ back).map Item.name := by
    intro used
    obtain ⟨other, member, same⟩ := mem_map.mp used
    exact name_ne distinct member same
  refine ⟨((holds.subset others).erase absent).congr fun other member i below => ?_,
    nodup_without distinct⟩
  have itself : other.name ≠ cell.name := name_ne distinct member
  rw [leaving]
  split
  next => rfl
  next kept =>
    have low : cell.height ≤ i := by
      by_contra reaches
      exact kept ⟨Nat.not_le.mp reaches, itself⟩
    rw [links_low low (first :: front) back itself]

theorem Linked.remove (linked : Linked heap (first :: front ++ cell :: back)) {top : Nat}
    (fits : cell.height ≤ top) (topFits : top ≤ first.height) :
    ∃ reached,
      forRange 0 cell.height
        (unlink ((List.range top).map fun i => some (lastAbove i first front).name) cell.name)
        heap = some reached ∧
      Linked (reached.erase cell.name) (first :: front ++ back) := by
  have begins : Holds heap (first :: front ++ cell :: back) (leaving first front cell back 0) := by
    refine linked.holds.congr fun other member i below => ?_
    rw [leaving, if_neg (fun both => Nat.not_lt_zero i both.1)]
  obtain ⟨reached, unlinking, holds⟩ := forRange_invariant
    (unlink ((List.range top).map fun i => some (lastAbove i first front).name) cell.name)
    (fun k heap => Holds heap (first :: front ++ cell :: back) (leaving first front cell back k))
    (Nat.zero_le cell.height) begins
    (fun k heap _ below holds =>
      Holds.unlink linked.distinct below (lt_of_lt_of_le below (fits.trans topFits))
        (getElem?_prevs (lt_of_lt_of_le below fits) fun i => (lastAbove i first front).name) holds)
  exact ⟨reached, unlinking, Holds.left linked.distinct holds⟩

theorem Linked.lowerLevel {cells : List (Cell K V)} (linked : Linked heap (first :: cells))
    {level : Nat} (positive : 0 < level) (fits : level ≤ first.height)
    (low : ∀ cell ∈ cells, cell.height ≤ level) :
    ∃ lowered, lowerLevel heap first.name level = some lowered ∧ 0 < lowered ∧ lowered ≤ level ∧
      ∀ cell ∈ cells, cell.height ≤ lowered := by
  induction level with
  | zero => cases positive
  | succ level ih =>
    cases level with
    | zero => exact ⟨1, rfl, Nat.one_pos, Nat.le_refl 1, low⟩
    | succ level =>
      have pointer := linked.holds.nextOf mem_cons_self fits
      have row := links_split linked.distinct (nil_append (first :: cells)).symm (level + 1)
      rw [row] at pointer
      cases above : successor cells (level + 1) with
      | none =>
        obtain ⟨lowered, loop, nonzero, less, bound⟩ := ih (Nat.succ_pos level)
          (Nat.le_of_succ_le fits) (successor_eq_none.mp above)
        refine ⟨lowered, ?_, nonzero, Nat.le_succ_of_le less, bound⟩
        rw [Ds.lowerLevel, pointer, above]
        exact loop
      | some name =>
        refine ⟨level + 2, ?_, Nat.succ_pos _, Nat.le_refl _, low⟩
        rw [Ds.lowerLevel, pointer, above]
        rfl

end Bitdb.Ds
