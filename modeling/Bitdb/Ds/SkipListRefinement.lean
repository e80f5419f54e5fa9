import Bitdb.Ds.SkipListLinks

/-! The skip list refines an ordered map. -/

set_option autoImplicit false

namespace Bitdb.Ds

open Base Base.Levels List Option

namespace SkipList

section Turns

variable {K : Type} [LinearOrder K] {key : K}

variable {other : K}

theorem turnToKey_lt (less : other < key) : turnToKey key other = .advance := by
  rw [turnToKey, if_neg less.ne, if_neg less.not_gt]

theorem turnToKey_gt (greater : key < other) : turnToKey key other = .stop := by
  rw [turnToKey, if_neg greater.ne', if_pos greater]

theorem turnToKey_self (key : K) : turnToKey key key = .found := if_pos rfl

theorem turnBefore_lt (less : other < key) : turnBefore key other = .advance := by
  rw [turnBefore, if_neg less.not_ge]

theorem turnBefore_ge (greater : key ≤ other) : turnBefore key other = .stop := by
  rw [turnBefore, if_pos greater]

end Turns

variable {K V : Type} [LinearOrder K] [Inhabited K] [Inhabited V]

def headCell (list : SkipList K V) : Cell K V := ⟨list.head, kSkipListMaxLevel, (default, default)⟩

structure Represents (list : SkipList K V) (cells : List (Cell K V)) : Prop where
  linked : Linked list.heap (list.headCell :: cells)
  sorted : cells.Pairwise fun first second => Cell.key first < Cell.key second
  heights : ∀ cell ∈ cells, 0 < cell.height ∧ cell.height ≤ list.level
  level : 0 < list.level ∧ list.level ≤ kSkipListMaxLevel
  size : list.size = cells.length

variable {list : SkipList K V} {cells front back : List (Cell K V)} {cell : Cell K V}
  {key : K} {fuel : Nat}

theorem Represents.lastAbove_eq_head (represents : list.Represents (front ++ back)) {n : Nat}
    (top : list.level ≤ n) : lastAbove n list.headCell front = list.headCell := by
  refine lastAbove_of_low (fun cell member => ?_) _
  exact (represents.heights cell (mem_append_left _ member)).2.trans top

theorem Represents.lookup (represents : list.Represents cells) (member : cell ∈ cells) :
    list.heap.lookup cell.name = some (Cell.node cell (links (list.headCell :: cells) cell.name)) :=
  represents.linked.holds cell (mem_cons_of_mem _ member)

section Split

variable (represents : list.Represents (front ++ back))
  (smaller : ∀ other ∈ front, Cell.key other < key) (larger : ∀ other ∈ back, key ≤ Cell.key other)
  (enough : (front ++ back).length ≤ fuel)

include represents smaller larger enough

theorem Represents.findPrevNodes_eq :
    list.findPrevNodes fuel key = some ((List.range list.level).map fun i =>
      some (lastAbove i list.headCell front).name) := by
  have ended := represents.linked.search_ended
    (fun cell member => turnBefore_lt (smaller cell member))
    (fun cell member => turnBefore_ge (larger cell member)) enough represents.level.2 []
  rw [represents.lastAbove_eq_head (Nat.le_refl _), append_nil] at ended
  have begins : list.headCell.name = list.head := rfl
  rw [findPrevNodes, ← begins, ended]
  rfl

theorem Represents.findRemovePoint_eq :
    list.findRemovePoint fuel key = some
      (match back with
      | [] => (none, [])
      | cell :: _ =>
        if Cell.key cell ≠ key then (none, [])
        else (some cell.name, (List.range list.level).map fun i =>
          some (lastAbove i list.headCell front).name)) := by
  have prevs := represents.findPrevNodes_eq smaller larger enough
  have prev := getElem?_prevs represents.level.1 fun i => (lastAbove i list.headCell front).name
  have linked : Linked list.heap (list.headCell :: front ++ back) := represents.linked
  have pointer := linked.nextOf_lastAbove (k := 0) (Nat.succ_pos 39)
  rw [findRemovePoint, prevs]
  simp only [Option.bind_eq_bind, Option.bind_some, prev, pointer]
  cases back with
  | nil => rfl
  | cons cell back =>
    have tall := (represents.heights cell (by simp)).1
    rw [successor_cons, if_pos tall]
    have node := represents.lookup (by simp : cell ∈ front ++ cell :: back)
    simp only [node, Option.bind_some]
    have same : (Cell.node cell (links (list.headCell :: (front ++ cell :: back))
      cell.name)).key = Cell.key cell := rfl
    rw [same]
    split
    next => rfl
    next => rfl

end Split

section Absent

variable (represents : list.Represents (front ++ back))
  (smaller : ∀ other ∈ front, Cell.key other < key) (larger : ∀ other ∈ back, key < Cell.key other)
  (enough : (front ++ back).length ≤ fuel)

include represents smaller larger enough

theorem Represents.search_absent :
    ∃ prev, search (turnToKey key) list.heap fuel list.level list.head [] =
      some (.ended prev ((List.range list.level).map fun i =>
        some (lastAbove i list.headCell front).name)) := by
  have ended := represents.linked.search_ended
    (fun cell member => turnToKey_lt (smaller cell member))
    (fun cell member => turnToKey_gt (larger cell member)) enough represents.level.2 []
  rw [represents.lastAbove_eq_head (Nat.le_refl _), append_nil] at ended
  exact ⟨_, ended⟩

theorem Represents.findNode_absent : list.findNode fuel key = some none := by
  obtain ⟨prev, ended⟩ := represents.search_absent smaller larger enough
  rw [findNode, ended]
  rfl

theorem Represents.insert_absent (value : V) (level : NodeLevel) (malloc : Malloc K V) :
    ∃ reached, list.insert fuel key value level.level malloc = some reached ∧
      reached.Represents
        (front ++ ⟨malloc.address list.heap, level.level, (key, value)⟩ :: back) := by
  obtain ⟨prev, ended⟩ := represents.search_absent smaller larger enough
  have linked : Linked list.heap (list.headCell :: front ++ back) := represents.linked
  obtain ⟨middle, heap, linking, raising, reachedLinked⟩ := linked.insert
    ⟨malloc.address list.heap, level.level, (key, value)⟩ (malloc.unused list.heap)
    (fun other member => (represents.heights other member).2) level.bounded
  refine ⟨⟨heap, list.head, max level.level list.level, list.size + 1⟩, ?_, reachedLinked,
    pairwise_insert represents.sorted smaller larger, ?_, ?_, ?_⟩
  · rw [insert, findInsertPoint, ended]
    simp only [Option.bind_eq_bind, Option.bind_some]
    exact bind_eq_some_iff.mpr ⟨middle, linking, bind_eq_some_iff.mpr ⟨heap, raising, rfl⟩⟩
  · intro other member
    rcases mem_append.mp member with before | behind
    · have bounds := represents.heights other (mem_append_left _ before)
      exact ⟨bounds.1, bounds.2.trans (le_max_right _ _)⟩
    · rcases mem_cons.mp behind with rfl | later
      · exact ⟨level.positive, le_max_left _ _⟩
      · have bounds := represents.heights other (mem_append_right _ later)
        exact ⟨bounds.1, bounds.2.trans (le_max_right _ _)⟩
  · exact ⟨lt_of_lt_of_le level.positive (le_max_left _ _), max_le level.bounded represents.level.2⟩
  · rw [represents.size, length_append, length_append, length_cons]
    rfl

theorem Represents.findRemovePoint_absent : list.findRemovePoint fuel key = some (none, []) := by
  rw [represents.findRemovePoint_eq smaller (fun other member => (larger other member).le) enough]
  cases back with
  | nil => rfl
  | cons cell back =>
    dsimp only
    rw [if_pos (larger cell mem_cons_self).ne']

end Absent

section Present

variable (represents : list.Represents (front ++ cell :: back))
  (smaller : ∀ other ∈ front, Cell.key other < Cell.key cell)
  (larger : ∀ other ∈ back, Cell.key cell < Cell.key other)
  (enough : (front ++ cell :: back).length ≤ fuel)

include represents smaller larger enough

theorem Represents.search_present :
    search (turnToKey (Cell.key cell)) list.heap fuel list.level list.head [] =
      some (.found cell.name) := by
  have tall := (represents.heights cell (by simp)).1
  have found := represents.linked.search_found
    (fun other member => turnToKey_lt (smaller other member)) (turnToKey_self _)
    (fun other member => turnToKey_gt (larger other member)) enough tall represents.level.1
    represents.level.2 []
  rwa [represents.lastAbove_eq_head (Nat.le_refl _)] at found

theorem Represents.findNode_present :
    list.findNode fuel (Cell.key cell) = some (some cell.name) := by
  rw [findNode, represents.search_present smaller larger enough]
  rfl

theorem Represents.insert_present (value : V) (level : Nat) (malloc : Malloc K V) :
    ∃ reached, list.insert fuel (Cell.key cell) value level malloc = some reached ∧
      reached.Represents (front ++ ⟨cell.name, cell.height, (Cell.key cell, value)⟩ :: back) := by
  have node := represents.lookup (by simp : cell ∈ front ++ cell :: back)
  have linked : Linked list.heap (list.headCell :: front ++ cell :: back) := represents.linked
  have overwritten := linked.overwrite (Cell.key cell, value)
  refine ⟨⟨_, list.head, list.level, list.size⟩, ?_, overwritten, ?_, ?_, represents.level, ?_⟩
  · rw [insert, findInsertPoint, represents.search_present smaller larger enough]
    simp only [Option.bind_eq_bind, Option.bind_some, node]
    rfl
  · exact pairwise_insert (pairwise_remove represents.sorted) smaller larger
  · intro other member
    rcases mem_append.mp member with before | behind
    · exact represents.heights other (mem_append_left _ before)
    · rcases mem_cons.mp behind with rfl | later
      · exact represents.heights cell (by simp)
      · exact represents.heights other (mem_append_right _ (mem_cons_of_mem _ later))
  · rw [represents.size, length_append, length_append, length_cons, length_cons]

theorem Represents.findRemovePoint_present :
    list.findRemovePoint fuel (Cell.key cell) = some (some cell.name,
      (List.range list.level).map fun i => some (lastAbove i list.headCell front).name) := by
  have atLeast : ∀ other ∈ cell :: back, Cell.key cell ≤ Cell.key other := by
    intro other member
    rcases mem_cons.mp member with rfl | later
    · exact le_refl _
    · exact (larger other later).le
  rw [represents.findRemovePoint_eq smaller atLeast enough]
  dsimp only
  rw [if_neg (not_not.mpr rfl)]

theorem Represents.remove_present :
    ∃ reached, list.remove fuel (Cell.key cell) = some (some (Cell.value cell), reached) ∧
      reached.Represents (front ++ back) := by
  have point := represents.findRemovePoint_present smaller larger enough
  have node := represents.lookup (by simp : cell ∈ front ++ cell :: back)
  have linked : Linked list.heap (list.headCell :: front ++ cell :: back) := represents.linked
  have heights : ∀ other ∈ front ++ back, 0 < other.height ∧ other.height ≤ list.level := by
    intro other member
    rcases mem_append.mp member with before | behind
    · exact represents.heights other (mem_append_left _ before)
    · exact represents.heights other (mem_append_right _ (mem_cons_of_mem _ behind))
  obtain ⟨heap, unlinking, reachedLinked⟩ :=
    linked.remove (represents.heights cell (by simp)).2 represents.level.2
  obtain ⟨level, lowering, positive, less, bound⟩ := Linked.lowerLevel reachedLinked
    represents.level.1 represents.level.2 fun other member => (heights other member).2
  refine ⟨⟨heap.erase cell.name, list.head, level, list.size - 1⟩, ?_, reachedLinked,
    pairwise_remove represents.sorted, fun other member => ⟨(heights other member).1,
      bound other member⟩, ⟨positive, less.trans represents.level.2⟩, ?_⟩
  · rw [remove, point]
    simp only [Option.bind_eq_bind, Option.bind_some, node]
    exact bind_eq_some_iff.mpr ⟨heap, unlinking, bind_eq_some_iff.mpr ⟨level, lowering, rfl⟩⟩
  · have size := represents.size
    rw [length_append, length_cons] at size
    rw [length_append]
    exact (congrArg (· - 1) size).trans (by omega)

end Present

section

variable (represents : list.Represents cells) (enough : cells.length ≤ fuel) (key : K)

include represents enough

theorem Represents.find_eq : list.find fuel key = some (contents cells key) := by
  rcases exists_split represents.sorted key with ⟨front, back, rfl, smaller, larger⟩ |
    ⟨front, cell, back, rfl, smaller, rfl, larger⟩
  · rw [find, represents.findNode_absent smaller larger enough, contents_absent smaller larger]
    rfl
  · rw [find, represents.findNode_present smaller larger enough, contents_present smaller]
    have node := represents.lookup (by simp : cell ∈ front ++ cell :: back)
    simp only [Option.bind_eq_bind, Option.bind_some, node]
    rfl

theorem Represents.has_eq : list.has fuel key = some (contents cells key).isSome := by
  rcases exists_split represents.sorted key with ⟨front, back, rfl, smaller, larger⟩ |
    ⟨front, cell, back, rfl, smaller, rfl, larger⟩
  · rw [has, represents.findNode_absent smaller larger enough, contents_absent smaller larger]
    rfl
  · rw [has, represents.findNode_present smaller larger enough, contents_present smaller]
    rfl

theorem Represents.insert (value : V) (level : NodeLevel) (malloc : Malloc K V) :
    ∃ reached grown, list.insert fuel key value level.level malloc = some reached ∧
      reached.Represents grown ∧ contents grown = Function.update (contents cells) key (some value) ∧
      grown.length ≤ cells.length + 1 := by
  rcases exists_split represents.sorted key with ⟨front, back, rfl, smaller, larger⟩ |
    ⟨front, cell, back, rfl, smaller, rfl, larger⟩
  · obtain ⟨reached, inserted, kept⟩ :=
      represents.insert_absent smaller larger enough value level malloc
    refine ⟨reached, _, inserted, kept, ?_, ?_⟩
    · exact contents_insert ⟨malloc.address list.heap, level.level, (key, value)⟩ smaller
    · rw [length_append, length_append, length_cons]
      omega
  · obtain ⟨reached, inserted, kept⟩ :=
      represents.insert_present smaller larger enough value level.level malloc
    refine ⟨reached, _, inserted, kept, ?_, ?_⟩
    · rw [contents_insert ⟨cell.name, cell.height, (Cell.key cell, value)⟩ smaller,
        contents_insert cell smaller]
      exact (Function.update_idem _ _ _).symm
    · rw [length_append, length_append, length_cons, length_cons]
      omega

theorem Represents.remove :
    ∃ reached left, list.remove fuel key = some (contents cells key, reached) ∧
      reached.Represents left ∧ contents left = Function.update (contents cells) key none ∧
      left.length ≤ cells.length := by
  rcases exists_split represents.sorted key with ⟨front, back, rfl, smaller, larger⟩ |
    ⟨front, cell, back, rfl, smaller, rfl, larger⟩
  · have nothing := contents_absent smaller larger
    refine ⟨list, front ++ back, ?_, represents, ?_, Nat.le_refl _⟩
    · rw [SkipList.remove, represents.findRemovePoint_absent smaller larger enough, nothing]
      rfl
    · rw [← nothing, Function.update_eq_self]
  · obtain ⟨reached, removed, kept⟩ := represents.remove_present smaller larger enough
    refine ⟨reached, front ++ back, ?_, kept, contents_remove smaller larger, ?_⟩
    · rw [removed, contents_present smaller]
    · rw [length_append, length_append, length_cons]
      omega

end

theorem represents_create (malloc : Malloc K V) : (create malloc).Represents [] where
  linked := by
    refine ⟨fun cell member => ?_, nodup_singleton _⟩
    rw [mem_singleton.mp member]
    have pointers : links [(create malloc).headCell] (create malloc).headCell.name =
        fun _ => none := funext fun level => if_pos rfl
    rw [pointers, Cell.node, map_const', length_range]
    exact AList.lookup_insert _
  sorted := List.Pairwise.nil
  heights := by rintro _ ⟨⟩
  level := ⟨Nat.one_pos, (by decide : 1 ≤ kSkipListMaxLevel)⟩
  size := rfl

theorem Represents.execute (operations : List (Operation K V)) (represents : list.Represents cells)
    (enough : cells.length + operations.length ≤ fuel) :
    ∃ reached left, list.execute fuel operations =
        some ((executeMap operations (contents cells)).1, reached) ∧
      reached.Represents left ∧ contents left = (executeMap operations (contents cells)).2 ∧
      left.length ≤ fuel := by
  induction operations generalizing list cells with
  | nil => exact ⟨list, cells, rfl, represents, rfl, enough⟩
  | cons operation operations ih =>
    rw [length_cons] at enough
    cases operation with
    | insert key value level malloc =>
      obtain ⟨middle, grown, inserted, kept, updated, length⟩ :=
        represents.insert (by omega : cells.length ≤ fuel) key value level malloc
      obtain ⟨reached, left, executed, done, same, bound⟩ := ih kept (by omega)
      rw [updated] at executed same
      refine ⟨reached, left, ?_, done, same, bound⟩
      simp only [SkipList.execute, inserted, executed, Option.bind_eq_bind, Option.bind_some]
      rfl
    | remove key =>
      obtain ⟨middle, less, removed, kept, updated, length⟩ :=
        represents.remove (by omega : cells.length ≤ fuel) key
      obtain ⟨reached, left, executed, done, same, bound⟩ := ih kept (by omega)
      rw [updated] at executed same
      refine ⟨reached, left, ?_, done, same, bound⟩
      simp only [SkipList.execute, removed, executed, Option.bind_eq_bind, Option.bind_some]
      rfl

theorem Represents.keysFrom_eq {passed rest : List (Cell K V)}
    (represents : list.Represents (passed ++ rest)) (enough : rest.length ≤ fuel) :
    Iterator.keysFrom list fuel ⟨successor rest 0⟩ = some (rest.map Cell.key) := by
  induction rest generalizing passed fuel with
  | nil =>
    cases fuel with
    | zero | succ => rfl
  | cons cell rest ih =>
    rw [length_cons] at enough
    obtain ⟨fuel, rfl⟩ := Nat.exists_eq_succ_of_ne_zero (by omega : fuel ≠ 0)
    have member : cell ∈ passed ++ cell :: rest := by simp
    have tall := (represents.heights cell member).1
    have node := represents.lookup member
    have pointer := represents.linked.holds.nextOf (mem_cons_of_mem _ member) tall
    have row : links (list.headCell :: (passed ++ cell :: rest)) cell.name 0 = successor rest 0 :=
      links_split represents.linked.distinct (cons_append ..).symm 0
    rw [row] at pointer
    have onward : list.Represents (passed ++ [cell] ++ rest) := by simpa using represents
    have later := ih onward (by omega : rest.length ≤ fuel)
    rw [successor_cons, if_pos tall, Iterator.keysFrom]
    simp only [Iterator.valid, isSome_some, if_true, Iterator.key, Iterator.next, node,
      pointer, Option.bind_eq_bind, Option.bind_some, later, Option.pure_def]
    rfl

theorem Represents.findLast_eq (represents : list.Represents cells) (enough : cells.length ≤ fuel) :
    list.findLast fuel = some (cells.getLast?.getD list.headCell).name := by
  have whole : list.Represents (cells ++ []) := by rwa [append_nil]
  have linked : Linked list.heap (list.headCell :: cells ++ []) := whole.linked
  have last := lastAbove_eq_getLast (fun cell member => (represents.heights cell member).1)
    list.headCell
  have advance : ∀ cell ∈ cells, turnToEnd (Cell.key cell) = .advance := fun _ _ => rfl
  have stop : ∀ cell ∈ ([] : List (Cell K V)), turnToEnd (Cell.key cell) = .stop := by
    rintro _ ⟨⟩
  have length : (cells ++ []).length ≤ fuel := by rwa [append_nil]
  rw [findLast, ← last]
  rcases Nat.lt_or_ge list.level kSkipListMaxLevel with below | full
  · have ended := linked.search_ended advance stop length below []
    rw [whole.lastAbove_eq_head (Nat.le_succ _)] at ended
    exact bind_eq_some_iff.mpr ⟨_, ended, rfl⟩
  · -- The first turn is skipped, as the head has no such level.
    have ended := linked.search_ended advance stop length represents.level.2 [none]
    rw [whole.lastAbove_eq_head (Nat.le_refl _)] at ended
    have node := represents.linked.holds list.headCell mem_cons_self
    have skipped : search turnToEnd list.heap fuel (list.level + 1) list.head [] =
        search turnToEnd list.heap fuel list.level list.head [none] := by
      have begins : list.headCell.name = list.head := rfl
      rw [search, ← begins, node, Option.bind_eq_bind, Option.bind_some]
      exact if_pos full
    rw [skipped]
    exact bind_eq_some_iff.mpr ⟨_, ended, rfl⟩

theorem Represents.seekToFirst_eq (represents : list.Represents cells) :
    Iterator.seekToFirst list = some ⟨successor cells 0⟩ := by
  have linked : Linked list.heap (list.headCell :: [] ++ cells) := represents.linked
  have pointer := linked.nextOf_lastAbove (k := 0) (Nat.succ_pos 39)
  exact bind_eq_some_iff.mpr ⟨_, pointer, rfl⟩

theorem Represents.seekToLast_eq (represents : list.Represents cells)
    (enough : cells.length ≤ fuel) :
    ∃ last, Iterator.seekToLast list fuel = some last ∧
      last.valid = (cells.map Cell.key).getLast?.isSome ∧
      last.key list = (cells.map Cell.key).getLast? := by
  rw [Iterator.seekToLast, represents.findLast_eq enough, List.getLast?_map]
  cases last : cells.getLast? with
  | none => exact ⟨⟨none⟩, by simp [headCell], rfl, rfl⟩
  | some cell =>
    have member : cell ∈ cells := mem_of_getLast? last
    have different : cell.name ≠ list.head := by
      intro same
      have distinct := represents.linked.distinct
      rw [map_cons, nodup_cons] at distinct
      exact distinct.1 (mem_map.mpr ⟨cell, member, same⟩)
    refine ⟨⟨some cell.name⟩, by simp [different], rfl, ?_⟩
    rw [Iterator.key]
    simp only [Option.bind_eq_bind, Option.bind_some, represents.lookup member]
    rfl

/-- A skip list does what a finite map does, whatever levels and memory its nodes get, and its
iterator meets the keys of the map in order. -/
theorem skip_list_refines_map (malloc : Malloc K V) (operations : List (Operation K V)) (fuel : Nat)
    (enough : operations.length ≤ fuel) :
    ∃ list, (create malloc).execute fuel operations =
        some ((executeMap operations fun _ => none).1, list) ∧
      (∀ key, list.find fuel key = some ((executeMap operations fun _ => none).2 key) ∧
        list.has fuel key = some ((executeMap operations fun _ => none).2 key).isSome) ∧
      ∃ keys : List K, keys.Pairwise (· < ·) ∧
        (∀ key, key ∈ keys ↔ ((executeMap operations fun _ => none).2 key).isSome) ∧
        list.size = keys.length ∧
        (∃ first, Iterator.seekToFirst list = some first ∧ first.keysFrom list fuel = some keys) ∧
        ∃ last, Iterator.seekToLast list fuel = some last ∧
          last.valid = keys.getLast?.isSome ∧ last.key list = keys.getLast? := by
  obtain ⟨list, cells, executed, represents, same, length⟩ :=
    (represents_create malloc).execute operations (by simpa using enough : _ ≤ fuel)
  have fresh : contents ([] : List (Cell K V)) = fun _ => none := rfl
  rw [fresh] at executed same
  rw [← same]
  refine ⟨list, executed, fun key => ⟨represents.find_eq length key, represents.has_eq length key⟩,
    cells.map Cell.key, ?_, fun key => (isSome_contents cells key).symm, ?_, ?_, ?_⟩
  · exact pairwise_map.mpr represents.sorted
  · rw [represents.size, length_map]
  · have whole : list.Represents ([] ++ cells) := represents
    exact ⟨_, represents.seekToFirst_eq, whole.keysFrom_eq length⟩
  · exact represents.seekToLast_eq length

theorem skip_list_refines_map_levels :
    let operations : List (Operation Nat Nat) :=
      [.insert 2 20 ⟨1, by decide, by decide⟩ default, .insert 1 10 ⟨3, by decide, by decide⟩ default,
        .insert 3 30 ⟨2, by decide, by decide⟩ default, .remove 2]
    ∃ list, (create default).execute 4 operations = some ([none, none, none, some 20], list) ∧
      list.find 4 1 = some (some 10) ∧ list.has 4 2 = some false := by
  intro operations
  obtain ⟨list, executed, answers, _⟩ := skip_list_refines_map default operations 4 (Nat.le_refl 4)
  exact ⟨list, executed, (answers 1).1, (answers 2).2⟩

end SkipList

end Bitdb.Ds
