import Bitdb.Ds.SkipListRefinement
import Mathlib.Data.List.Sort

/-! Iteration depends on the entries of a skip list only. The head is the place in front of the
first entry, and behind the last one an iterator is not valid. When a list after `Clear` is like a
new one. `Clear` does not change the map. -/

set_option autoImplicit false

namespace Bitdb.Ds.SkipList

open Base Base.Levels List Option Iterator

section Entries

variable {K V : Type} [LinearOrder K] {cells front back : List (Cell K V)} {key : K}

def entriesOf (cells : List (Cell K V)) : List (K × V) := cells.map Item.content

theorem findIdx_entriesOf (different : ∀ cell ∈ front, Cell.key cell ≠ key) :
    (entriesOf front).findIdx (·.1 = key) = front.length := by
  have missing : ∀ entry ∈ entriesOf front, decide (entry.1 = key) = false := by
    intro entry member
    obtain ⟨cell, stored, rfl⟩ := mem_map.mp member
    exact decide_eq_false (different cell stored)
  rw [findIdx_eq_length.mpr missing, entriesOf, length_map]

theorem countP_entriesOf (smaller : ∀ cell ∈ front, Cell.key cell < key)
    (larger : ∀ cell ∈ back, key ≤ Cell.key cell) :
    (entriesOf (front ++ back)).countP (·.1 < key) = front.length := by
  have all : front.countP (fun cell => Cell.key cell < key) = front.length :=
    countP_eq_length.mpr fun cell member => decide_eq_true (smaller cell member)
  have none : back.countP (fun cell => Cell.key cell < key) = 0 := by
    refine countP_eq_zero.mpr fun cell member => ?_
    rw [decide_eq_true_iff]
    exact (larger cell member).not_gt
  rw [entriesOf, countP_map, countP_append]
  exact congrArg₂ (· + ·) all none

end Entries

variable {K V : Type} [LinearOrder K] [Inhabited K] [Inhabited V]

/-- What an iterator can stand on. The head shows the default key and value. -/
def stations (entries : List (K × V)) : List (K × V) := (default, default) :: entries

def moveTo (entries : List (K × V)) (place : Nat) : Iterator.Move K → Option Nat
  | .seekToFirst => some 1
  | .seekToLast => some (max 1 entries.length)
  | .seek target => some (entries.findIdx (·.1 = target) + 1)
  | .next => (stations entries)[place]?.map fun _ => place + 1
  | .prev => (stations entries)[place]?.map fun entry => entries.countP (·.1 < entry.1)

def visit (entries : List (K × V)) : List (Iterator.Move K) → Nat → Option (List (Option (K × V)))
  | [], _ => some []
  | move :: moves, place => do
      let place ← moveTo entries place move
      return (stations entries)[place]? :: (← visit entries moves place)

variable {list : SkipList K V} {cells front back : List (Cell K V)} {cell : Cell K V}
  {key : K} {fuel place : Nat}

def iteratorAt (list : SkipList K V) (cells : List (Cell K V)) (place : Nat) : Iterator :=
  ⟨(list.headCell :: cells)[place]?.map Item.name⟩

omit [LinearOrder K] in
theorem getElem?_stations (list : SkipList K V) (cells : List (Cell K V)) (place : Nat) :
    (stations (entriesOf cells))[place]? = (list.headCell :: cells)[place]?.map Item.content := by
  rw [← List.getElem?_map]
  rfl

omit [LinearOrder K] in
theorem iteratorAt_cell (list : SkipList K V) (front back : List (Cell K V)) (cell : Cell K V) :
    iteratorAt list (front ++ cell :: back) (front.length + 1) = ⟨some cell.name⟩ := by
  simp [iteratorAt]

omit [LinearOrder K] in
theorem iteratorAt_behind (list : SkipList K V) (cells : List (Cell K V)) :
    iteratorAt list cells (cells.length + 1) = .create := by
  simp [iteratorAt, Iterator.create]

section

variable (represents : list.Represents cells)

include represents

theorem Represents.lookup_station (there : (list.headCell :: cells)[place]? = some cell) :
    list.heap.lookup cell.name = some (Cell.node cell (links (list.headCell :: cells) cell.name)) :=
  represents.linked.holds cell (mem_of_getElem? there)

theorem Represents.entry_eq :
    (iteratorAt list cells place).entry list = some (stations (entriesOf cells))[place]? := by
  rw [getElem?_stations list, iteratorAt]
  cases there : (list.headCell :: cells)[place]? with
  | none => rfl
  | some cell =>
    have node := represents.lookup_station there
    simp only [entry, valid, map_some, isSome_some, ↓reduceIte,
      key, value, bind_eq_bind, bind_some, node]
    rfl

theorem Represents.successor_drop (place : Nat) :
    successor (cells.drop place) 0 = (list.headCell :: cells)[place + 1]?.map Item.name := by
  rw [List.getElem?_cons_succ, ← List.head?_drop]
  cases later : cells.drop place with
  | nil => rfl
  | cons cell rest =>
    have member : cell ∈ cells := mem_of_mem_drop (later ▸ mem_cons_self)
    rw [successor_cons, if_pos (represents.heights cell member).1]
    rfl

theorem Represents.tall (member : cell ∈ list.headCell :: cells) : 0 < cell.height := by
  rcases mem_cons.mp member with rfl | stored
  · exact Nat.succ_pos 39
  · exact (represents.heights cell stored).1

theorem Represents.seekToFirst_at : seekToFirst list = some (iteratorAt list cells 1) := by
  rw [represents.seekToFirst_eq, iteratorAt, ← represents.successor_drop 0, drop_zero]

theorem Represents.next_at :
    (iteratorAt list cells place).next list =
      (stations (entriesOf cells))[place]?.map fun _ => iteratorAt list cells (place + 1) := by
  rw [getElem?_stations list]
  cases there : (list.headCell :: cells)[place]? with
  | none => simp only [iteratorAt, there, Iterator.next, map_none]; rfl
  | some cell =>
    have member : cell ∈ list.headCell :: cells := mem_of_getElem? there
    obtain ⟨inside, same⟩ := List.getElem?_eq_some_iff.mp there
    have split : list.headCell :: cells =
        (list.headCell :: cells).take place ++ cell :: cells.drop place := by
      have rest : cells.drop place = (list.headCell :: cells).drop (place + 1) := rfl
      rw [rest, ← same, getElem_cons_drop, take_append_drop]
    have pointer := represents.linked.holds.nextOf member (represents.tall member)
    rw [links_split represents.linked.distinct split, represents.successor_drop] at pointer
    simp only [iteratorAt, there, Iterator.next, map_some, bind_eq_bind, bind_some, pointer]
    rfl

theorem Represents.seekToLast_at (enough : cells.length ≤ fuel) :
    seekToLast list fuel = some (iteratorAt list cells (max 1 (entriesOf cells).length)) := by
  rw [seekToLast, represents.findLast_eq enough, entriesOf, length_map]
  rcases eq_nil_or_concat cells with rfl | ⟨front, cell, rfl⟩
  · simp [iteratorAt, headCell]
  · have different : cell.name ≠ list.head := by
      intro same
      have distinct := represents.linked.distinct
      rw [map_cons, nodup_cons] at distinct
      exact distinct.1 (mem_map.mpr ⟨cell, by simp, same⟩)
    simp [iteratorAt, different]

variable (enough : cells.length ≤ fuel)

include enough

theorem Represents.seek_at (target : K) :
    seek list fuel target =
      some (iteratorAt list cells ((entriesOf cells).findIdx (·.1 = target) + 1)) := by
  rcases exists_split represents.sorted target with ⟨front, back, rfl, smaller, larger⟩ |
    ⟨front, cell, back, rfl, smaller, rfl, larger⟩
  · have different : ∀ cell ∈ front ++ back, Cell.key cell ≠ target := by
      intro cell member
      rcases mem_append.mp member with before | behind
      · exact (smaller cell before).ne
      · exact (larger cell behind).ne'
    rw [seek, represents.findRemovePoint_absent smaller larger enough,
      findIdx_entriesOf different, iteratorAt_behind]
    rfl
  · have before := findIdx_entriesOf fun other member => (smaller other member).ne
    have place : (entriesOf (front ++ cell :: back)).findIdx (·.1 = Cell.key cell) =
        front.length := by
      have here : (entriesOf (cell :: back)).findIdx (·.1 = Cell.key cell) = 0 := by
        simp [entriesOf, Cell.key, findIdx_cons]
      rw [entriesOf, map_append]
      change List.findIdx _ (entriesOf front ++ entriesOf (cell :: back)) = _
      rw [findIdx_append, before, here]
      simp [entriesOf]
    rw [seek, represents.findRemovePoint_present smaller larger enough, place, iteratorAt_cell]
    rfl

theorem Represents.prev_at :
    (iteratorAt list cells place).prev list fuel =
      (stations (entriesOf cells))[place]?.map fun entry =>
        iteratorAt list cells ((entriesOf cells).countP (·.1 < entry.1)) := by
  rw [getElem?_stations list]
  cases there : (list.headCell :: cells)[place]? with
  | none => simp only [iteratorAt, there, Iterator.prev, map_none]; rfl
  | some cell =>
    have node := represents.lookup_station there
    obtain ⟨front, back, rfl, smaller, larger⟩ :
        ∃ front back, cells = front ++ back ∧ (∀ other ∈ front, Cell.key other < Cell.key cell) ∧
          ∀ other ∈ back, Cell.key cell ≤ Cell.key other := by
      rcases exists_split represents.sorted (Cell.key cell) with
        ⟨front, back, split, smaller, larger⟩ | ⟨front, same, back, split, smaller, equal, larger⟩
      · exact ⟨front, back, split, smaller, fun other member => (larger other member).le⟩
      · refine ⟨front, same :: back, split, smaller, fun other member => ?_⟩
        rcases mem_cons.mp member with rfl | later
        · exact equal.ge
        · exact (larger other later).le
    have prevs := represents.findPrevNodes_eq smaller larger enough
    have last : lastAbove 0 list.headCell front = front.getLast?.getD list.headCell :=
      lastAbove_eq_getLast (fun other member =>
        (represents.heights other (mem_append_left _ member)).1) _
    have station : (list.headCell :: (front ++ back))[front.length]? =
        some (front.getLast?.getD list.headCell) := by
      rcases eq_nil_or_concat front with rfl | ⟨earlier, final, rfl⟩
      · rfl
      · simp
    have spot : iteratorAt list (front ++ back) front.length =
        ⟨some (lastAbove 0 list.headCell front).name⟩ := by
      rw [iteratorAt, station, last]
      rfl
    have count := countP_entriesOf smaller larger
    have first : ((List.range list.level).map fun i =>
        some (lastAbove i list.headCell front).name)[0]? =
          some (some (lastAbove 0 list.headCell front).name) := by
      simp [represents.level.1]
    have same : (Cell.node cell (links (list.headCell :: (front ++ back)) cell.name)).key =
      Cell.key cell := rfl
    rw [map_some, map_some]
    change _ = some (iteratorAt list (front ++ back)
      ((entriesOf (front ++ back)).countP (·.1 < Cell.key cell)))
    rw [count, spot]
    simp only [Iterator.prev, iteratorAt, there, map_some, bind_eq_bind,
      bind_some, node, same, prevs, first]
    rfl

theorem Represents.move_at (move : Iterator.Move K) :
    (iteratorAt list cells place).move list fuel move =
      (moveTo (entriesOf cells) place move).map (iteratorAt list cells) := by
  cases move with
  | seekToFirst => exact represents.seekToFirst_at
  | seekToLast => exact represents.seekToLast_at enough
  | seek target => exact represents.seek_at enough target
  | next =>
    rw [moveTo, Option.map_map]
    exact represents.next_at
  | prev =>
    rw [moveTo, Option.map_map]
    exact represents.prev_at enough

theorem Represents.follow_eq (moves : List (Iterator.Move K)) (place : Nat) :
    follow list fuel moves (iteratorAt list cells place) = visit (entriesOf cells) moves place := by
  induction moves generalizing place with
  | nil => rfl
  | cons move moves ih =>
    rw [follow, represents.move_at enough, visit]
    cases moveTo (entriesOf cells) place move with
    | none => rfl
    | some place =>
      simp only [map_some, bind_eq_bind, bind_some, represents.entry_eq, ih]

theorem Represents.follow_create (moves : List (Iterator.Move K)) :
    follow list fuel moves .create =
      visit (entriesOf cells) moves ((entriesOf cells).length + 1) := by
  have begins : iteratorAt list cells ((entriesOf cells).length + 1) = .create := by
    rw [entriesOf, length_map, iteratorAt_behind]
  rw [← begins, represents.follow_eq enough]

end

section Backward

section

variable (represents : list.Represents (front ++ cell :: back))

include represents

theorem Represents.seek_cell (enough : (front ++ cell :: back).length ≤ fuel) :
    seek list fuel (Cell.key cell) =
      some (iteratorAt list (front ++ cell :: back) (front.length + 1)) := by
  obtain ⟨-, later, before⟩ := pairwise_append.mp represents.sorted
  have smaller : ∀ other ∈ front, Cell.key other < Cell.key cell := fun other member =>
    before other member cell mem_cons_self
  have larger := (pairwise_cons.mp later).1
  rw [seek, represents.findRemovePoint_present smaller larger enough, iteratorAt_cell]
  rfl

theorem Represents.prev_cell (enough : (front ++ cell :: back).length ≤ fuel) :
    (iteratorAt list (front ++ cell :: back) (front.length + 1)).prev list fuel =
      some (iteratorAt list (front ++ cell :: back) front.length) := by
  obtain ⟨-, later, before⟩ := pairwise_append.mp represents.sorted
  have smaller : ∀ other ∈ front, Cell.key other < Cell.key cell := fun other member =>
    before other member cell mem_cons_self
  have larger : ∀ other ∈ cell :: back, Cell.key cell ≤ Cell.key other := by
    intro other member
    rcases mem_cons.mp member with rfl | greater
    · exact le_refl _
    · exact ((pairwise_cons.mp later).1 other greater).le
  have station : (stations (entriesOf (front ++ cell :: back)))[front.length + 1]? =
      some cell.content := by
    simp [getElem?_stations list]
  have count := countP_entriesOf smaller larger
  rw [represents.prev_at enough, station, map_some]
  exact congrArg (fun place => some (iteratorAt list _ place)) count

theorem Represents.next_cell :
    (iteratorAt list (front ++ cell :: back) (front.length + 1)).next list =
      some (iteratorAt list (front ++ cell :: back) (front.length + 2)) := by
  have station : (stations (entriesOf (front ++ cell :: back)))[front.length + 1]? =
      some cell.content := by
    simp [getElem?_stations list]
  rw [represents.next_at, station]
  rfl

theorem Represents.key_cell :
    (iteratorAt list (front ++ cell :: back) (front.length + 1)).key list =
      some (Cell.key cell) := by
  have node := represents.lookup (by simp : cell ∈ front ++ cell :: back)
  rw [iteratorAt_cell, key]
  simp only [bind_eq_bind, bind_some, node]
  rfl

end

omit [LinearOrder K] in
theorem valid_iteratorAt (list : SkipList K V) (inside : place ≤ cells.length) :
    (iteratorAt list cells place).valid = true := by
  have there : place < (list.headCell :: cells).length := Nat.lt_succ_of_le inside
  simp [iteratorAt, Iterator.valid, List.getElem?_eq_getElem there]

theorem Represents.keysBack_diverges (represents : list.Represents cells)
    (enough : cells.length ≤ fuel) (turns : Nat) (inside : place ≤ cells.length) :
    (iteratorAt list cells place).keysBack list fuel turns = none := by
  induction turns generalizing place with
  | zero => simp [keysBack, valid_iteratorAt list inside]
  | succ turns ih =>
    have there : place < (stations (entriesOf cells)).length := by
      rw [stations, length_cons, entriesOf, length_map]
      omega
    have count : (entriesOf cells).countP
        (fun other => decide (other.1 < (stations (entriesOf cells))[place].1)) ≤ cells.length := by
      refine countP_le_length.trans ?_
      rw [entriesOf, length_map]
    rw [keysBack, if_pos (valid_iteratorAt list inside), represents.prev_at enough,
      List.getElem?_eq_getElem there]
    cases (iteratorAt list cells place).key list with
    | none => rfl
    | some key =>
      simp only [map_some, bind_eq_bind, bind_some, ih count, bind_none]

section Neighbours

variable {next : Cell K V}

theorem Represents.next_neighbour (represents : list.Represents (front ++ cell :: next :: back))
    (enough : (front ++ cell :: next :: back).length ≤ fuel) :
    ∃ here there, seek list fuel (Cell.key cell) = some here ∧
      here.key list = some (Cell.key cell) ∧ here.next list = some there ∧
      there.key list = some (Cell.key next) ∧ there.prev list fuel = some here := by
  have shifted : front ++ cell :: next :: back = (front ++ [cell]) ++ next :: back := by simp
  have behind : (front ++ [cell]).length + 1 = front.length + 2 := by simp
  refine ⟨_, _, represents.seek_cell enough, represents.key_cell, represents.next_cell, ?_, ?_⟩
  · rw [shifted] at represents ⊢
    rw [← behind]
    exact represents.key_cell
  · rw [shifted] at represents enough ⊢
    rw [← behind, represents.prev_cell enough, length_append]
    rfl

theorem Represents.prev_neighbour (represents : list.Represents (front ++ cell :: next :: back))
    (enough : (front ++ cell :: next :: back).length ≤ fuel) :
    ∃ here there, seek list fuel (Cell.key next) = some here ∧
      here.prev list fuel = some there ∧ there.valid ∧ there.key list = some (Cell.key cell) := by
  have shifted : front ++ cell :: next :: back = (front ++ [cell]) ++ next :: back := by simp
  have behind : (front ++ [cell]).length = front.length + 1 := by simp
  have key := represents.key_cell
  have inside : front.length + 1 ≤ (front ++ cell :: next :: back).length := by simp
  have valid := valid_iteratorAt list inside
  rw [shifted] at represents enough key valid
  refine ⟨_, _, represents.seek_cell enough, represents.prev_cell enough, ?_, ?_⟩
  · rw [behind]
    exact valid
  · rw [behind]
    exact key

omit [LinearOrder K] [Inhabited K] [Inhabited V] in
theorem exists_neighbours {before after : List K} {smaller greater : K}
    (split : cells.map Cell.key = before ++ smaller :: greater :: after) :
    ∃ front cell next back, cells = front ++ cell :: next :: back ∧
      Cell.key cell = smaller ∧ Cell.key next = greater := by
  obtain ⟨front, others, whole, -, rest⟩ := map_eq_append_iff.mp split
  obtain ⟨cell, others, rfl, same, rest⟩ := map_eq_cons_iff.mp rest
  obtain ⟨next, back, rfl, follows, -⟩ := map_eq_cons_iff.mp rest
  exact ⟨front, cell, next, back, whole, same, follows⟩

end Neighbours

/-- `Next` and `Prev` are inverse to each other between the keys of a list. Before the first key
`Prev` moves on to the head, so that the way back ends only if there is no key at all. -/
theorem backward_iteration_iff (malloc : Malloc K V) (operations : List (Operation K V))
    (fuel : Nat) (enough : operations.length ≤ fuel) :
    ∃ results list, (create malloc).execute fuel operations = some (results, list) ∧
      ∃ keys : List K, keys.Pairwise (· < ·) ∧
        (∀ key, key ∈ keys ↔ ((executeMap operations fun _ => none).2 key).isSome) ∧
        (∀ front key greater back, keys = front ++ key :: greater :: back →
          ∃ here there, Iterator.seek list fuel key = some here ∧ here.key list = some key ∧
            here.next list = some there ∧ there.key list = some greater ∧
            there.prev list fuel = some here) ∧
        (∀ front smaller key back, keys = front ++ smaller :: key :: back →
          ∃ here there, Iterator.seek list fuel key = some here ∧
            here.prev list fuel = some there ∧ there.valid ∧ there.key list = some smaller) ∧
        ((∀ least back, keys = least :: back →
          ∃ here there, Iterator.seek list fuel least = some here ∧
            here.prev list fuel = some there ∧ there.valid = false) ↔ keys = []) ∧
        ((∃ last turns, Iterator.seekToLast list fuel = some last ∧
          last.keysBack list fuel turns = some keys.reverse) ↔ keys = []) := by
  obtain ⟨list, cells, executed, represents, same, length⟩ :=
    (represents_create malloc).execute operations (by simpa using enough : _ ≤ fuel)
  have fresh : contents ([] : List (Cell K V)) = fun _ => none := rfl
  rw [fresh] at executed same
  rw [← same]
  refine ⟨_, list, executed, cells.map Cell.key, pairwise_map.mpr represents.sorted,
    fun key => (isSome_contents cells key).symm, ?_, ?_, ?_, ?_⟩
  · intro front key greater back split
    obtain ⟨before, cell, next, after, rfl, rfl, rfl⟩ := exists_neighbours split
    exact represents.next_neighbour length
  · intro front smaller key back split
    obtain ⟨before, cell, next, after, rfl, rfl, rfl⟩ := exists_neighbours split
    exact represents.prev_neighbour length
  · constructor
    · intro ends
      cases cells with
      | nil => rfl
      | cons cell cells =>
        have whole : list.Represents ([] ++ cell :: cells) := represents
        obtain ⟨here, there, sought, moved, invalid⟩ := ends _ _ map_cons
        rw [whole.seek_cell length] at sought
        cases sought
        rw [whole.prev_cell length] at moved
        cases moved
        cases (valid_iteratorAt list (Nat.zero_le _)).symm.trans invalid
    · intro none least back some
      rw [none] at some
      cases some
  · rw [represents.seekToLast_at length]
    constructor
    · rintro ⟨last, turns, ⟨⟩, visited⟩
      cases cells with
      | nil => rfl
      | cons cell cells =>
        rw [represents.keysBack_diverges length turns (by simp [entriesOf])] at visited
        cases visited
    · intro none
      rw [map_eq_nil_iff] at none
      subst none
      exact ⟨_, 0, rfl, rfl⟩

theorem backward_iteration_two_keys :
    let operations : List (Operation Nat Nat) :=
      [.insert 5 50 ⟨1, by decide, by decide⟩ default, .insert 3 30 ⟨2, by decide, by decide⟩ default]
    ∃ results list, (create default).execute 2 operations = some (results, list) ∧
      ∃ here there, Iterator.seek list 2 5 = some here ∧ here.prev list 2 = some there ∧
        there.key list = some 3 := by
  intro operations
  obtain ⟨results, list, executed, keys, sorted, stored, -, smaller, -⟩ :=
    backward_iteration_iff default operations 2 (Nat.le_refl 2)
  have both : keys = [3, 5] := by
    refine List.Pairwise.eq_of_mem_iff sorted (by decide) fun key => (stored key).trans ?_
    simp only [operations, executeMap, Function.update_apply, mem_cons, not_mem_nil]
    split
    · simp [*]
    · split
      · simp [*]
      · simp [*]
  obtain ⟨here, there, sought, moved, -, key⟩ := smaller [] 3 5 [] both
  exact ⟨results, list, executed, here, there, sought, moved, key⟩

theorem prev_from_least_key :
    let operations : List (Operation Nat Nat) := [.insert 7 70 ⟨1, by decide, by decide⟩ default]
    (do
      let (_, list) ← (create default).execute 1 operations
      let here ← Iterator.seek list 1 7
      let there ← here.prev list 1
      return (there.valid, ← there.key list)) = some (true, 0) := by
  decide +kernel

end Backward

open SkipList

section Entries

variable {K V : Type} [LinearOrder K] {cells others : List (Cell K V)}

variable (sorted : cells.Pairwise fun first second => Cell.key first < Cell.key second)

include sorted

theorem mem_entriesOf_iff (entry : K × V) :
    entry ∈ entriesOf cells ↔ contents cells entry.1 = some entry.2 := by
  rcases exists_split sorted entry.1 with ⟨front, back, rfl, smaller, larger⟩ |
    ⟨front, cell, back, rfl, smaller, equal, larger⟩
  · rw [contents_absent smaller larger]
    refine ⟨fun member => ?_, by rintro ⟨⟩⟩
    obtain ⟨cell, stored, rfl⟩ := mem_map.mp member
    rcases mem_append.mp stored with before | behind
    · exact absurd (smaller cell before) (lt_irrefl _)
    · exact absurd (larger cell behind) (lt_irrefl _)
  · rw [← equal] at smaller larger ⊢
    rw [contents_present smaller, Option.some.injEq]
    constructor
    · intro member
      obtain ⟨other, stored, rfl⟩ := mem_map.mp member
      rcases mem_append.mp stored with before | behind
      · exact absurd equal (smaller other before).ne'
      · rcases mem_cons.mp behind with rfl | later
        · rfl
        · exact absurd equal (larger other later).ne
    · intro same
      have whole : entry = cell.content := Prod.ext equal.symm same.symm
      rw [whole]
      exact mem_map_of_mem (by simp)

theorem entriesOf_eq
    (otherSorted : others.Pairwise fun first second => Cell.key first < Cell.key second)
    (same : contents cells = contents others) : entriesOf cells = entriesOf others := by
  let before (first second : K × V) : Prop := first.1 < second.1
  have : Std.Antisymm before := ⟨fun _ _ less more => absurd more less.not_gt⟩
  have : Std.Irrefl before := ⟨fun _ => lt_irrefl _⟩
  have ascending : (entriesOf cells).Pairwise before := pairwise_map.mpr sorted
  have otherAscending : (entriesOf others).Pairwise before := pairwise_map.mpr otherSorted
  refine List.Pairwise.eq_of_mem_iff ascending otherAscending fun entry => ?_
  rw [mem_entriesOf_iff sorted, mem_entriesOf_iff otherSorted, same]

end Entries

variable {K V : Type} [LinearOrder K] [Inhabited K] [Inhabited V] {first second : SkipList K V}
  {fuel bound : Nat}

/-- Two lists with the same map of at most so many keys. -/
def Alike (bound : Nat) (first second : SkipList K V) : Prop :=
  ∃ cells others, first.Represents cells ∧ second.Represents others ∧
    contents cells = contents others ∧ cells.length ≤ bound

theorem Alike.grow {more : Nat} (alike : Alike bound first second) (less : bound ≤ more) :
    Alike more first second := by
  obtain ⟨cells, others, represents, otherRepresents, same, length⟩ := alike
  exact ⟨cells, others, represents, otherRepresents, same, length.trans less⟩

theorem Alike.call (alike : Alike bound first second) (enough : bound ≤ fuel) (call : Call K V) :
    (first.call fuel call = none ∧ second.call fuel call = none) ∨
      ∃ answer reached otherReached, first.call fuel call = some (answer, reached) ∧
        second.call fuel call = some (answer, otherReached) ∧
        Alike (bound + 1) reached otherReached := by
  have kept := alike.grow (Nat.le_succ bound)
  obtain ⟨cells, others, represents, otherRepresents, same, length⟩ := alike
  have entries := entriesOf_eq represents.sorted otherRepresents.sorted same
  have lengths : cells.length = others.length := by
    simpa [entriesOf] using congrArg List.length entries
  have fits : cells.length ≤ fuel := length.trans enough
  have otherFits : others.length ≤ fuel := lengths ▸ fits
  cases call with
  | insert key value level malloc =>
    obtain ⟨reached, grown, inserted, shows, updated, longer⟩ :=
      represents.insert fits key value level malloc
    obtain ⟨otherReached, otherGrown, otherInserted, otherShows, otherUpdated, -⟩ :=
      otherRepresents.insert otherFits key value level malloc
    refine .inr ⟨.inserted, reached, otherReached, ?_, ?_, grown, otherGrown, shows, otherShows,
      by rw [updated, otherUpdated, same], by omega⟩
    · rw [SkipList.call, inserted]
      rfl
    · rw [SkipList.call, otherInserted]
      rfl
  | remove key =>
    obtain ⟨reached, left, removed, shows, updated, shorter⟩ := represents.remove fits key
    obtain ⟨otherReached, otherLeft, otherRemoved, otherShows, otherUpdated, -⟩ :=
      otherRepresents.remove otherFits key
    refine .inr ⟨.removed (contents cells key), reached, otherReached, ?_, ?_, left, otherLeft,
      shows, otherShows, by rw [updated, otherUpdated, same], by omega⟩
    · rw [SkipList.call, removed]
      rfl
    · rw [SkipList.call, otherRemoved, same]
      rfl
  | find key =>
    refine .inr ⟨.found (contents cells key), first, second, ?_, ?_, kept⟩
    · rw [SkipList.call, represents.find_eq fits]
      rfl
    · rw [SkipList.call, otherRepresents.find_eq otherFits, same]
      rfl
  | has key =>
    refine .inr ⟨.has (contents cells key).isSome, first, second, ?_, ?_, kept⟩
    · rw [SkipList.call, represents.has_eq fits]
      rfl
    · rw [SkipList.call, otherRepresents.has_eq otherFits, same]
      rfl
  | size =>
    refine .inr ⟨.size cells.length, first, second, ?_, ?_, kept⟩
    · rw [SkipList.call, represents.size]
    · rw [SkipList.call, otherRepresents.size, lengths]
  | iterate moves =>
    rw [SkipList.call, SkipList.call, represents.follow_create fits,
      otherRepresents.follow_create otherFits, ← entries]
    cases visit (entriesOf cells) moves ((entriesOf cells).length + 1) with
    | none => exact .inl ⟨rfl, rfl⟩
    | some shown => exact .inr ⟨.iterated shown, first, second, rfl, rfl, kept⟩

theorem Alike.answers (calls : List (Call K V)) (alike : Alike bound first second)
    (enough : bound + calls.length ≤ fuel) :
    first.answers fuel calls = second.answers fuel calls := by
  induction calls generalizing first second bound with
  | nil => rfl
  | cons call calls ih =>
    rw [length_cons] at enough
    rw [answers, answers]
    rcases alike.call (by omega : bound ≤ fuel) call with ⟨stopped, otherStopped⟩ |
      ⟨answer, reached, otherReached, answered, otherAnswered, later⟩
    · rw [stopped, otherStopped]
    · rw [answered, otherAnswered]
      simp only [bind_eq_bind, bind_some, ih later (by omega)]

theorem Represents.clear_nil {list : SkipList K V} (represents : list.Represents []) :
    list.clear.Represents [] where
  linked := represents.linked
  sorted := List.Pairwise.nil
  heights := by rintro _ ⟨⟩
  level := ⟨Nat.one_pos, (by decide : 1 ≤ kSkipListMaxLevel)⟩
  size := rfl

section

variable {cells : List (Cell K V)} {list : SkipList K V} (represents : list.Represents cells)

include represents

theorem Represents.first_shown (fuel : Nat) :
    follow list fuel [.seekToFirst] .create = some [(entriesOf cells)[0]?] := by
  have entry : (iteratorAt list cells 1).entry list = some (entriesOf cells)[0]? :=
    represents.entry_eq
  rw [follow, move, represents.seekToFirst_at]
  simp only [bind_eq_bind, bind_some, entry]
  rfl

theorem Represents.clear_first (fuel : Nat) :
    list.clear.answers fuel [.iterate [.seekToFirst]] =
      some [.iterated [(entriesOf cells)[0]?]] := by
  have same : follow list.clear fuel [.seekToFirst] .create =
      follow list fuel [.seekToFirst] .create := rfl
  rw [answers, SkipList.call, same, represents.first_shown]
  rfl

theorem Represents.answers_first (fuel : Nat) :
    list.answers fuel [.iterate [.seekToFirst]] = some [.iterated [(entriesOf cells)[0]?]] := by
  rw [answers, SkipList.call, represents.first_shown]
  rfl

end

/-- A list after `Clear` answers like a new one exactly if it had no key before. -/
theorem clear_like_fresh_iff (malloc fresh : Malloc K V) (operations : List (Operation K V))
    (fuel : Nat) (enough : operations.length ≤ fuel) :
    ∃ results list, (create malloc).execute fuel operations = some (results, list) ∧
      ((∀ (calls : List (Call K V)) (steps : Nat), calls.length ≤ steps →
        list.clear.answers steps calls = (create fresh).answers steps calls) ↔
          ∀ key, (executeMap operations fun _ => none).2 key = none) := by
  obtain ⟨list, cells, executed, represents, same, length⟩ :=
    (represents_create malloc).execute operations (by simpa using enough : _ ≤ fuel)
  have empty : contents ([] : List (Cell K V)) = fun _ => none := rfl
  rw [empty] at executed same
  refine ⟨_, list, executed, ?_⟩
  rw [← same]
  constructor
  · intro alike
    cases cells with
    | nil => exact fun _ => rfl
    | cons cell cells =>
      have answered := alike [.iterate [.seekToFirst]] 1 (Nat.le_refl 1)
      rw [represents.clear_first, (represents_create fresh).answers_first] at answered
      cases answered
  · intro nothing calls steps room
    have none : cells = [] := by
      cases cells with
      | nil => rfl
      | cons cell cells =>
        have stored := (isSome_contents (cell :: cells) (Cell.key cell)).mpr mem_cons_self
        rw [nothing] at stored
        cases stored
    subst none
    have alike : Alike 0 list.clear (create fresh) :=
      ⟨[], [], represents.clear_nil, represents_create fresh, rfl, Nat.le_refl 0⟩
    exact alike.answers calls (by omega)

theorem clear_like_fresh_removed :
    let operations : List (Operation Nat Nat) :=
      [.insert 5 50 ⟨3, by decide, by decide⟩ default, .remove 5]
    ∃ results list, (create default).execute 2 operations = some (results, list) ∧
      ∀ (calls : List (Call Nat Nat)) (steps : Nat), calls.length ≤ steps →
        list.clear.answers steps calls = (create default).answers steps calls := by
  intro operations
  obtain ⟨results, list, executed, alike⟩ :=
    clear_like_fresh_iff default default operations 2 (Nat.le_refl 2)
  refine ⟨results, list, executed, alike.mpr fun key => ?_⟩
  simp only [operations, executeMap, Function.update_idem, Function.update_apply, ite_self]

/-- After `Clear` the key is still found, although the size is 0. -/
theorem clear_keeps_keys :
    let operations : List (Operation Nat Nat) := [.insert 1 10 ⟨1, by decide, by decide⟩ default]
    let calls : List (Call Nat Nat) := [.size, .has 1, .find 1]
    (do
      let (_, list) ← (create default).execute 1 operations
      list.clear.answers 3 calls) = some [.size 0, .has true, .found (some 10)] ∧
      (create default).answers 3 calls = some [.size 0, .has false, .found none] := by
  decide +kernel

end Bitdb.Ds.SkipList
