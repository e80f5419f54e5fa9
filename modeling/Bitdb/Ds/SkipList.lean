import Bitdb.Base.Levels
import Bitdb.Base.Loops
import Mathlib.Data.List.AList
import Mathlib.Logic.Function.Basic
import Mathlib.Order.Lattice

/-! The skip list (`bitdb/ds/skiplist.h`) with its nodes on a heap. A result is missing when the
code reads memory that is not there, or when a loop takes more turns than `fuel`. The nodes of a
skip list are a row of cells that are linked at every level. -/

set_option autoImplicit false

namespace Bitdb.Ds

open Base

abbrev Address := Nat

/-- `next` is the array behind the node, with one pointer per level. -/
structure Node (K V : Type) where
  key : K
  value : V
  level : Nat
  next : List (Option Address)
  deriving DecidableEq, Repr

abbrev Heap (K V : Type) := AList fun _ : Address => Node K V

/-- `std::malloc` may return any memory that is not in use. -/
structure Malloc (K V : Type) where
  address : Heap K V → Address
  unused : ∀ heap : Heap K V, heap.lookup (address heap) = none

def kSkipListMaxLevel : Nat := 40

/-- What `RandomLevel` may return. -/
structure NodeLevel where
  level : Nat
  positive : 0 < level
  bounded : level ≤ kSkipListMaxLevel

structure SkipList (K V : Type) where
  heap : Heap K V
  head : Address
  level : Nat
  size : Nat

/-- How the loop over one level goes on when it meets a key. -/
inductive Turn where
  | found
  | stop
  | advance
  deriving DecidableEq, Repr

inductive LevelEnd where
  | found (curr : Address)
  | ended (prev : Address)
  deriving DecidableEq, Repr

/-- Where the loops over all levels end, with `prevs` for the levels that were searched. -/
inductive SearchEnd where
  | found (curr : Address)
  | ended (prev : Address) (prevs : List (Option Address))
  deriving DecidableEq, Repr

def raiseLevel (draw : Nat → Nat) : Nat → Nat → Nat
  | 0, level => level
  | left + 1, level => if draw level % 4 = 0 then raiseLevel draw left (level + 1) else level

def randomLevel (draw : Nat → Nat) : Nat := raiseLevel draw (kSkipListMaxLevel - 1) 1

section Memory

variable {K V : Type}

def newNode (level : Nat) (key : K) (value : V) : Node K V :=
  ⟨key, value, level, List.replicate level none⟩

def nextOf (heap : Heap K V) (address : Address) (i : Nat) : Option (Option Address) := do
  let node ← heap.lookup address
  node.next[i]?

def setNext (heap : Heap K V) (address : Address) (i : Nat) (pointer : Option Address) :
    Option (Heap K V) := do
  let node ← heap.lookup address
  if i < node.next.length then
    some (heap.insert address { node with next := node.next.set i pointer })
  else none

/-- The inner loop of the functions that search. -/
def searchLevel (turn : K → Turn) (heap : Heap K V) (i : Nat) :
    Nat → Address → Option Address → Option LevelEnd
  | _, prev, none => some (.ended prev)
  | 0, _, some _ => none
  | fuel + 1, prev, some curr => do
      let node ← heap.lookup curr
      match turn node.key with
      | .found => some (.found curr)
      | .stop => some (.ended prev)
      | .advance =>
        let next ← node.next[i]?
        searchLevel turn heap i fuel curr next

/-- The outer loop of the functions that search, with the levels below the first argument to go.
A level that `prev` does not have leaves a null pointer in `prevs`. -/
def search (turn : K → Turn) (heap : Heap K V) (fuel : Nat) :
    Nat → Address → List (Option Address) → Option SearchEnd
  | 0, prev, prevs => some (.ended prev prevs)
  | i + 1, prev, prevs => do
      let node ← heap.lookup prev
      if node.level ≤ i then search turn heap fuel i prev (none :: prevs)
      else
        let first ← node.next[i]?
        match ← searchLevel turn heap i fuel prev first with
        | .found curr => some (.found curr)
        | .ended prev => search turn heap fuel i prev (some prev :: prevs)

/-- `node->next[i] = prevs[i]->next[i]; prevs[i]->next[i] = node;` -/
def link (prevs : List (Option Address)) (node : Address) (heap : Heap K V) (i : Nat) :
    Option (Heap K V) := do
  let prev ← (prevs[i]?).join
  let next ← nextOf heap prev i
  let heap ← setNext heap node i next
  setNext heap prev i (some node)

def unlink (prevs : List (Option Address)) (node : Address) (heap : Heap K V) (i : Nat) :
    Option (Heap K V) := do
  let next ← nextOf heap node i
  let prev ← (prevs[i]?).join
  setNext heap prev i next

/-- The loop of `Remove` that lowers `level_`. -/
def lowerLevel (heap : Heap K V) (head : Address) : Nat → Option Nat
  | level + 2 => do
      match ← nextOf heap head (level + 1) with
      | none => lowerLevel heap head (level + 1)
      | some _ => some (level + 2)
  | level => some level

end Memory

namespace SkipList

variable {K V : Type} [LinearOrder K]

def create [Inhabited K] [Inhabited V] (malloc : Malloc K V) : SkipList K V :=
  let head := malloc.address ∅
  { heap := (∅ : Heap K V).insert head (newNode kSkipListMaxLevel default default)
    head := head
    level := 1
    size := 0 }

/-- The loops of `FindNode` and `FindInsertPoint`. -/
def turnToKey (key other : K) : Turn :=
  if other = key then .found else if key < other then .stop else .advance

/-- The loop of `FindPrevNodes`. -/
def turnBefore (key other : K) : Turn := if key ≤ other then .stop else .advance

/-- The loop of `FindLast`. -/
def turnToEnd (_ : K) : Turn := .advance

def findNode (list : SkipList K V) (fuel : Nat) (key : K) : Option (Option Address) := do
  match ← search (turnToKey key) list.heap fuel list.level list.head [] with
  | .found curr => some (some curr)
  | .ended _ _ => some none

def findInsertPoint (list : SkipList K V) (fuel : Nat) (key : K) :
    Option (Option Address × List (Option Address)) := do
  match ← search (turnToKey key) list.heap fuel list.level list.head [] with
  | .found curr => some (some curr, [])
  | .ended _ prevs => some (none, prevs)

def findPrevNodes (list : SkipList K V) (fuel : Nat) (key : K) :
    Option (List (Option Address)) := do
  match ← search (turnBefore key) list.heap fuel list.level list.head [] with
  | .found _ => none
  | .ended _ prevs => some prevs

def findRemovePoint (list : SkipList K V) (fuel : Nat) (key : K) :
    Option (Option Address × List (Option Address)) := do
  let prevs ← list.findPrevNodes fuel key
  let prev ← (prevs[0]?).join
  match ← nextOf list.heap prev 0 with
  | none => some (none, [])
  | some curr =>
    let node ← list.heap.lookup curr
    if node.key ≠ key then some (none, []) else some (some curr, prevs)

/-- The loop begins one level above the others. -/
def findLast (list : SkipList K V) (fuel : Nat) : Option Address := do
  match ← search turnToEnd list.heap fuel (list.level + 1) list.head [] with
  | .found _ => none
  | .ended prev _ => some prev

def has (list : SkipList K V) (fuel : Nat) (key : K) : Option Bool := do
  return (← list.findNode fuel key).isSome

/-- `Find`, with what the pointer points at. -/
def find (list : SkipList K V) (fuel : Nat) (key : K) : Option (Option V) := do
  match ← list.findNode fuel key with
  | none => some none
  | some address =>
    let node ← list.heap.lookup address
    return some node.value

def insert (list : SkipList K V) (fuel : Nat) (key : K) (value : V) (level : Nat)
    (malloc : Malloc K V) : Option (SkipList K V) := do
  match ← list.findInsertPoint fuel key with
  | (some address, _) =>
    let node ← list.heap.lookup address
    return { list with heap := list.heap.insert address { node with value := value } }
  | (none, prevs) =>
    let address := malloc.address list.heap
    let heap := list.heap.insert address (newNode level key value)
    let heap ← forRange 0 (min level list.level) (link prevs address) heap
    let heap ← forRange list.level level
      (fun heap i => setNext heap list.head i (some address)) heap
    return { list with
      heap := heap, level := max level list.level, size := list.size + 1 }

def remove (list : SkipList K V) (fuel : Nat) (key : K) :
    Option (Option V × SkipList K V) := do
  match ← list.findRemovePoint fuel key with
  | (none, _) => some (none, list)
  | (some address, prevs) =>
    let node ← list.heap.lookup address
    let heap ← forRange 0 node.level (unlink prevs address) list.heap
    let heap := heap.erase address
    let level ← lowerLevel heap list.head list.level
    return (some node.value, { list with heap := heap, level := level, size := list.size - 1 })

def clear (list : SkipList K V) : SkipList K V := { list with level := 1, size := 0 }

/-- A call that changes the list, with the random level and the memory that it gets. -/
inductive Operation (K V : Type) where
  | insert (key : K) (value : V) (level : NodeLevel) (malloc : Malloc K V)
  | remove (key : K)

/-- What `Remove` returns for each of the calls, and the list after them. -/
def execute (fuel : Nat) : List (Operation K V) → SkipList K V →
    Option (List (Option V) × SkipList K V)
  | [], list => some ([], list)
  | .insert key value level malloc :: rest, list => do
      let list ← list.insert fuel key value level.level malloc
      let (results, list) ← execute fuel rest list
      return (none :: results, list)
  | .remove key :: rest, list => do
      let (result, list) ← list.remove fuel key
      let (results, list) ← execute fuel rest list
      return (result :: results, list)

def executeMap : List (Operation K V) → (K → Option V) → List (Option V) × (K → Option V)
  | [], map => ([], map)
  | .insert key value _ _ :: rest, map =>
    let (results, map) := executeMap rest (Function.update map key (some value))
    (none :: results, map)
  | .remove key :: rest, map =>
    let (results, reached) := executeMap rest (Function.update map key none)
    (map key :: results, reached)

structure Iterator where
  node : Option Address
  deriving DecidableEq, Repr

namespace Iterator

def create : Iterator := ⟨none⟩

def valid (iter : Iterator) : Bool := iter.node.isSome

def key (list : SkipList K V) (iter : Iterator) : Option K := do
  let node ← list.heap.lookup (← iter.node)
  return node.key

def value (list : SkipList K V) (iter : Iterator) : Option V := do
  let node ← list.heap.lookup (← iter.node)
  return node.value

def next (list : SkipList K V) (iter : Iterator) : Option Iterator := do
  return ⟨← nextOf list.heap (← iter.node) 0⟩

/-- `prevs` is never empty, as `level_` is positive. -/
def prev (list : SkipList K V) (fuel : Nat) (iter : Iterator) : Option Iterator := do
  let node ← list.heap.lookup (← iter.node)
  let prevs ← list.findPrevNodes fuel node.key
  return ⟨← prevs[0]?⟩

def seek (list : SkipList K V) (fuel : Nat) (target : K) : Option Iterator := do
  return ⟨(← list.findRemovePoint fuel target).1⟩

def seekToFirst (list : SkipList K V) : Option Iterator := do
  return ⟨← nextOf list.heap list.head 0⟩

def seekToLast (list : SkipList K V) (fuel : Nat) : Option Iterator := do
  let node ← list.findLast fuel
  return ⟨if node = list.head then none else some node⟩

/-- The keys that `for (; iter.Valid(); iter.Next())` meets. -/
def keysFrom (list : SkipList K V) : Nat → Iterator → Option (List K)
  | 0, iter => if iter.valid then none else some []
  | fuel + 1, iter =>
    if iter.valid then do
      let key ← iter.key list
      let next ← iter.next list
      return key :: (← keysFrom list fuel next)
    else some []

/-- The keys that `for (; iter.Valid(); iter.Prev())` meets. -/
def keysBack (list : SkipList K V) (fuel : Nat) : Nat → Iterator → Option (List K)
  | 0, iter => if iter.valid then none else some []
  | turns + 1, iter =>
    if iter.valid then do
      let key ← iter.key list
      let prev ← iter.prev list fuel
      return key :: (← keysBack list fuel turns prev)
    else some []

inductive Move (K : Type) where
  | seekToFirst
  | seekToLast
  | seek (target : K)
  | next
  | prev

def move (list : SkipList K V) (fuel : Nat) (iter : Iterator) : Move K → Option Iterator
  | .seekToFirst => seekToFirst list
  | .seekToLast => seekToLast list fuel
  | .seek target => seek list fuel target
  | .next => iter.next list
  | .prev => iter.prev list fuel

def entry (list : SkipList K V) (iter : Iterator) : Option (Option (K × V)) :=
  if iter.valid then do
    return some (← iter.key list, ← iter.value list)
  else some none

def follow (list : SkipList K V) (fuel : Nat) :
    List (Move K) → Iterator → Option (List (Option (K × V)))
  | [], _ => some []
  | move :: moves, iter => do
      let iter ← iter.move list fuel move
      let entry ← iter.entry list
      return entry :: (← follow list fuel moves iter)

end Iterator

/-- A call of the list. `iterate` is what one does with a new iterator until the list changes. -/
inductive Call (K V : Type) where
  | insert (key : K) (value : V) (level : NodeLevel) (malloc : Malloc K V)
  | remove (key : K)
  | find (key : K)
  | has (key : K)
  | size
  | iterate (moves : List (Iterator.Move K))

inductive Answer (K V : Type) where
  | inserted
  | removed (value : Option V)
  | found (value : Option V)
  | has (stored : Bool)
  | size (size : Nat)
  | iterated (entries : List (Option (K × V)))
  deriving DecidableEq, Repr

def call (list : SkipList K V) (fuel : Nat) : Call K V → Option (Answer K V × SkipList K V)
  | .insert key value level malloc => do
      return (.inserted, ← list.insert fuel key value level.level malloc)
  | .remove key => do
      let (value, list) ← list.remove fuel key
      return (.removed value, list)
  | .find key => do return (.found (← list.find fuel key), list)
  | .has key => do return (.has (← list.has fuel key), list)
  | .size => some (.size list.size, list)
  | .iterate moves => do
      return (.iterated (← Iterator.follow list fuel moves .create), list)

def answers (fuel : Nat) : List (Call K V) → SkipList K V → Option (List (Answer K V))
  | [], _ => some []
  | call :: rest, list => do
      let (answer, list) ← list.call fuel call
      return answer :: (← answers fuel rest list)

end SkipList

open Base.Levels List Option

theorem raiseLevel_bounds (draw : Nat → Nat) (left level : Nat) :
    level ≤ raiseLevel draw left level ∧ raiseLevel draw left level ≤ level + left := by
  induction left generalizing level with
  | zero => exact ⟨Nat.le_refl _, Nat.le_refl _⟩
  | succ left ih =>
    rw [raiseLevel]
    split
    · have bounds := ih (level + 1)
      omega
    · omega

theorem randomLevel_bounds (draw : Nat → Nat) :
    0 < randomLevel draw ∧ randomLevel draw ≤ kSkipListMaxLevel := by
  have bounds := raiseLevel_bounds draw (kSkipListMaxLevel - 1) 1
  have top : 1 + (kSkipListMaxLevel - 1) = kSkipListMaxLevel := rfl
  unfold randomLevel
  omega

/-- The key and the value of a node, with its address and its level. -/
abbrev Cell (K V : Type) := Item Address (K × V)

section Memory

variable {K V : Type}

def lastAddress (heap : Heap K V) : Address := heap.keys.foldr max 0

variable {address : Address}

theorem le_foldr_max {addresses : List Address} (used : address ∈ addresses) :
    address ≤ addresses.foldr max 0 := by
  induction addresses with
  | nil => cases used
  | cons other addresses ih =>
    rcases mem_cons.mp used with rfl | later
    · exact Nat.le_max_left _ _
    · exact (ih later).trans (Nat.le_max_right _ _)

instance : Inhabited (Malloc K V) where
  default :=
    { address := fun heap => lastAddress heap + 1
      unused := fun heap => by
        rw [AList.lookup_eq_none]
        intro used
        exact Nat.not_succ_le_self _ (le_foldr_max (AList.mem_keys.mp used)) }

def Cell.key (cell : Cell K V) : K := cell.content.1

def Cell.value (cell : Cell K V) : V := cell.content.2

def Cell.node (cell : Cell K V) (next : Nat → Option Address) : Node K V :=
  ⟨Cell.key cell, Cell.value cell, cell.height, (List.range cell.height).map next⟩

def Holds (heap : Heap K V) (cells : List (Cell K V)) (next : Address → Nat → Option Address) :
    Prop :=
  ∀ cell ∈ cells, heap.lookup cell.name = some (Cell.node cell (next cell.name))

variable {heap : Heap K V} {cells : List (Cell K V)} {cell : Cell K V}
  {next : Address → Nat → Option Address} {i : Nat}

theorem Cell.node_next (cell : Cell K V) (pointers : Nat → Option Address)
    (below : i < cell.height) : (Cell.node cell pointers).next[i]? = some (pointers i) := by
  simp [Cell.node, below]

theorem set_map_range (pointers : Nat → Option Address) (size : Nat) (pointer : Option Address) :
    ((List.range size).map pointers).set i pointer =
      (List.range size).map fun level => if level = i then pointer else pointers level := by
  refine ext_getElem? fun level => ?_
  by_cases here : level = i
  · subst here
    by_cases inside : level < size
    · simp [inside]
    · simp [inside]
  · rw [List.getElem?_set_ne (Ne.symm here)]
    by_cases inside : level < size
    · simp [inside, here]
    · simp [inside]

def update (next : Address → Nat → Option Address) (address : Address) (i : Nat)
    (pointer : Option Address) : Address → Nat → Option Address :=
  fun name level => if name = address ∧ level = i then pointer else next name level

theorem update_self (next : Address → Nat → Option Address) (address : Address) (i : Nat)
    (pointer : Option Address) :
    update next address i pointer address =
      fun level => if level = i then pointer else next address level := by
  funext level
  simp only [update, true_and]

theorem update_at (next : Address → Nat → Option Address) (address : Address) (i : Nat)
    (pointer : Option Address) : update next address i pointer address i = pointer :=
  if_pos ⟨rfl, rfl⟩

theorem update_of_ne (next : Address → Nat → Option Address) {name : Address}
    (different : name ≠ address) (i : Nat) (pointer : Option Address) :
    update next address i pointer name = next name := by
  funext level
  simp only [update, different, false_and, if_false]

section

variable (holds : Holds heap cells next)

include holds

theorem Holds.congr {changed : Address → Nat → Option Address}
    (same : ∀ cell ∈ cells, ∀ i < cell.height, next cell.name i = changed cell.name i) :
    Holds heap cells changed := by
  intro cell member
  rw [holds cell member, Cell.node, Cell.node]
  congr 2
  refine map_congr_left fun i below => ?_
  exact same cell member i (mem_range.mp below)

theorem Holds.subset {others : List (Cell K V)} (subset : others ⊆ cells) :
    Holds heap others next :=
  fun cell member => holds cell (subset member)

theorem Holds.nextOf (member : cell ∈ cells) (below : i < cell.height) :
    nextOf heap cell.name i = some (next cell.name i) := by
  simp only [Ds.nextOf, holds cell member, bind_eq_bind, bind_some, Cell.node_next cell _ below]

theorem Holds.setNext (distinct : (cells.map Item.name).Nodup) (member : cell ∈ cells)
    (below : i < cell.height) (pointer : Option Address) :
    ∃ reached, setNext heap cell.name i pointer = some reached ∧
      Holds reached cells (update next cell.name i pointer) := by
  have written : Ds.setNext heap cell.name i pointer = some (heap.insert cell.name
      (Cell.node cell (update next cell.name i pointer cell.name))) := by
    simp only [Ds.setNext, holds cell member, bind_eq_bind, bind_some, Cell.node,
      length_map, length_range, if_pos below, set_map_range, update_self]
  refine ⟨_, written, fun other present => ?_⟩
  by_cases same : other.name = cell.name
  · have equal : other = cell := inj_on_of_nodup_map distinct present member same
    rw [equal, AList.lookup_insert]
  · rw [AList.lookup_insert_ne same, holds other present, update_of_ne next same]

theorem Holds.erase (absent : address ∉ cells.map Item.name) :
    Holds (heap.erase address) cells next := by
  intro cell member
  have different : cell.name ≠ address := by
    rintro rfl
    exact absent (mem_map_of_mem member)
  rw [AList.lookup_erase_ne different]
  exact holds cell member

end

end Memory

section Search

variable {K V : Type} {heap : Heap K V} {all front back : List (Cell K V)} {first : Cell K V}
  {turn : K → Turn} {fuel : Nat}

structure Linked (heap : Heap K V) (cells : List (Cell K V)) : Prop where
  holds : Holds heap cells (links cells)
  distinct : (cells.map Item.name).Nodup

theorem Linked.nextOf_lastAbove (linked : Linked heap (first :: front ++ back)) {k : Nat}
    (high : k < first.height) :
    nextOf heap (lastAbove k first front).name k = some (successor back k) := by
  have present : lastAbove k first front ∈ first :: front ++ back :=
    mem_append_left _ (lastAbove_mem k first front)
  have above := lt_height_lastAbove front (Nat.le_refl k) high
  rw [linked.holds.nextOf present above, links_lastAbove linked.distinct]

variable {passed mid back : List (Cell K V)}

theorem Linked.searchLevel_advance (linked : Linked heap all) {i : Nat}
    (split : all = passed ++ (mid ++ back))
    (advance : ∀ cell ∈ mid, turn (Cell.key cell) = .advance) (prev : Cell K V)
    (enough : mid.length ≤ fuel) :
    ∃ left, fuel ≤ left + mid.length ∧
      searchLevel turn heap i fuel prev.name (successor (mid ++ back) i) =
        searchLevel turn heap i left (lastAbove i prev mid).name (successor back i) := by
  induction mid generalizing passed prev fuel with
  | nil => exact ⟨fuel, Nat.le_refl _, rfl⟩
  | cons cell mid ih =>
    have onward : all = passed ++ [cell] ++ (mid ++ back) := by
      rw [split, append_assoc, singleton_append, cons_append]
    have others : ∀ other ∈ mid, turn (Cell.key other) = .advance :=
      fun other member => advance other (mem_cons_of_mem _ member)
    rw [length_cons] at enough
    rw [cons_append, successor_cons, lastAbove_cons]
    by_cases above : i < cell.height
    · rw [if_pos above, if_pos above]
      obtain ⟨fuel, rfl⟩ := Nat.exists_eq_succ_of_ne_zero (by omega : fuel ≠ 0)
      obtain ⟨left, used, rest⟩ := ih onward others cell
        (by omega : mid.length ≤ fuel)
      refine ⟨left, by rw [length_cons]; omega, ?_⟩
      have member : cell ∈ all := by
        rw [split]
        simp
      have pointer : links all cell.name i = successor (mid ++ back) i :=
        links_split linked.distinct (by rw [split, cons_append]) i
      rw [searchLevel, linked.holds cell member, bind_eq_bind, bind_some]
      have key : (Cell.node cell (links all cell.name)).key = Cell.key cell := rfl
      rw [key, advance cell mem_cons_self]
      simp only [Cell.node_next cell _ above, bind_eq_bind, bind_some, pointer]
      exact rest
    · rw [if_neg above, if_neg above]
      obtain ⟨left, used, rest⟩ := ih onward others prev
        (by omega : mid.length ≤ fuel)
      exact ⟨left, by rw [length_cons]; omega, rest⟩

theorem exists_of_successor {cells : List (Cell K V)} {i : Nat} {name : Address}
    (found : successor cells i = some name) :
    ∃ cell ∈ cells, cell.name = name ∧ i < cell.height := by
  obtain ⟨cell, first, same⟩ := map_eq_some_iff.mp found
  exact ⟨cell, mem_of_find?_eq_some first, same, by simpa using List.find?_some first⟩

theorem Linked.searchLevel_ended (linked : Linked heap all) {i : Nat}
    (split : all = passed ++ (mid ++ back))
    (advance : ∀ cell ∈ mid, turn (Cell.key cell) = .advance)
    (stop : ∀ cell ∈ back, i < cell.height → turn (Cell.key cell) = .stop) (prev : Cell K V)
    (enough : (mid ++ back).length ≤ fuel) :
    searchLevel turn heap i fuel prev.name (successor (mid ++ back) i) =
      some (.ended (lastAbove i prev mid).name) := by
  rw [length_append] at enough
  obtain ⟨left, used, reached⟩ :=
    linked.searchLevel_advance (i := i) split advance prev (by omega : mid.length ≤ fuel)
  rw [reached]
  cases found : successor back i with
  | none => rw [searchLevel]
  | some name =>
    obtain ⟨cell, member, rfl, above⟩ := exists_of_successor found
    have nonempty := length_pos_of_mem member
    obtain ⟨left, rfl⟩ := Nat.exists_eq_succ_of_ne_zero (by omega : left ≠ 0)
    have present : cell ∈ all := by
      rw [split]
      simp [member]
    rw [searchLevel, linked.holds cell present, bind_eq_bind, bind_some]
    have key : (Cell.node cell (links all cell.name)).key = Cell.key cell := rfl
    rw [key, stop cell member above]

theorem Linked.searchLevel_found (linked : Linked heap all) {i : Nat} {cell : Cell K V}
    (split : all = passed ++ (mid ++ cell :: back))
    (advance : ∀ cell ∈ mid, turn (Cell.key cell) = .advance)
    (found : turn (Cell.key cell) = .found) (above : i < cell.height) (prev : Cell K V)
    (enough : (mid ++ cell :: back).length ≤ fuel) :
    searchLevel turn heap i fuel prev.name (successor (mid ++ cell :: back) i) =
      some (.found cell.name) := by
  rw [length_append, length_cons] at enough
  obtain ⟨left, used, reached⟩ :=
    linked.searchLevel_advance (i := i) split advance prev (by omega : mid.length ≤ fuel)
  obtain ⟨left, rfl⟩ := Nat.exists_eq_succ_of_ne_zero (by omega : left ≠ 0)
  have present : cell ∈ all := by
    rw [split]
    simp
  rw [reached, successor_cons, if_pos above, searchLevel, linked.holds cell present,
    bind_eq_bind, bind_some]
  have key : (Cell.node cell (links all cell.name)).key = Cell.key cell := rfl
  rw [key, found]

variable (turn fuel) in
theorem Linked.search_succ (linked : Linked heap (first :: front ++ back)) {n : Nat}
    (high : n < first.height) (prevs : List (Option Address)) :
    ∃ passed rest, first :: front ++ back = passed ++ (rest ++ back) ∧ rest <:+ front ∧
      lastAbove n (lastAbove (n + 1) first front) rest = lastAbove n first front ∧
      search turn heap fuel (n + 1) (lastAbove (n + 1) first front).name prevs =
        (searchLevel turn heap n fuel (lastAbove (n + 1) first front).name
          (successor (rest ++ back) n)).bind fun reached =>
            match reached with
            | .found curr => some (.found curr)
            | .ended prev => search turn heap fuel n prev (some prev :: prevs) := by
  obtain ⟨passed, rest, split, _, same⟩ := lastAbove_split (n + 1) first front
  have whole : first :: front ++ back =
      passed ++ lastAbove (n + 1) first front :: (rest ++ back) := by
    rw [split, append_assoc, cons_append]
  refine ⟨passed ++ [lastAbove (n + 1) first front], rest, ?_, suffix_of_split split,
    same n (Nat.le_succ n), ?_⟩
  · rw [whole, append_assoc, singleton_append]
  · have member : lastAbove (n + 1) first front ∈ first :: front ++ back :=
      mem_append_left _ (lastAbove_mem _ _ _)
    have above : n < (lastAbove (n + 1) first front).height :=
      lt_height_lastAbove front (Nat.le_succ n) high
    have pointer := links_split linked.distinct whole n
    rw [search, linked.holds _ member, bind_eq_bind, bind_some]
    have level : (Cell.node (lastAbove (n + 1) first front) (links (first :: front ++ back)
      (lastAbove (n + 1) first front).name)).level = (lastAbove (n + 1) first front).height := rfl
    rw [level, if_neg (Nat.not_le.mpr above), Cell.node_next _ _ above, pointer]
    rfl

theorem Linked.search_ended (linked : Linked heap (first :: front ++ back))
    (advance : ∀ cell ∈ front, turn (Cell.key cell) = .advance)
    (stop : ∀ cell ∈ back, turn (Cell.key cell) = .stop) (enough : (front ++ back).length ≤ fuel)
    {n : Nat} (high : n ≤ first.height) (prevs : List (Option Address)) :
    search turn heap fuel n (lastAbove n first front).name prevs =
      some (.ended (lastAbove 0 first front).name
        ((List.range n).map (fun i => some (lastAbove i first front).name) ++ prevs)) := by
  induction n generalizing prevs with
  | zero => rfl
  | succ n ih =>
    obtain ⟨passed, rest, split, suffix, same, turned⟩ := linked.search_succ turn fuel high prevs
    have shorter : (rest ++ back).length ≤ fuel := by
      have bound := suffix.length_le
      rw [length_append] at enough ⊢
      omega
    have ended := linked.searchLevel_ended (i := n) split
      (fun cell member => advance cell (suffix.subset member))
      (fun cell member _ => stop cell member) (lastAbove (n + 1) first front) shorter
    rw [turned, ended, bind_some, same]
    dsimp only
    rw [ih (Nat.le_of_succ_le high), range_succ, map_append, append_assoc]
    rfl

theorem Linked.search_found {cell : Cell K V}
    (linked : Linked heap (first :: front ++ cell :: back))
    (advance : ∀ cell ∈ front, turn (Cell.key cell) = .advance)
    (found : turn (Cell.key cell) = .found) (stop : ∀ cell ∈ back, turn (Cell.key cell) = .stop)
    (enough : (front ++ cell :: back).length ≤ fuel) (tall : 0 < cell.height) {n : Nat}
    (positive : 0 < n) (high : n ≤ first.height) (prevs : List (Option Address)) :
    search turn heap fuel n (lastAbove n first front).name prevs = some (.found cell.name) := by
  induction n generalizing prevs with
  | zero => cases positive
  | succ n ih =>
    obtain ⟨passed, rest, split, suffix, same, turned⟩ := linked.search_succ turn fuel high prevs
    have shorter : (rest ++ cell :: back).length ≤ fuel := by
      have bound := suffix.length_le
      rw [length_append] at enough ⊢
      omega
    have passing : ∀ other ∈ rest, turn (Cell.key other) = .advance :=
      fun other member => advance other (suffix.subset member)
    rw [turned]
    by_cases above : n < cell.height
    · rw [linked.searchLevel_found split passing found above _ shorter]
      rfl
    · have stops : ∀ other ∈ cell :: back, n < other.height → turn (Cell.key other) = .stop := by
        intro other member reaches
        rcases mem_cons.mp member with rfl | later
        · exact absurd reaches above
        · exact stop other later
      rw [linked.searchLevel_ended split passing stops _ shorter, bind_some, same]
      exact ih (by omega) (Nat.le_of_succ_le high) _

end Search

section Order

variable {K V : Type} [LinearOrder K]

theorem exists_split {cells : List (Cell K V)}
    (sorted : cells.Pairwise fun first second => Cell.key first < Cell.key second) (key : K) :
    (∃ front back, cells = front ++ back ∧ (∀ cell ∈ front, Cell.key cell < key) ∧
      ∀ cell ∈ back, key < Cell.key cell) ∨
    ∃ front cell back, cells = front ++ cell :: back ∧ (∀ cell ∈ front, Cell.key cell < key) ∧
      Cell.key cell = key ∧ ∀ cell ∈ back, key < Cell.key cell := by
  induction cells with
  | nil => exact .inl ⟨[], [], rfl, by rintro _ ⟨⟩, by rintro _ ⟨⟩⟩
  | cons cell cells ih =>
    obtain ⟨least, rest⟩ := pairwise_cons.mp sorted
    rcases lt_trichotomy (Cell.key cell) key with less | same | greater
    · have extend : ∀ front : List (Cell K V), (∀ other ∈ front, Cell.key other < key) →
          ∀ other ∈ cell :: front, Cell.key other < key := by
        intro front smaller other member
        rcases mem_cons.mp member with rfl | later
        · exact less
        · exact smaller other later
      rcases ih rest with ⟨front, back, rfl, smaller, larger⟩ |
        ⟨front, found, back, rfl, smaller, equal, larger⟩
      · exact .inl ⟨cell :: front, back, rfl, extend front smaller, larger⟩
      · exact .inr ⟨cell :: front, found, back, rfl, extend front smaller, equal, larger⟩
    · exact .inr ⟨[], cell, cells, rfl, by rintro _ ⟨⟩, same,
        fun other member => same ▸ least other member⟩
    · refine .inl ⟨[], cell :: cells, rfl, by rintro _ ⟨⟩, fun other member => ?_⟩
      rcases mem_cons.mp member with rfl | later
      · exact greater
      · exact greater.trans (least other later)

def contents (cells : List (Cell K V)) (key : K) : Option V :=
  (cells.find? fun cell => Cell.key cell = key).map Cell.value

variable {front back : List (Cell K V)} {cell : Cell K V}

theorem find?_front {key : K} (smaller : ∀ cell ∈ front, Cell.key cell < key) :
    (front.find? fun cell => Cell.key cell = key) = none := by
  rw [List.find?_eq_none]
  intro cell member
  simpa using (smaller cell member).ne

theorem find?_back {key : K} (larger : ∀ cell ∈ back, key < Cell.key cell) :
    (back.find? fun cell => Cell.key cell = key) = none := by
  rw [List.find?_eq_none]
  intro cell member
  simpa using (larger cell member).ne'

theorem contents_absent {key : K} (smaller : ∀ cell ∈ front, Cell.key cell < key)
    (larger : ∀ cell ∈ back, key < Cell.key cell) : contents (front ++ back) key = none := by
  rw [contents, List.find?_append, find?_front smaller, find?_back larger]
  rfl

theorem contents_present (smaller : ∀ other ∈ front, Cell.key other < Cell.key cell) :
    contents (front ++ cell :: back) (Cell.key cell) = some (Cell.value cell) := by
  rw [contents, List.find?_append, find?_front smaller, List.find?_cons_of_pos (by simp)]
  rfl

theorem contents_of_ne (front back : List (Cell K V)) {key : K} (different : key ≠ Cell.key cell) :
    contents (front ++ cell :: back) key = contents (front ++ back) key := by
  rw [contents, contents, List.find?_append, List.find?_append,
    List.find?_cons_of_neg (by simpa using different.symm)]

theorem contents_insert (cell : Cell K V)
    (smaller : ∀ other ∈ front, Cell.key other < Cell.key cell) :
    contents (front ++ cell :: back) =
      Function.update (contents (front ++ back)) (Cell.key cell) (some (Cell.value cell)) := by
  funext key
  by_cases same : key = Cell.key cell
  · rw [same, Function.update_self, contents_present smaller]
  · rw [Function.update_of_ne same, contents_of_ne front back same]

theorem contents_remove (smaller : ∀ other ∈ front, Cell.key other < Cell.key cell)
    (larger : ∀ other ∈ back, Cell.key cell < Cell.key other) :
    contents (front ++ back) =
      Function.update (contents (front ++ cell :: back)) (Cell.key cell) none := by
  funext key
  by_cases same : key = Cell.key cell
  · rw [same, Function.update_self, contents_absent smaller larger]
  · rw [Function.update_of_ne same, contents_of_ne front back same]

theorem isSome_contents (cells : List (Cell K V)) (key : K) :
    (contents cells key).isSome ↔ key ∈ cells.map Cell.key := by
  rw [contents, isSome_map, List.find?_isSome]
  simp

theorem pairwise_insert
    (sorted : (front ++ back).Pairwise fun first second => Cell.key first < Cell.key second)
    (smaller : ∀ other ∈ front, Cell.key other < Cell.key cell)
    (larger : ∀ other ∈ back, Cell.key cell < Cell.key other) :
    (front ++ cell :: back).Pairwise fun first second => Cell.key first < Cell.key second := by
  obtain ⟨sortedFront, sortedBack, across⟩ := pairwise_append.mp sorted
  refine pairwise_append.mpr ⟨sortedFront, pairwise_cons.mpr ⟨larger, sortedBack⟩, ?_⟩
  intro first before second behind
  rcases mem_cons.mp behind with rfl | later
  · exact smaller first before
  · exact across first before second later

theorem pairwise_remove (sorted : (front ++ cell :: back).Pairwise
      fun first second => Cell.key first < Cell.key second) :
    (front ++ back).Pairwise fun first second => Cell.key first < Cell.key second :=
  sorted.sublist ((sublist_cons_self cell back).append_left front)

end Order

end Bitdb.Ds
