import Bitdb.Base.Run
import Bitdb.Ds.SkipListIterationProperties
import Bitdb.Index.Indexer
import Mathlib.Data.List.Lex

/-! The index on a skip list (`bitdb/index/skiplist_index.cpp` and `skiplist_iterator.cpp`) and
the traversals of it: iterators of `NewIterator`, `ListKeys` and `Fold` (`bitdb/db.cpp`). -/

set_option autoImplicit false

namespace Bitdb

open Base Ds Option
open Ds.SkipList (Iterator)

/-- `std::string` compares its characters as unsigned bytes. -/
abbrev byteOrder : LinearOrder UInt8 where
  le_refl := UInt8.le_refl
  le_trans := fun _ _ _ => UInt8.le_trans
  lt_iff_le_not_ge := fun first second => by
    rw [UInt8.lt_iff_toNat_lt, UInt8.le_iff_toNat_le, UInt8.le_iff_toNat_le]
    omega
  le_antisymm := fun _ _ => UInt8.le_antisymm
  le_total := UInt8.le_total
  toDecidableLE := inferInstance
  toDecidableLT := inferInstance

attribute [local instance] byteOrder

/-- What the head of the list holds, which no function reads. -/
instance : Inhabited LogRecordPst := ⟨⟨0, 0⟩⟩

abbrev IndexList := SkipList (List Byte) LogRecordPst

/-- `index_iter_` is a null pointer in a new indexer. -/
structure SkipListIndexer where
  ds : IndexList
  indexIter : Option Iterator

namespace SkipListIndexer

def put (index : SkipListIndexer) (fuel : Nat) (key : Bytes) (pos : LogRecordPst)
    (level : NodeLevel) (malloc : Malloc (List Byte) LogRecordPst) :
    Option (Bool × SkipListIndexer) := do
  let ds ← index.ds.insert fuel key.cString pos level.level malloc
  return (true, { index with ds := ds })

def get (index : SkipListIndexer) (fuel : Nat) (key : Bytes) : Option (Option LogRecordPst) :=
  index.ds.find fuel key.cString

def delete (index : SkipListIndexer) (fuel : Nat) (key : Bytes) :
    Option (Bool × SkipListIndexer) := do
  let (removed, ds) ← index.ds.remove fuel key.cString
  return (removed.isSome, { index with ds := ds })

/-- `Iterator()` makes one iterator and returns it to every caller. -/
def iterator (index : SkipListIndexer) : SkipListIndexer :=
  match index.indexIter with
  | none => { index with indexIter := some .create }
  | some _ => index

end SkipListIndexer

inductive IterCall where
  | valid
  | key
  | value
  | next
  | prev
  | seek (target : Bytes)
  | seekToFirst
  | seekToLast
  deriving DecidableEq, Repr

inductive IterReply where
  | done
  | valid (result : Bool)
  | key (key : List Byte)
  | value (pst : LogRecordPst)
  deriving DecidableEq, Repr

namespace IterCall

/-- Whether a call puts the iterator at a place that does not depend on where it was. -/
def seeks : IterCall → Bool
  | .seek _ => true
  | .seekToFirst => true
  | .seekToLast => true
  | _ => false

def run (ds : IndexList) (fuel : Nat) (iter : Iterator) : IterCall → Option (IterReply × Iterator)
  | .valid => some (.valid iter.valid, iter)
  | .key => do return (.key (← iter.key ds), iter)
  | .value => do return (.value (← iter.value ds), iter)
  | .next => do return (.done, ← iter.next ds)
  | .prev => do return (.done, ← iter.prev ds fuel)
  | .seek target => do return (.done, ← Iterator.seek ds fuel target.cString)
  | .seekToFirst => do return (.done, ← Iterator.seekToFirst ds)
  | .seekToLast => do return (.done, ← Iterator.seekToLast ds fuel)

end IterCall

/-- A traversal decides from the replies it got, the newest first, what it calls next. -/
abbrev Traversal := List IterReply → Option IterCall

def listKeys : Traversal
  | [] => some .seekToFirst
  | .done :: _ => some .valid
  | .valid true :: _ => some .key
  | .key _ :: _ => some .next
  | _ => none

/-- The loop of `Fold`, where `getValue` is `GetValueByLogRecordPst`. -/
def fold (getValue : LogRecordPst → Option (List Byte)) (fn : List Byte → List Byte → Bool) :
    Traversal
  | [] => some .seekToFirst
  | .done :: _ => some .valid
  | .valid true :: _ => some .key
  | .key _ :: _ => some .value
  | .value pst :: .key key :: _ =>
    match getValue pst with
    | some value => if fn key value then some .next else none
    | none => none
  | _ => none

/-- What a traversal has seen after some calls on an iterator of its own, and the iterator. -/
def Traversal.alone (traversal : Traversal) (ds : IndexList) (fuel : Nat) :
    Nat → Option (List IterReply × Iterator)
  | 0 => some ([], .create)
  | count + 1 => do
      let (seen, iter) ← traversal.alone ds fuel count
      let call ← traversal seen
      let (reply, iter) ← call.run ds fuel iter
      return (reply :: seen, iter)

/-- Traversals of one index. `last` is the traversal that has made the last call. -/
structure Iterations where
  index : SkipListIndexer
  seen : Nat → List IterReply
  last : Option Nat

namespace Iterations

def initial (ds : IndexList) : Iterations := ⟨⟨ds, none⟩, fun _ => [], none⟩

def step (traversals : Nat → Traversal) (fuel : Nat) (state : Iterations) (id : Nat) :
    Option Iterations := do
  let iter ← state.index.iterator.indexIter
  let call ← traversals id (state.seen id)
  let (reply, iter) ← call.run state.index.ds fuel iter
  return { index := { state.index with indexIter := some iter }
           seen := Function.update state.seen id (reply :: state.seen id)
           last := some id }

def Step (traversals : Nat → Traversal) (fuel : Nat) (state : Iterations) (id : Nat)
    (reached : Iterations) : Prop :=
  state.step traversals fuel id = some reached

/-- No other traversal has moved the iterator since the last call of this one, or the call does
not depend on where the iterator is. -/
def Undisturbed (traversals : Nat → Traversal) (state : Iterations) (id : Nat) : Prop :=
  state.last = none ∨ state.last = some id ∨
    (traversals id (state.seen id)).any IterCall.seeks = true

instance (traversals : Nat → Traversal) (state : Iterations) (id : Nat) :
    Decidable (state.Undisturbed traversals id) :=
  inferInstanceAs (Decidable (_ ∨ _ ∨ _))

def UndisturbedStep (traversals : Nat → Traversal) (fuel : Nat) (state : Iterations) (id : Nat)
    (reached : Iterations) : Prop :=
  state.Step traversals fuel id reached ∧ state.Undisturbed traversals id

end Iterations

namespace SkipListIndexer

def Shows (index : SkipListIndexer) (indexer : Indexer) (size : Nat) : Prop :=
  ∃ cells, index.ds.Represents cells ∧ cells.length ≤ size ∧
    ∀ key, contents cells key = indexer.lookup key

variable {index : SkipListIndexer} {indexer : Indexer} {size fuel : Nat}

variable (shows : index.Shows indexer size)

include shows

theorem Shows.get_eq (enough : size ≤ fuel) (key : Bytes) :
    index.get fuel key = some (indexer.get key) := by
  obtain ⟨cells, represents, length, same⟩ := shows
  rw [get, represents.find_eq (length.trans enough), same]
  rfl

theorem Shows.put_eq (enough : size ≤ fuel) (key : Bytes) (pos : LogRecordPst) (level : NodeLevel)
    (malloc : Malloc (List Byte) LogRecordPst) :
    ∃ reached, index.put fuel key pos level malloc = some ((indexer.put key pos).1, reached) ∧
      reached.Shows (indexer.put key pos).2 (size + 1) := by
  obtain ⟨cells, represents, length, same⟩ := shows
  obtain ⟨ds, grown, inserted, kept, updated, bound⟩ :=
    represents.insert (length.trans enough) key.cString pos level malloc
  refine ⟨⟨ds, index.indexIter⟩, ?_, grown, kept, by omega, fun other => ?_⟩
  · rw [put, inserted]
    rfl
  · rw [updated]
    by_cases here : other = key.cString
    · rw [here]
      exact (dif_pos rfl).trans (AList.lookup_insert indexer).symm
    · exact (dif_neg here).trans ((same other).trans (AList.lookup_insert_ne here).symm)

theorem Shows.delete_eq (enough : size ≤ fuel) (key : Bytes) :
    ∃ reached, index.delete fuel key = some ((indexer.delete key).1, reached) ∧
      reached.Shows (indexer.delete key).2 size := by
  obtain ⟨cells, represents, length, same⟩ := shows
  obtain ⟨ds, left, removed, kept, updated, bound⟩ :=
    represents.remove (length.trans enough) key.cString
  refine ⟨⟨ds, index.indexIter⟩, ?_, left, kept, bound.trans length, fun other => ?_⟩
  · rw [delete, removed, same]
    rfl
  · rw [updated]
    by_cases here : other = key.cString
    · rw [here]
      exact (dif_pos rfl).trans (AList.lookup_erase key.cString indexer).symm
    · exact (dif_neg here).trans ((same other).trans (AList.lookup_erase_ne here).symm)

end SkipListIndexer

/-- The keys and positions in the order in which a skip list has them. -/
def Indexer.inOrder (index : Indexer) : List (List Byte × LogRecordPst) :=
  (index.entries.map fun entry => (entry.1, entry.2)).insertionSort fun first second =>
    first.1 ≤ second.1

inductive IndexCall where
  | put (key : Bytes) (pos : LogRecordPst) (level : NodeLevel)
      (malloc : Malloc (List Byte) LogRecordPst)
  | get (key : Bytes)
  | delete (key : Bytes)

inductive IndexReply where
  | done (result : Bool)
  | found (pos : Option LogRecordPst)

def Indexer.call : IndexCall → StateM Indexer IndexReply
  | .put key pos _ _ => fun index => (index.put key pos).map .done id
  | .get key => fun index => (.found (index.get key), index)
  | .delete key => fun index => (index.delete key).map .done id

def SkipListIndexer.call (fuel : Nat) : IndexCall → StateT SkipListIndexer Option IndexReply
  | .put key pos level malloc => fun index =>
    (index.put fuel key pos level malloc).map (Prod.map .done id)
  | .get key => fun index => (index.get fuel key).map fun pos => (.found pos, index)
  | .delete key => fun index => (index.delete fuel key).map (Prod.map .done id)

theorem Indexer.mem_inOrder (index : Indexer) {key : List Byte} {pos : LogRecordPst} :
    (key, pos) ∈ index.inOrder ↔ index.lookup key = some pos := by
  rw [inOrder, List.mem_insertionSort, List.mem_map]
  constructor
  · rintro ⟨⟨_, _⟩, member, ⟨⟩⟩
    exact AList.mem_lookup_iff.mpr member
  · exact fun found => ⟨⟨key, pos⟩, AList.mem_lookup_iff.mp found, rfl⟩

theorem Indexer.inOrder_sorted (index : Indexer) :
    index.inOrder.Pairwise fun first second => first.1 < second.1 := by
  have total : Std.Total fun first second : List Byte × LogRecordPst => first.1 ≤ second.1 :=
    ⟨fun first second => le_total first.1 second.1⟩
  have transitive : IsTrans _ fun first second : List Byte × LogRecordPst =>
    first.1 ≤ second.1 := ⟨fun _ _ _ => le_trans⟩
  have ordered := List.pairwise_insertionSort (fun first second => first.1 ≤ second.1)
    (index.entries.map fun entry => ((entry.1, entry.2) : List Byte × LogRecordPst))
  have distinct : index.inOrder.Pairwise fun first second => first.1 ≠ second.1 := by
    refine ((List.perm_insertionSort _ _).pairwise_iff Ne.symm).mpr ?_
    exact List.pairwise_map.mpr (List.pairwise_map.mp index.nodupKeys)
  exact (ordered.and distinct).imp fun both => lt_of_le_of_ne both.1 both.2

theorem SkipListIndexer.Shows.call_eq {index : SkipListIndexer} {indexer : Indexer}
    {size fuel : Nat} (shows : index.Shows indexer size) (enough : size ≤ fuel) (call : IndexCall) :
    ∃ reached, (SkipListIndexer.call fuel call).run index =
        some (((Indexer.call call).run indexer).1, reached) ∧
      reached.Shows ((Indexer.call call).run indexer).2 (size + 1) := by
  cases call with
  | put key pos level malloc =>
    obtain ⟨reached, ran, kept⟩ := shows.put_eq enough key pos level malloc
    exact ⟨reached, map_eq_some_iff.mpr ⟨_, ran, rfl⟩, kept⟩
  | get key =>
    have found := shows.get_eq enough key
    obtain ⟨cells, represents, length, same⟩ := shows
    exact ⟨index, map_eq_some_iff.mpr ⟨_, found, rfl⟩, cells, represents, by omega, same⟩
  | delete key =>
    obtain ⟨reached, ran, cells, represents, length, same⟩ := shows.delete_eq enough key
    exact ⟨reached, map_eq_some_iff.mpr ⟨_, ran, rfl⟩, cells, represents, by omega, same⟩

theorem SkipListIndexer.Shows.calls_eq {fuel : Nat} (calls : List IndexCall)
    {index : SkipListIndexer} {indexer : Indexer} {size : Nat}
    (shows : index.Shows indexer size) (enough : size + calls.length ≤ fuel) :
    ∃ reached, (calls.mapM (SkipListIndexer.call fuel)).run index =
        some (((calls.mapM Indexer.call).run indexer).1, reached) ∧
      reached.Shows ((calls.mapM Indexer.call).run indexer).2 fuel := by
  induction calls generalizing index indexer size with
  | nil =>
    obtain ⟨cells, represents, length, same⟩ := shows
    exact ⟨index, rfl, cells, represents, length.trans enough, same⟩
  | cons call rest ih =>
    rw [List.length_cons] at enough
    obtain ⟨middle, called, kept⟩ := shows.call_eq (by omega : size ≤ fuel) call
    obtain ⟨reached, ran, shown⟩ := ih kept (by omega)
    rw [List.mapM_cons, List.mapM_cons]
    exact ⟨reached, bind_eq_some_iff.mpr ⟨_, called, bind_eq_some_iff.mpr ⟨_, ran, rfl⟩⟩, shown⟩

section Fold

variable (getValue : LogRecordPst → Option (List Byte)) (fn : List Byte → List Byte → Bool)

/-- What `Fold` has seen in the end, with these entries in front of the iterator. It stops where
a value is missing or `fn` refuses it. -/
def folded : List (List Byte × LogRecordPst) → List IterReply → List IterReply
  | [], seen => .valid false :: seen
  | (key, pst) :: rest, seen =>
    let seen := .value pst :: .key key :: .valid true :: seen
    if (getValue pst).any (fn key) then folded rest (.done :: seen) else seen

variable {getValue fn}

open SkipList in
theorem fold_from (count : Nat) {ds : IndexList} {fuel : Nat} {seen : List IterReply}
    {passed rest : List (Cell (List Byte) LogRecordPst)} (represents : ds.Represents (passed ++ rest))
    (here : (fold getValue fn).alone ds fuel count =
      some (.done :: seen, iteratorAt ds (passed ++ rest) (passed.length + 1))) :
    let last := folded getValue fn (entriesOf rest) (.done :: seen)
    (∃ count iter, (fold getValue fn).alone ds fuel count = some (last, iter)) ∧
      fold getValue fn last = none := by
  induction rest generalizing passed count seen with
  | nil =>
    rw [List.append_nil, iteratorAt_behind] at here
    refine ⟨⟨count + 1, .create, ?_⟩, rfl⟩
    rw [Traversal.alone, here]
    rfl
  | cons cell rest ih =>
    have whole : ds.Represents (passed ++ [cell] ++ rest) := by simpa using represents
    have node := represents.lookup (by simp : cell ∈ passed ++ cell :: rest)
    have moved : (iteratorAt ds (passed ++ cell :: rest) (passed.length + 1)).next ds = _ :=
      represents.next_at
    rw [iteratorAt_cell] at here moved
    obtain ⟨address, height, key, pst⟩ := cell
    let met := .value pst :: .key key :: .valid true :: .done :: seen
    have read : (fold getValue fn).alone ds fuel (count + 3) = some (met, ⟨some address⟩) := by
      simp [Traversal.alone, here, fold, IterCall.run, Iterator.valid, Iterator.key, Iterator.value,
        node, Cell.node, Cell.key, Cell.value, met]
    have next : fold getValue fn met = if (getValue pst).any (fn key) then some .next else none := by
      simp only [fold, met]
      cases getValue pst with
      | none | some => rfl
    rw [entriesOf, List.map_cons, folded]
    split
    next goes =>
      refine ih (count + 4) whole ?_
      rw [if_pos goes] at next
      rw [Traversal.alone, read]
      simp [next, IterCall.run, moved, stations, entriesOf, met]
    next stops => exact ⟨⟨_, _, read⟩, next.trans (if_neg stops)⟩

end Fold

/-- An index on a skip list gives the answers of a standard map, whatever levels and memory its
nodes get. Its iterator meets the keys of the map in order, and so does `Fold`, with their positions,
up to the first one it does not go on from. No loop takes more turns than there were calls. -/
theorem skip_list_indexer_refines_map (malloc : Malloc (List Byte) LogRecordPst)
    (calls : List IndexCall) (spare : Nat) : let fuel := calls.length + spare
    let outcome := (calls.mapM Indexer.call).run ∅
    let entries := outcome.2.inOrder
    ∃ reached first, (calls.mapM (SkipListIndexer.call fuel)).run ⟨SkipList.create malloc, none⟩ =
        some (outcome.1, reached) ∧
      reached.ds.size = entries.length ∧ Iterator.seekToFirst reached.ds = some first ∧
      first.keysFrom reached.ds fuel = some (entries.map Prod.fst) ∧
      ∀ getValue fn, let last := folded getValue fn entries [.done]
        (∃ count iter, (fold getValue fn).alone reached.ds fuel count = some (last, iter)) ∧
          fold getValue fn last = none := by
  intro fuel outcome entries
  have fresh : SkipListIndexer.Shows ⟨SkipList.create malloc, none⟩ ∅ 0 :=
    ⟨[], SkipList.represents_create malloc, Nat.le_refl 0, fun _ => rfl⟩
  obtain ⟨reached, ran, cells, represents, length, same⟩ :=
    fresh.calls_eq calls (by omega : 0 + calls.length ≤ fuel)
  have whole : reached.ds.Represents ([] ++ cells) := represents
  have stored : entries = SkipList.entriesOf cells := by
    let before (first second : List Byte × LogRecordPst) : Prop := first.1 < second.1
    have : Std.Antisymm before := ⟨fun _ _ less more => absurd more less.not_gt⟩
    have : Std.Irrefl before := ⟨fun _ => lt_irrefl _⟩
    refine List.Pairwise.eq_of_mem_iff (r := before) outcome.2.inOrder_sorted
      (List.pairwise_map.mpr represents.sorted) fun entry => ?_
    rw [SkipList.mem_entriesOf_iff represents.sorted, same, Indexer.mem_inOrder]
  rw [stored]
  refine ⟨reached, _, ran, ?_, represents.seekToFirst_eq, ?_, fun getValue fn => fold_from 1 whole ?_⟩
  · rw [represents.size, SkipList.entriesOf, List.length_map]
  · rw [whole.keysFrom_eq length, SkipList.entriesOf, List.map_map]
    rfl
  · simp [Traversal.alone, fold, IterCall.run, represents.seekToFirst_at]

theorem IterCall.run_of_seeks {call : IterCall} (seeks : call.seeks = true) (ds : IndexList)
    (fuel : Nat) (iter other : Iterator) : call.run ds fuel iter = call.run ds fuel other := by
  cases call with
  | seek | seekToFirst | seekToLast => rfl
  | valid | key | value | next | prev => cases seeks

namespace Iterations

variable {traversals : Nat → Traversal} {fuel : Nat} {ds : IndexList}
  {state reached : Iterations}

/-- Every traversal has seen what it sees alone, and the iterator is where the last one to move
it would have its own. -/
structure Apart (traversals : Nat → Traversal) (fuel : Nat) (ds : IndexList)
    (state : Iterations) : Prop where
  list : state.index.ds = ds
  alone : ∀ id, ∃ own, (traversals id).alone ds fuel (state.seen id).length =
      some (state.seen id, own) ∧ (state.last = some id → state.index.indexIter = some own)
  fresh : state.last = none → state.index.indexIter = none ∧ ∀ id, state.seen id = []

theorem apart_initial : (initial ds).Apart traversals fuel ds where
  list := rfl
  alone := fun _ => ⟨.create, rfl, by rintro ⟨⟩⟩
  fresh := fun _ => ⟨rfl, fun _ => rfl⟩

theorem Step.frame {id : Nat} (step : state.Step traversals fuel id reached) :
    reached.index.ds = state.index.ds ∧ reached.last = some id ∧
      (∃ reply, reached.seen id = reply :: state.seen id) ∧
      ∀ other, other ≠ id → reached.seen other = state.seen other := by
  rw [Step, Iterations.step] at step
  obtain ⟨iter, _, step⟩ := bind_eq_some_iff.mp step
  obtain ⟨call, _, step⟩ := bind_eq_some_iff.mp step
  obtain ⟨result, _, step⟩ := bind_eq_some_iff.mp step
  cases step
  exact ⟨rfl, rfl, ⟨result.1, Function.update_self _ _ _⟩,
    fun other different => Function.update_of_ne different _ _⟩

section

variable (apart : state.Apart traversals fuel ds)

include apart

theorem Apart.same_run {id : Nat} (undisturbed : state.Undisturbed traversals id) :
    ∃ iter own, state.index.iterator.indexIter = some iter ∧
      (traversals id).alone ds fuel (state.seen id).length = some (state.seen id, own) ∧
      ∀ call, traversals id (state.seen id) = some call →
        call.run ds fuel iter = call.run ds fuel own := by
  obtain ⟨own, alone, here⟩ := apart.alone id
  rcases undisturbed with untouched | mine | seeks
  · obtain ⟨unmade, unseen⟩ := apart.fresh untouched
    rw [unseen id] at alone ⊢
    cases alone
    refine ⟨.create, .create, ?_, rfl, fun _ _ => rfl⟩
    rw [SkipListIndexer.iterator, unmade]
  · refine ⟨own, own, ?_, alone, fun _ _ => rfl⟩
    rw [SkipListIndexer.iterator, here mine]
    exact here mine
  · have made : ∃ iter, state.index.iterator.indexIter = some iter := by
      rw [SkipListIndexer.iterator]
      cases present : state.index.indexIter with
      | none => exact ⟨.create, rfl⟩
      | some iter => exact ⟨iter, present⟩
    obtain ⟨iter, made⟩ := made
    refine ⟨iter, own, made, alone, fun call next => ?_⟩
    rw [next] at seeks
    exact call.run_of_seeks seeks ds fuel iter own

theorem Apart.next {id : Nat} (undisturbed : state.Undisturbed traversals id) :
    (state.step traversals fuel id).map (fun reached =>
        (reached.seen id, reached.index.indexIter)) =
      ((traversals id).alone ds fuel ((state.seen id).length + 1)).map fun alone =>
        (alone.1, some alone.2) := by
  obtain ⟨iter, own, made, alone, same⟩ := apart.same_run undisturbed
  rw [step, Traversal.alone, made, alone, apart.list]
  simp only [bind_eq_bind, bind_some]
  cases next : traversals id (state.seen id) with
  | none => rfl
  | some call =>
    simp only [bind_some, same call next]
    cases call.run ds fuel own with
    | none => rfl
    | some result => simp

theorem Apart.step {id : Nat} (taken : state.UndisturbedStep traversals fuel id reached) :
    reached.Apart traversals fuel ds := by
  obtain ⟨step, undisturbed⟩ := taken
  obtain ⟨list, last, ⟨reply, grown⟩, others⟩ := Step.frame step
  have next := apart.next undisturbed
  rw [step, map_some] at next
  refine ⟨list.trans apart.list, fun other => ?_, fun untouched => ?_⟩
  · by_cases here : other = id
    · subst here
      obtain ⟨alone, found, same⟩ := map_eq_some_iff.mp next.symm
      obtain ⟨seen, iter⟩ := Prod.mk.inj same
      refine ⟨alone.2, ?_, fun _ => iter.symm⟩
      rw [← seen, seen, grown, List.length_cons, found, ← grown, ← seen]
    · obtain ⟨own, alone, _⟩ := apart.alone other
      rw [others other here]
      refine ⟨own, alone, fun mine => ?_⟩
      rw [last] at mine
      exact absurd (Option.some.inj mine).symm here
  · rw [last] at untouched
    cases untouched

theorem Apart.run {schedule : List Nat}
    (run : Run (UndisturbedStep traversals fuel) state schedule reached) :
    reached.Apart traversals fuel ds :=
  run.invariant (fun _ state => state.Apart traversals fuel ds)
    (fun _ _ _ _ before taken => before.step taken) [] apart

end

/-- As long as no traversal goes on from where another one has put the iterator, each of them has
seen what it sees alone after as many calls, and goes on like that. -/
theorem traversals_see_their_own {schedule : List Nat}
    (run : Run (UndisturbedStep traversals fuel) (initial ds) schedule state) (id : Nat) :
    ((traversals id).alone ds fuel (state.seen id).length).map Prod.fst = some (state.seen id) ∧
      (state.Undisturbed traversals id →
        (state.step traversals fuel id).map (fun reached => reached.seen id) =
          ((traversals id).alone ds fuel ((state.seen id).length + 1)).map Prod.fst) := by
  have apart := apart_initial.run run
  refine ⟨?_, fun undisturbed => ?_⟩
  · obtain ⟨own, alone, _⟩ := apart.alone id
    rw [alone]
    rfl
  · have next := congrArg (Option.map Prod.fst) (apart.next undisturbed)
    rw [map_map, map_map] at next
    exact next

def twoKeys : IndexList :=
  let fresh : IndexList := SkipList.create default
  (fresh.execute 2 [.insert [97] ⟨0, 0⟩ ⟨1, by decide, by decide⟩ default,
    .insert [98] ⟨0, 1⟩ ⟨2, by decide, by decide⟩ default]).elim fresh Prod.snd

/-- One call of `ListKeys` runs while another one waits. -/
theorem traversals_see_their_own_nested :
    let schedule := [0, 0, 0, 1, 1, 1, 1, 1, 1, 1, 1]
    ∃ state, Run (UndisturbedStep (fun _ => listKeys) 2) (initial twoKeys) schedule state ∧
      (state.seen 1).length = 8 ∧
      (listKeys.alone twoKeys 2 8).map Prod.fst = some (state.seen 1) := by
  intro schedule
  have steps : ∀ (state : Iterations) id reached,
      (if state.Undisturbed (fun _ => listKeys) id then state.step (fun _ => listKeys) 2 id
        else none) = some reached →
      state.UndisturbedStep (fun _ => listKeys) 2 id reached := by
    intro state id reached taken
    split at taken
    next undisturbed => exact ⟨taken, undisturbed⟩
    next => cases taken
  obtain ⟨state, run, checked⟩ := Run.exists_of_foldlM steps (initial twoKeys) schedule
    (fun state => decide ((state.seen 1).length = 8)) (by decide +kernel)
  have length := of_decide_eq_true checked
  have seen := (traversals_see_their_own run 1).1
  rw [length] at seen
  exact ⟨state, run, length, seen⟩

/-- Two calls of `ListKeys` take turns, and the second one ends without the second key. -/
theorem turns_skip_keys :
    let schedule := [0, 0, 0, 1, 1, 1, 0, 1, 1]
    let partly : List IterReply := [.valid false, .done, .key [97], .valid true, .done]
    ∃ state, Run (Step (fun _ => listKeys) 2) (initial twoKeys) schedule state ∧
      state.seen 1 = partly ∧ listKeys partly = none ∧
      (listKeys.alone twoKeys 2 8).map Prod.fst = some [.valid false, .done, .key [98],
        .valid true, .done, .key [97], .valid true, .done] := by
  intro schedule partly
  have steps : ∀ (state : Iterations) id reached,
      state.step (fun _ => listKeys) 2 id = some reached →
        state.Step (fun _ => listKeys) 2 id reached := fun _ _ _ step => step
  obtain ⟨state, run, checked⟩ := Run.exists_of_foldlM steps (initial twoKeys) schedule
    (fun state => decide (state.seen 1 = partly)) (by decide +kernel)
  exact ⟨state, run, of_decide_eq_true checked, rfl, by decide +kernel⟩

end Iterations

end Bitdb
