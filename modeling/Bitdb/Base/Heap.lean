import Mathlib.Logic.Equiv.Basic
import Mathlib.Order.Lattice

/-! Binary heaps over an index. Sifting down carries a hole to whose children the order does not
apply, sifting up a place that may fall below its parent. -/

set_option autoImplicit false

namespace Bitdb.Base.Heap

variable {κ : Type} [LinearOrder κ] {key : Nat → κ} {size hole child : Nat}

def parent (place : Nat) : Nat := (place - 1) / 2

def Ordered (key : Nat → κ) (size : Nat) : Prop :=
  ∀ child, 0 < child → child < size → key (parent child) ≤ key child

/-- Ordered but for the children of the hole. They do not fall below its parent. -/
structure OrderedBut (key : Nat → κ) (size hole : Nat) : Prop where
  others : ∀ child, 0 < child → child < size → parent child ≠ hole → key (parent child) ≤ key child
  across : ∀ child, 0 < child → child < size → parent child = hole → 0 < hole →
    key (parent hole) ≤ key child

/-- Ordered but for the place and its parent. Its children do not fall below that parent. -/
structure OrderedUpTo (key : Nat → κ) (size place : Nat) : Prop where
  others : ∀ child, 0 < child → child < size → child ≠ place → key (parent child) ≤ key child
  across : ∀ child, 0 < child → child < size → parent child = place → 0 < place →
    key (parent place) ≤ key child

theorem parent_lt {place : Nat} (inner : 0 < place) : parent place < place := by
  unfold parent
  omega

theorem Ordered.least (ordered : Ordered key size) {place : Nat} (inside : place < size) :
    key 0 ≤ key place := by
  induction place using Nat.strongRecOn with
  | ind place ih =>
    rcases Nat.eq_zero_or_pos place with rfl | inner
    · exact le_refl _
    · have above := parent_lt inner
      exact le_trans (ih (parent place) above (Nat.lt_trans above inside))
        (ordered place inner inside)

theorem OrderedBut.ordered (but : OrderedBut key size hole)
    (least : ∀ child, 0 < child → child < size → parent child = hole → key hole ≤ key child) :
    Ordered key size := by
  intro child inner inside
  by_cases below : parent child = hole
  · rw [below]
    exact least child inner inside below
  · exact but.others child inner inside below

theorem OrderedBut.swap (but : OrderedBut key size hole) (inner : 0 < child)
    (inside : child < size) (below : parent child = hole) (smaller : key child ≤ key hole)
    (least : ∀ other, 0 < other → other < size → parent other = hole → key child ≤ key other) :
    OrderedBut (key ∘ Equiv.swap child hole) size child := by
  have above : hole < child := below ▸ parent_lt inner
  constructor
  · intro other otherInner otherInside elsewhere
    have parentBelow := parent_lt otherInner
    by_cases atChild : other = child
    · subst atChild
      simpa [below] using smaller
    · by_cases atHole : other = hole
      · subst atHole
        simpa [Equiv.swap_apply_of_ne_of_ne elsewhere (Nat.ne_of_lt parentBelow)] using
          but.across child inner inside below otherInner
      · by_cases sibling : parent other = hole
        · simpa [sibling, Equiv.swap_apply_of_ne_of_ne atChild atHole] using
            least other otherInner otherInside sibling
        · simpa [Equiv.swap_apply_of_ne_of_ne atChild atHole,
            Equiv.swap_apply_of_ne_of_ne elsewhere sibling] using
            but.others other otherInner otherInside sibling
  · intro other otherInner otherInside grandchild _
    have beyond := grandchild ▸ parent_lt otherInner
    have different : other ≠ child := Nat.ne_of_gt beyond
    have apart : other ≠ hole := Nat.ne_of_gt (Nat.lt_trans above beyond)
    have kept : parent other ≠ hole := fun same => Nat.ne_of_gt above (grandchild.symm.trans same)
    simpa [below, Equiv.swap_apply_of_ne_of_ne different apart, grandchild] using
      but.others other otherInner otherInside kept

section Up

variable {place : Nat}

theorem OrderedUpTo.ordered (upTo : OrderedUpTo key size place)
    (least : 0 < place → key (parent place) ≤ key place) : Ordered key size := by
  intro child inner inside
  by_cases same : child = place
  · subst same
    exact least inner
  · exact upTo.others child inner inside same

theorem OrderedUpTo.swap (upTo : OrderedUpTo key size place) (inner : 0 < place)
    (inside : place < size) (smaller : key place ≤ key (parent place)) :
    OrderedUpTo (key ∘ Equiv.swap place (parent place)) size (parent place) := by
  have above := parent_lt inner
  constructor
  · intro child childInner childInside elsewhere
    have higher := parent_lt childInner
    by_cases atPlace : child = place
    · subst atPlace
      simpa using smaller
    · by_cases below : parent child = place
      · simpa [below, Equiv.swap_apply_of_ne_of_ne atPlace elsewhere] using
          upTo.across child childInner childInside below inner
      · by_cases sibling : parent child = parent place
        · have kept := upTo.others child childInner childInside atPlace
          rw [sibling] at kept
          simpa [sibling, Equiv.swap_apply_of_ne_of_ne atPlace elsewhere] using
            le_trans smaller kept
        · simpa [Equiv.swap_apply_of_ne_of_ne atPlace elsewhere,
            Equiv.swap_apply_of_ne_of_ne below sibling] using
            upTo.others child childInner childInside atPlace
  · intro child childInner childInside sibling parentInner
    have higher := parent_lt parentInner
    have parentInside : parent place < size := Nat.lt_trans above inside
    have upper := upTo.others (parent place) parentInner parentInside (Nat.ne_of_lt above)
    have kept : (Equiv.swap place (parent place)) (parent (parent place)) = parent (parent place) :=
      Equiv.swap_apply_of_ne_of_ne (Nat.ne_of_lt (Nat.lt_trans higher above)) (Nat.ne_of_lt higher)
    simp only [Function.comp_apply, kept]
    by_cases atPlace : child = place
    · subst atPlace
      rwa [Equiv.swap_apply_left]
    · have lower := parent_lt childInner
      have edge := upTo.others child childInner childInside atPlace
      rw [sibling] at edge lower
      rw [Equiv.swap_apply_of_ne_of_ne atPlace (Nat.ne_of_gt lower)]
      exact le_trans upper edge

end Up

end Bitdb.Base.Heap
