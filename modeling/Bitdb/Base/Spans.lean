import Mathlib.Algebra.GroupWithZero.Nat
import Mathlib.Order.CompletePartialOrder
import Mathlib.Order.Interval.Set.Disjoint

/-! Ranges of addresses: which lie apart, and which lie inside others. -/

set_option autoImplicit false

namespace Bitdb.Base

structure Span where
  start : Nat
  size : Nat
  deriving DecidableEq, Repr

namespace Span

def cells (span : Span) : Set Nat := Set.Ico span.start (span.start + span.size)

def Apart (first second : Span) : Prop := Disjoint first.cells second.cells

def Within (inner outer : Span) : Prop := inner.cells ⊆ outer.cells

variable {first second inner outer other otherInner : Span}

theorem apart_iff : first.Apart second ↔
    min (first.start + first.size) (second.start + second.size) ≤ max first.start second.start :=
  Set.Ico_disjoint_Ico

theorem Apart.symm (apart : first.Apart second) : second.Apart first :=
  Disjoint.symm apart

theorem Apart.mono (apart : outer.Apart other) (inside : inner.Within outer)
    (otherInside : otherInner.Within other) : inner.Apart otherInner :=
  Disjoint.mono inside otherInside apart

theorem Within.trans (inside : inner.Within outer) (outside : outer.Within other) :
    inner.Within other :=
  Set.Subset.trans inside outside

theorem Within.refl (span : Span) : span.Within span := Set.Subset.rfl

theorem within_of_le (begins : outer.start ≤ inner.start)
    (ends : inner.start + inner.size ≤ outer.start + outer.size) : inner.Within outer :=
  Set.Ico_subset_Ico begins ends

end Span

end Bitdb.Base
