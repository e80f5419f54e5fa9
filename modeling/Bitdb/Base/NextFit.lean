import Mathlib.Algebra.GroupWithZero.Nat
import Mathlib.Algebra.Order.BigOperators.Group.List

/-! Next-fit packing: items go into the last bin as long as they fit, and otherwise into a new one.
-/

set_option autoImplicit false

namespace Bitdb.Base.NextFit

/-- The last bin: how many were opened before it, and how much of it is used. -/
structure Bin where
  number : Nat
  used : Nat
  deriving DecidableEq

variable (limit : Nat)

def Bin.place (bin : Bin) (size : Nat) : Bin :=
  if bin.used + size ≤ limit then ⟨bin.number, bin.used + size⟩ else ⟨bin.number + 1, size⟩

def Bin.pack (bin : Bin) (sizes : List Nat) : Bin := sizes.foldl (place limit) bin

def Group (sizes : List Nat) : Prop := sizes.sum ≤ limit ∨ sizes.length ≤ 1

variable {limit}

theorem Bin.pack_fits {sizes : List Nat} {bin : Bin} (fits : bin.used + sizes.sum ≤ limit) :
    bin.pack limit sizes = ⟨bin.number, bin.used + sizes.sum⟩ := by
  induction sizes generalizing bin with
  | nil => rfl
  | cons size sizes ih =>
    rw [List.sum_cons] at fits
    have first : bin.place limit size = ⟨bin.number, bin.used + size⟩ := if_pos (by omega)
    rw [pack, List.foldl_cons, first, List.sum_cons, ← Nat.add_assoc]
    exact ih (show bin.used + size + sizes.sum ≤ limit by omega)

theorem Bin.number_place_le (bin : Bin) (size : Nat) :
    (bin.place limit size).number ≤ bin.number + 1 := by
  rw [place]
  split
  · exact Nat.le_succ _
  · exact Nat.le_refl _

theorem Bin.number_pack_le {sizes : List Nat} (group : Group limit sizes) (bin : Bin) :
    (bin.pack limit sizes).number ≤ bin.number + 1 := by
  induction sizes generalizing bin with
  | nil => exact Nat.le_succ _
  | cons size sizes ih =>
    rw [pack, List.foldl_cons]
    rcases group with together | single
    · rw [List.sum_cons] at together
      by_cases fits : bin.used + size ≤ limit
      · rw [place, if_pos fits]
        exact ih (.inl (by omega)) _
      · -- The item opens a new bin, and the rest of the group fits behind it.
        rw [place, if_neg fits]
        have rest := pack_fits (show (⟨bin.number + 1, size⟩ : Bin).used + sizes.sum ≤ limit from
          together)
        rw [pack] at rest
        rw [rest]
    · obtain rfl : sizes = [] := List.length_eq_zero_iff.mp (by simpa using single)
      exact bin.number_place_le size

end Bitdb.Base.NextFit
