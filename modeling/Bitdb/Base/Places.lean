import Mathlib.Algebra.BigOperators.Group.Finset.Basic
import Mathlib.Data.Fintype.BigOperators

/-! Sums over places of which one has changed. -/

set_option autoImplicit false

namespace Bitdb.Base

open Function Finset

variable {ι α : Type} [Fintype ι] [DecidableEq ι]

theorem sum_update_add (measure : α → Nat) (places : ι → α) (place : ι) (content : α) :
    ∑ other, measure (update places place content other) + measure (places place) =
      ∑ other, measure (places other) + measure content := by
  have changed := add_sum_erase Finset.univ
    (fun other => measure (update places place content other)) (mem_univ place)
  have before := add_sum_erase Finset.univ (fun other => measure (places other))
    (mem_univ place)
  have rest : ∑ other ∈ Finset.univ.erase place, measure (update places place content other) =
        ∑ other ∈ Finset.univ.erase place, measure (places other) := by
    refine sum_congr rfl fun other member => ?_
    rw [update_of_ne (ne_of_mem_erase member)]
  rw [update_self, rest] at changed
  omega

end Bitdb.Base
