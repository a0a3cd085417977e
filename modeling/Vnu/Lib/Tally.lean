import Mathlib.Algebra.BigOperators.Group.Finset.Basic
import Mathlib.Algebra.BigOperators.Fin

/-!
Sums over a table one entry of which is replaced.
-/
namespace Vnu.Lib.Tally

open Function

variable {ι α : Type*} [Fintype ι] [DecidableEq ι]

theorem sum_update (g : α → ℕ) (f : ι → α) (i : ι) (b : α) :
    (∑ x, g (update f i b x)) + g (f i) = (∑ x, g (f x)) + g b := by
  have hnew : ∑ x, g (update f i b x) = g b + ∑ x ∈ Finset.univ.erase i, g (f x) := by
    rw [← Finset.add_sum_erase _ _ (Finset.mem_univ i), update_self]
    congr 1
    apply Finset.sum_congr rfl
    intro x hx
    rw [update_of_ne (Finset.ne_of_mem_erase hx)]
  have hold : ∑ x, g (f x) = g (f i) + ∑ x ∈ Finset.univ.erase i, g (f x) :=
    (Finset.add_sum_erase _ _ (Finset.mem_univ i)).symm
  omega

end Vnu.Lib.Tally
