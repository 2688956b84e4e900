import Mathlib.Algebra.BigOperators.Group.Finset.Basic
import Mathlib.Algebra.Order.BigOperators.Group.Finset
import Mathlib.Data.Fintype.Basic

/-! How many of `n` threads are in a state, as one of them changes. -/

namespace Lib

variable {n : Nat} {σ : Type} (p : σ → Bool)

def census (threads : Fin n → σ) : Nat := ∑ i, if p (threads i) then 1 else 0

theorem census_split (threads : Fin n → σ) (i : Fin n) :
    census p threads = (if p (threads i) then 1 else 0) +
      ∑ j ∈ Finset.univ.erase i, if p (threads j) then 1 else 0 := by
  exact (Finset.add_sum_erase _ _ (Finset.mem_univ i)).symm

/-- One thread leaves a state, and is in another. -/
theorem census_update (threads : Fin n → σ) (i : Fin n) (x : σ) :
    census p (Function.update threads i x) + (if p (threads i) then 1 else 0) =
      census p threads + (if p x then 1 else 0) := by
  have hrest : ∑ j ∈ Finset.univ.erase i, (if p (Function.update threads i x j) then 1 else 0) =
      ∑ j ∈ Finset.univ.erase i, if p (threads j) then 1 else 0 := by
    apply Finset.sum_congr rfl
    intro j hj
    rw [Function.update_of_ne (Finset.ne_of_mem_erase hj)]
  rw [census_split p _ i, census_split p threads i, hrest, Function.update_self]
  omega

theorem census_eq_zero (threads : Fin n → σ) :
    census p threads = 0 ↔ ∀ i, p (threads i) = false := by
  simp [census]

end Lib
