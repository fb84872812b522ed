import Mathlib

namespace Xv6.Lib
open Function

/-! ## Sums over a table of which one place changes -/

variable {ι : Type*} {f : ι → Int}

theorem sum_update {α M : Type*} [Fintype ι] [DecidableEq ι] [AddCommGroup M] (g : α → M) (f : ι → α) (i : ι) (v : α) :
    ∑ j, g (update f i v j) = ∑ j, g (f j) + (g v - g (f i)) := by
  have split (h : ι → α) : ∑ j, g (h j) = g (h i) + ∑ j ∈ Finset.univ.erase i, g (h j) :=
    (Finset.add_sum_erase Finset.univ (fun j => g (h j)) (Finset.mem_univ i)).symm
  have others : ∑ j ∈ Finset.univ.erase i, g (update f i v j) = ∑ j ∈ Finset.univ.erase i, g (f j) := by
    grind [Finset.sum_congr]
  rw [split, others, split f, update_self]
  abel

theorem sum_alone [Fintype ι] [DecidableEq ι] {i j : ι} (nonneg : ∀ k, 0 ≤ f k)
    (whole : ∑ k, f k ≤ f i) (other : j ≠ i) : f j = 0 := by
  have split := Finset.add_sum_erase Finset.univ f (Finset.mem_univ i)
  have part := Finset.single_le_sum (fun k _ => nonneg k)
    (Finset.mem_erase.mpr ⟨other, Finset.mem_univ j⟩ : j ∈ Finset.univ.erase i)
  have := nonneg j
  omega

theorem le_sum [Fintype ι] (nonneg : ∀ k, 0 ≤ f k) (i : ι) : f i ≤ ∑ k, f k :=
  Finset.single_le_sum (fun k _ => nonneg k) (Finset.mem_univ i)

end Xv6.Lib
