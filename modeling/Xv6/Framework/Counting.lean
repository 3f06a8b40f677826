import Mathlib

namespace Counting

open Function Finset

variable {ι α : Type} [Fintype ι] [DecidableEq ι]

/-- Changing one point of a family moves its total by the difference there. -/
theorem sum_update (g : α → Nat) (f : ι → α) (i : ι) (x : α) :
    (∑ j, g (update f i x j)) + g (f i) = (∑ j, g (f j)) + g x := by
  have h1 := add_sum_erase univ (fun j => g (update f i x j)) (mem_univ i)
  have h2 := add_sum_erase univ (fun j => g (f j)) (mem_univ i)
  have h3 : ∑ j ∈ Finset.univ.erase i, g (update f i x j) = ∑ j ∈ Finset.univ.erase i, g (f j) := by
    apply sum_congr rfl
    intro j hj
    rw [update_of_ne (ne_of_mem_erase hj)]
  simp only [update_self] at h1
  omega

omit [DecidableEq ι] in
theorem le_sum (g : ι → Nat) (i : ι) : g i ≤ ∑ j, g j :=
  single_le_sum (fun _ _ => Nat.zero_le _) (mem_univ i)

end Counting
