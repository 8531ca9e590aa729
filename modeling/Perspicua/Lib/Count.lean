import Mathlib.Algebra.BigOperators.Fin
import Mathlib.Algebra.BigOperators.Finprod
import Mathlib.Algebra.Order.BigOperators.Group.Finset

/-!
# Counting over a family

A quantity spread over the members of a finite family, where a step changes one member:
the total changes by what that member contributes. Totals are compared in additive form,
so that the goals they leave are linear. They are `finsum`s, which do not unfold: the
families here are large, and nothing is ever gained by enumerating one.
-/

namespace Perspicua.Lib

/-- One if `p` holds. It is classical on purpose: deciding `p` is never wanted. -/
noncomputable def ind (p : Prop) : ℕ := @ite ℕ p (Classical.propDecidable p) 1 0

theorem ind_pos {p : Prop} (h : p) : ind p = 1 := @if_pos p (Classical.propDecidable p) h ℕ 1 0

theorem ind_neg {p : Prop} (h : ¬ p) : ind p = 0 := @if_neg p (Classical.propDecidable p) h ℕ 1 0

@[simp] theorem ind_true : ind True = 1 := ind_pos trivial

@[simp] theorem ind_false : ind False = 0 := ind_neg id

theorem ind_le (p : Prop) : ind p ≤ 1 := by
  by_cases h : p
  · rw [ind_pos h]
  · rw [ind_neg h]
    exact Nat.zero_le 1

theorem ind_congr {p q : Prop} (h : p ↔ q) : ind p = ind q := by rw [propext h]

theorem of_ind_pos {p : Prop} (h : 0 < ind p) : p := by
  by_contra hp
  rw [ind_neg hp] at h
  exact absurd h (lt_irrefl 0)

theorem finsum_eq_zero {ι : Type*} {f : ι → ℕ} (h : ∀ i, f i = 0) : ∑ᶠ i, f i = 0 := by
  rw [finsum_congr h]
  exact finsum_zero

variable {ι α : Type*} [Fintype ι]

/-- A member contributes at most the total. -/
theorem le_finsum (f : ι → ℕ) (i : ι) : f i ≤ ∑ᶠ j, f j := by
  rw [finsum_eq_sum_of_fintype]
  exact Finset.single_le_sum (fun _ _ => Nat.zero_le _) (Finset.mem_univ i)

theorem finsum_mono {f g : ι → ℕ} (h : ∀ i, f i ≤ g i) : ∑ᶠ i, f i ≤ ∑ᶠ i, g i := by
  rw [finsum_eq_sum_of_fintype, finsum_eq_sum_of_fintype]
  exact Finset.sum_le_sum fun i _ => h i

theorem finsum_add {f g : ι → ℕ} : ∑ᶠ i, (f i + g i) = ∑ᶠ i, f i + ∑ᶠ i, g i := by
  rw [finsum_eq_sum_of_fintype, finsum_eq_sum_of_fintype, finsum_eq_sum_of_fintype]
  exact Finset.sum_add_distrib

/-- The total over pairs, one coordinate at a time. -/
theorem finsum_prod {κ : Type*} [Fintype κ] (f : ι × κ → ℕ) :
    ∑ᶠ x, f x = ∑ᶠ i, ∑ᶠ j, f (i, j) := by
  have hinner : ∀ i, ∑ᶠ j, f (i, j) = ∑ j, f (i, j) := fun i => finsum_eq_sum_of_fintype _
  rw [finsum_congr hinner, finsum_eq_sum_of_fintype, finsum_eq_sum_of_fintype,
    Fintype.sum_prod_type]

/-- The total over a concatenation of one list per index. -/
theorem sum_map_flatMap_finRange {m : ℕ} (f : α → ℕ) (g : Fin m → List α) :
    (((List.finRange m).flatMap g).map f).sum = ∑ᶠ i, ((g i).map f).sum := by
  rw [List.map_flatMap, List.flatMap_def, List.sum_flatten, List.map_map,
    finsum_eq_sum_of_fintype, Fin.sum_univ_def]
  rfl

variable [DecidableEq ι]

/-- Replacing member `i` exchanges its contribution. -/
theorem finsum_update (f : α → ℕ) (g : ι → α) (i : ι) (x : α) :
    ∑ᶠ j, f (Function.update g i x j) + f (g i) = ∑ᶠ j, f (g j) + f x := by
  have hrest : ∑ j ∈ Finset.univ.erase i, f (Function.update g i x j)
      = ∑ j ∈ Finset.univ.erase i, f (g j) := by
    apply Finset.sum_congr rfl
    intro j hj
    rw [Function.update_of_ne (Finset.ne_of_mem_erase hj)]
  have hnew := Finset.add_sum_erase Finset.univ (fun j => f (Function.update g i x j))
    (Finset.mem_univ i)
  have hold := Finset.add_sum_erase Finset.univ (fun j => f (g j)) (Finset.mem_univ i)
  simp only [Function.update_self] at hnew
  rw [finsum_eq_sum_of_fintype, finsum_eq_sum_of_fintype]
  omega

/-- Two members contribute at most the total. -/
theorem add_le_finsum (f : ι → ℕ) {i j : ι} (hij : i ≠ j) : f i + f j ≤ ∑ᶠ k, f k := by
  have hi := Finset.add_sum_erase Finset.univ f (Finset.mem_univ i)
  have hj : f j ≤ ∑ k ∈ Finset.univ.erase i, f k :=
    Finset.single_le_sum (fun _ _ => Nat.zero_le _)
      (Finset.mem_erase.mpr ⟨hij.symm, Finset.mem_univ j⟩)
  rw [finsum_eq_sum_of_fintype]
  omega

end Perspicua.Lib
