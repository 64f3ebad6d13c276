import Mathlib.Algebra.BigOperators.Field
import Mathlib.Analysis.Convex.StdSimplex

namespace Zaciraci.Lib

section Scatter

variable {ι K : Type} [DecidableEq ι] {places : List ι}

/-- Values are written one after the other to the places that a list of indices names. -/
def scatter : (places : List ι) → (Fin places.length → K) → (ι → K) → ι → K
  | [], _, w => w
  | i :: places, v, w => scatter places (fun j ↦ v j.succ) (Function.update w i (v 0))

theorem scatter_of_notMem (v : Fin places.length → K) (w : ι → K) {i : ι} (h : i ∉ places) :
    scatter places v w i = w i := by
  induction places generalizing w with
  | nil => rfl
  | cons k places ih =>
    rw [List.mem_cons, not_or] at h
    rw [scatter, ih _ _ h.2, Function.update_of_ne h.1]

theorem scatter_get (hnodup : places.Nodup) (v : Fin places.length → K) (w : ι → K)
    (j : Fin places.length) : scatter places v w (places.get j) = v j := by
  induction places generalizing w with
  | nil => exact j.elim0
  | cons k places ih =>
    rw [List.nodup_cons] at hnodup
    rw [scatter]
    cases j using Fin.cases with
    | zero =>
      have hlast := scatter_of_notMem (fun j ↦ v j.succ) (Function.update w k (v 0)) hnodup.1
      exact hlast.trans (Function.update_self ..)
    | succ j => exact ih hnodup.2 _ _ j

theorem scatter_induct (hnodup : places.Nodup) {v : Fin places.length → K} {w : ι → K}
    {P : K → Prop} (hv : ∀ j, P (v j)) {i : ι} (hw : i ∉ places → P (w i)) :
    P (scatter places v w i) := by
  by_cases hi : i ∈ places
  · obtain ⟨j, rfl⟩ := List.mem_iff_get.1 hi
    rw [scatter_get hnodup]
    exact hv j
  · rw [scatter_of_notMem v w hi]
    exact hw hi

theorem comp_scatter {L : Type} (f : K → L) (v : Fin places.length → K) (w : ι → K) (i : ι) :
    f (scatter places v w i) = scatter places (fun j ↦ f (v j)) (fun i ↦ f (w i)) i := by
  induction places generalizing w with
  | nil => rfl
  | cons k places ih =>
    rw [scatter, ih, scatter]
    congr 1
    exact Function.comp_update f w k (v 0)

theorem sum_scatter [Fintype ι] [AddCommMonoid K] (hnodup : places.Nodup)
    (v : Fin places.length → K) (w : ι → K) :
    ∑ i, scatter places v w i = ∑ j, v j + ∑ i with i ∉ places, w i := by
  induction places generalizing w with
  | nil => simp [scatter]
  | cons k places ih =>
    rw [List.nodup_cons] at hnodup
    have hrest : ∑ i with i ∉ places, Function.update w k (v 0) i =
        v 0 + ∑ i with i ∉ k :: places, w i := by
      have hk : k ∉ Finset.univ.filter fun i ↦ i ∉ k :: places := by simp
      have hinsert : (Finset.univ.filter fun i ↦ i ∉ places) =
          insert k (Finset.univ.filter fun i ↦ i ∉ k :: places) := by
        ext i
        by_cases hi : i = k
        · simp [hi, hnodup.1]
        · simp [hi]
      rw [hinsert, Finset.sum_insert hk, Function.update_self]
      congr 1
      refine Finset.sum_congr rfl fun i hi ↦ Function.update_of_ne ?_ _ _
      rintro rfl
      exact hk hi
    have hsum : ∑ j, v j = v 0 + ∑ j, v (Fin.succ j) := Fin.sum_univ_succ (n := places.length) v
    rw [scatter, ih hnodup.2, hrest, hsum, add_left_comm, ← add_assoc]

theorem sum_mul_scatter [Fintype ι] [NonUnitalNonAssocSemiring K] (hnodup : places.Nodup)
    (g : ι → K) (v : Fin places.length → K) (w : ι → K) :
    ∑ i, g i * scatter places v w i =
      ∑ j, g (places.get j) * v j + ∑ i with i ∉ places, g i * w i := by
  have hscatter : (fun i ↦ g i * scatter places v w i) =
      scatter places (fun j ↦ g (places.get j) * v j) fun i ↦ g i * w i := by
    funext i
    by_cases hi : i ∈ places
    · obtain ⟨j, rfl⟩ := List.mem_iff_get.1 hi
      rw [scatter_get hnodup, scatter_get hnodup]
    · rw [scatter_of_notMem _ _ hi, scatter_of_notMem _ _ hi]
  rw [hscatter, sum_scatter hnodup]

end Scatter

section Simplex

variable {ι K : Type} [Fintype ι] [Field K] [LinearOrder K]

theorem scatter_const_mem_stdSimplex [DecidableEq ι] {places : List ι} (hnodup : places.Nodup)
    {x : K} (hx : 0 ≤ x) (hsum : places.length * x = 1) :
    scatter places (fun _ ↦ x) 0 ∈ stdSimplex K ι := by
  refine ⟨fun i ↦ scatter_induct hnodup (fun _ ↦ hx) fun _ ↦ le_rfl, ?_⟩
  rw [sum_scatter hnodup, Finset.sum_const, Finset.card_univ, Fintype.card_fin, nsmul_eq_mul, hsum]
  simp

variable [IsStrictOrderedRing K] {w : ι → K} {M ε : K}

theorem uniform_mem_stdSimplex [Nonempty ι] :
    (fun _ ↦ 1 / Fintype.card ι : ι → K) ∈ stdSimplex K ι := by
  refine ⟨fun _ ↦ by positivity, ?_⟩
  rw [Finset.sum_const, Finset.card_univ, nsmul_eq_mul,
    mul_one_div_cancel (Nat.cast_ne_zero.2 Fintype.card_ne_zero)]

theorem div_sum_mem_stdSimplex (h : ∀ i, 0 ≤ w i) (hsum : 0 < ∑ i, w i) :
    (fun i ↦ w i / ∑ j, w j) ∈ stdSimplex K ι := by
  refine ⟨fun i ↦ div_nonneg (h i) hsum.le, ?_⟩
  rw [← Finset.sum_div, div_self hsum.ne']

/-- Clamping takes from a sum at most the excess that each part may have. -/
theorem sum_sub_le_sum_clamp (hε : 0 ≤ ε) (h : ∀ i, w i ≤ M + ε) :
    ∑ i, w i - Fintype.card ι * ε ≤ ∑ i, max 0 (min (w i) M) := by
  have hpart (i : ι) : w i - ε ≤ max 0 (min (w i) M) := by
    refine le_max_of_le_right (le_min (sub_le_self _ hε) ?_)
    exact sub_le_iff_le_add.2 (h i)
  calc ∑ i, w i - Fintype.card ι * ε = ∑ i, (w i - ε) := by
        rw [Finset.sum_sub_distrib, Finset.sum_const, Finset.card_univ, nsmul_eq_mul]
    _ ≤ ∑ i, max 0 (min (w i) M) := Finset.sum_le_sum fun i _ ↦ hpart i

end Simplex

end Zaciraci.Lib
