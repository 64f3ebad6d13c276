import Zaciraci.Portfolio.Covariance
import Zaciraci.Portfolio.Exhaustive

namespace Zaciraci.Portfolio

open Lib Matrix

variable {K : Type} [Field K] {n : ℕ} {excess : Fin n → K} {cov : Matrix (Fin n) (Fin n) K}
  {places : List (Fin n)}

theorem mul_scatter (hnodup : places.Nodup) (g : Fin n → K) (z : Fin places.length → K) :
    ∑ j, g j * scatter places z 0 j = ∑ k, g (places.get k) * z k := by
  rw [sum_mul_scatter hnodup]
  simp

theorem HeldWithin.dotProduct_congr {v f g : Fin n → K} (hv : HeldWithin places v)
    (h : ∀ i ∈ places, f i = g i) : v ⬝ᵥ f = v ⬝ᵥ g := by
  refine Finset.sum_congr rfl fun i _ ↦ ?_
  by_cases hi : v i = 0
  · rw [hi, zero_mul, zero_mul]
  · rw [h i (hv i hi)]

theorem mulVec_scatter (hnodup : places.Nodup) {z : Fin places.length → K}
    (hz : (cov.submatrix places.get places.get) *ᵥ z = fun k ↦ excess (places.get k)) :
    ∀ i ∈ places, (cov *ᵥ scatter places z 0) i = excess i := by
  intro i hi
  obtain ⟨k, rfl⟩ := List.mem_iff_get.1 hi
  rw [← congrFun hz k]
  exact mul_scatter hnodup (cov (places.get k)) z

variable [LinearOrder K] [IsStrictOrderedRing K] {ε : K} {lib : Decompositions K}

/-- A portfolio of some assets that no other portfolio of them, long or short, beats in the ratio of
its excess return to its risk. -/
structure IsTangent (excess : Fin n → K) (cov : Matrix (Fin n) (Fin n) K) (places : List (Fin n))
    (w : Fin n → K) : Prop where
  mem : w ∈ stdSimplex K (Fin n)
  held : HeldWithin places w
  excess_pos : 0 < w ⬝ᵥ excess
  best : ∀ v, HeldWithin places v →
    (v ⬝ᵥ excess) ^ 2 * (w ⬝ᵥ cov *ᵥ w) ≤ (w ⬝ᵥ excess) ^ 2 * (v ⬝ᵥ cov *ᵥ v)

theorem isTangent_of_solution (hε : 0 < ε) (hcov : FormAtLeast ε cov) (hnodup : places.Nodup)
    {z : Fin places.length → K} (hnonneg : ∀ k, 0 ≤ z k) (hsum : 0 < ∑ k, z k)
    (hz : (cov.submatrix places.get places.get) *ᵥ z = fun k ↦ excess (places.get k)) :
    IsTangent excess cov places (scatter places (fun k ↦ z k / ∑ j, z j) 0) := by
  set w := scatter places (fun k ↦ z k / ∑ j, z j) 0 with hw
  have hscaled : (∑ k, z k) • w = scatter places z 0 := by
    funext i
    rw [Pi.smul_apply, hw, comp_scatter ((∑ k, z k) • ·)]
    refine congrFun (congrArg₂ (scatter places) (funext fun k ↦ ?_) ?_) i
    · rw [smul_eq_mul, mul_div_cancel₀ _ hsum.ne']
    · exact smul_zero (∑ k, z k)
  have hmem : w ∈ stdSimplex K (Fin n) := by
    refine ⟨fun i ↦ ?_, ?_⟩
    · exact scatter_induct hnodup (P := (0 ≤ ·)) (fun k ↦ div_nonneg (hnonneg k) hsum.le)
        fun _ ↦ le_rfl
    · rw [hw, sum_scatter hnodup, ← Finset.sum_div, div_self hsum.ne']
      simp
  have hheld : HeldWithin places w := heldWithin_scatter _ _
  have hexcess {v : Fin n → K} (hv : HeldWithin places v) :
      v ⬝ᵥ excess = (∑ k, z k) * (v ⬝ᵥ cov *ᵥ w) := by
    rw [← smul_eq_mul, ← dotProduct_smul, ← mulVec_smul, hscaled]
    exact hv.dotProduct_congr fun i hi ↦ (mulVec_scatter hnodup hz i hi).symm
  have hvar : 0 < w ⬝ᵥ cov *ᵥ w := by
    refine (hcov.positiveDefinite hε).pos w fun hzero ↦ ?_
    have hone := hmem.2
    rw [hzero] at hone
    simp at hone
  refine ⟨hmem, hheld, ?_, fun v hv ↦ ?_⟩
  · rw [hexcess hheld]
    exact mul_pos hsum hvar
  · have hcauchy := (hcov.mono hε.le).sq_le v w
    rw [hexcess hv, hexcess hheld]
    calc ((∑ k, z k) * (v ⬝ᵥ cov *ᵥ w)) ^ 2 * (w ⬝ᵥ cov *ᵥ w) =
          ((∑ k, z k) ^ 2 * (w ⬝ᵥ cov *ᵥ w)) * (v ⬝ᵥ cov *ᵥ w) ^ 2 := by ring
      _ ≤ ((∑ k, z k) ^ 2 * (w ⬝ᵥ cov *ᵥ w)) * ((v ⬝ᵥ cov *ᵥ v) * (w ⬝ᵥ cov *ᵥ w)) := by
          gcongr
      _ = ((∑ k, z k) * (w ⬝ᵥ cov *ᵥ w)) ^ 2 * (v ⬝ᵥ cov *ᵥ v) := by ring

/-- Which of the active assets are left when the one that the tangency portfolio is most short of,
the first of several such, is dropped until there is none. -/
inductive Leaves (excess : Fin n → K) (cov : Matrix (Fin n) (Fin n) K) :
    List (Fin n) → List (Fin n) → Prop
  | long {active : List (Fin n)} (z : Fin active.length → K) :
      cov.submatrix active.get active.get *ᵥ z = (fun k ↦ excess (active.get k)) →
      (∀ k, 0 ≤ z k) → Leaves excess cov active active
  | short {active places : List (Fin n)} (z : Fin active.length → K) (idx : Fin active.length) :
      cov.submatrix active.get active.get *ᵥ z = (fun k ↦ excess (active.get k)) →
      z idx < 0 → (∀ k, z idx ≤ z k) → (∀ k < idx, z idx < z k) →
      Leaves excess cov (active.eraseIdx idx) places → Leaves excess cov active places

theorem solution_unique (hcov : PositiveDefinite cov) (hnodup : places.Nodup)
    {z z' : Fin places.length → K}
    (hz : cov.submatrix places.get places.get *ᵥ z = fun k ↦ excess (places.get k))
    (hz' : cov.submatrix places.get places.get *ᵥ z' = fun k ↦ excess (places.get k)) : z = z' :=
  (hcov.submatrix (List.nodup_iff_injective_get.1 hnodup)).mulVec_injective (hz.trans hz'.symm)

theorem Leaves.unique (hcov : PositiveDefinite cov) {active places' : List (Fin n)}
    (hnodup : active.Nodup) (h : Leaves excess cov active places)
    (h' : Leaves excess cov active places') : places = places' := by
  induction h generalizing places' with
  | long z hz hnonneg =>
    cases h' with
    | long => rfl
    | short z' idx hz' hneg =>
      obtain rfl := solution_unique hcov hnodup hz hz'
      exact absurd (hnonneg idx) hneg.not_ge
  | short z idx hz hneg hleast hfirst _ ih =>
    cases h' with
    | long z' hz' hnonneg =>
      obtain rfl := solution_unique hcov hnodup hz hz'
      exact absurd (hnonneg idx) hneg.not_ge
    | short z' idx' hz' hneg' hleast' hfirst' hrest' =>
      obtain rfl := solution_unique hcov hnodup hz hz'
      obtain hlt | rfl | hlt := lt_trichotomy idx idx'
      · exact absurd (hleast idx') (hfirst' idx hlt).not_ge
      · exact ih (hnodup.sublist (List.eraseIdx_sublist _ _)) hrest'
      · exact absurd (hleast' idx) (hfirst idx' hlt).not_ge

/-- What is left of the active assets in the end. Without a positive weight they have no excess
return, and every asset gets the same. -/
def Settles (excess : Fin n → K) (cov : Matrix (Fin n) (Fin n) K) (places : List (Fin n))
    (w : Fin n → K) : Prop :=
  ((∀ i ∈ places, excess i = 0) ∧ w = defaultWeights n) ∨ IsTangent excess cov places w

theorem not_find_before {m : ℕ} {p : Fin m → Bool} {i k : Fin m}
    (h : (List.finRange m).find? p = some i) (hk : k < i) : ¬ p k = true := by
  obtain ⟨-, before, after, hlist, hbefore⟩ := List.find?_eq_some_iff_append.1 h
  have hsorted := List.pairwise_lt_finRange m
  rw [hlist, List.pairwise_append] at hsorted
  have hmem := List.mem_finRange k
  rw [hlist, List.mem_append, List.mem_cons] at hmem
  rcases hmem with hmem | rfl | hmem
  · simpa using hbefore k hmem
  · exact absurd hk (lt_irrefl _)
  · exact absurd hk ((List.pairwise_cons.1 hsorted.2.1).1 k hmem).not_gt

variable (excess) in
theorem sharpeOfActive_settles (hlib : lib.Exact) (hε : 0 < ε) (hcov : FormAtLeast ε cov)
    (active : List (Fin n)) (hnodup : active.Nodup) :
    ∃ places, Leaves excess cov active places ∧
      Settles excess cov places (sharpeOfActive lib excess cov active) := by
  have hdefinite : PositiveDefinite (cov.submatrix active.get active.get) :=
    (hcov.submatrix (List.nodup_iff_injective_get.1 hnodup)).positiveDefinite hε
  obtain ⟨z, hsolve, hz⟩ := hlib.solve_eq hdefinite fun k ↦ excess (active.get k)
  rw [sharpeOfActive]
  split_ifs with hnil
  · refine ⟨active, .long z hz fun k ↦ ?_, .inl ⟨by simp [hnil], rfl⟩⟩
    subst hnil
    exact k.elim0
  · rw [show lib.solve (fun i j ↦ cov (active.get i) (active.get j)) _ = some z from hsolve]
    dsimp only
    split
    · rename_i idx hfind
      obtain ⟨hneg, hleast⟩ : z idx < 0 ∧ ∀ j, z idx ≤ z j := by simpa using List.find?_some hfind
      have hfirst (k) (hk : k < idx) : z idx < z k := by
        by_contra hle
        refine not_find_before hfind hk (decide_eq_true ?_)
        exact ⟨(not_lt.1 hle).trans_lt hneg, fun j ↦ (not_lt.1 hle).trans (hleast j)⟩
      have hshorter : (active.eraseIdx idx).length < active.length := by
        rw [List.length_eraseIdx_of_lt idx.isLt]
        have := idx.isLt
        omega
      obtain ⟨places, hleaves, hsettles⟩ := sharpeOfActive_settles hlib hε hcov
        (active.eraseIdx idx) (hnodup.sublist (List.eraseIdx_sublist _ _))
      exact ⟨places, .short z idx hz hneg hleast hfirst hleaves, hsettles⟩
    · rename_i hfind
      have hnonneg : ∀ k, 0 ≤ z k := by
        by_contra! ⟨k, hk⟩
        have : Nonempty (Fin active.length) := ⟨k⟩
        obtain ⟨least, hleast⟩ := Finite.exists_min z
        rw [List.find?_eq_none] at hfind
        refine hfind least (List.mem_finRange _) (decide_eq_true ⟨?_, hleast⟩)
        exact (hleast k).trans_lt hk
      refine ⟨active, .long z hz hnonneg, ?_⟩
      split_ifs with hsum
      · have hzero : z = 0 := by
          funext k
          have htotal := le_antisymm hsum (Finset.sum_nonneg fun k _ ↦ hnonneg k)
          exact (Finset.sum_eq_zero_iff_of_nonneg fun k _ ↦ hnonneg k).1 htotal k
            (Finset.mem_univ k)
        refine .inl ⟨fun i hi ↦ ?_, rfl⟩
        obtain ⟨k, rfl⟩ := List.mem_iff_get.1 hi
        rw [← congrFun hz k, hzero, mulVec_zero]
        rfl
      · exact .inr (isTangent_of_solution hε hcov hnodup hnonneg (not_le.1 hsum) hz)
termination_by active.length

omit [IsStrictOrderedRing K] in
theorem leaves_of_solution {z : Fin n → K} (hz : cov *ᵥ z = excess) (hnonneg : ∀ i, 0 ≤ z i) :
    Leaves excess cov (List.finRange n) (List.finRange n) := by
  have hscatter : scatter (List.finRange n) (fun k ↦ z ((List.finRange n).get k)) 0 = z := by
    funext j
    obtain ⟨k, rfl⟩ := List.mem_iff_get.1 (List.mem_finRange j)
    rw [scatter_get (List.nodup_finRange n)]
  refine .long (fun k ↦ z ((List.finRange n).get k)) (funext fun k ↦ ?_) fun k ↦ hnonneg _
  have hrow := mul_scatter (List.nodup_finRange n) (cov ((List.finRange n).get k)) fun k ↦
    z ((List.finRange n).get k)
  rw [hscatter] at hrow
  rw [← hz]
  exact hrow.symm

/-- With a covariance matrix that is bounded from below, the assets that are left when the shortest
one is dropped again and again get their tangency portfolio: no portfolio of them has a better
ratio of excess return to risk. None is dropped if the tangency portfolio of all assets has no
short position. -/
theorem maximizeSharpeRatio_isTangent (lib : Decompositions K) (hlib : lib.Exact) (hε : 0 < ε)
    (hcov : FormAtLeast ε cov) (hn : 2 ≤ n) (expectedReturns : Fin n → K)
    (hreturns : sameReturns expectedReturns = false) :
    ∃ places : List (Fin n),
      (∀ other, Leaves (excessReturns expectedReturns) cov (List.finRange n) other ↔
        other = places) ∧
      Settles (excessReturns expectedReturns) cov places
        (maximizeSharpeRatio lib expectedReturns cov) ∧
      ((∃ z, cov *ᵥ z = excessReturns expectedReturns ∧ ∀ i, 0 ≤ z i) →
        places = List.finRange n) := by
  rw [maximizeSharpeRatio, if_neg (by omega), if_neg (by omega), hreturns, if_neg (by decide)]
  obtain ⟨places, hleaves, hsettles⟩ := sharpeOfActive_settles
    (excessReturns expectedReturns) hlib hε hcov _ (List.nodup_finRange n)
  have hunique {other} (h : Leaves (excessReturns expectedReturns) cov (List.finRange n) other) :
      other = places := h.unique (hcov.positiveDefinite hε) (List.nodup_finRange n) hleaves
  refine ⟨places, fun other ↦ ⟨hunique, fun h ↦ h ▸ hleaves⟩, hsettles, ?_⟩
  rintro ⟨z, hz, hnonneg⟩
  exact (hunique (leaves_of_solution hz hnonneg)).symm

/-- The first of two assets is below the risk-free rate and dropped. -/
theorem maximizeSharpeRatio_isTangent_twoAssets :
    let returns : Fin 2 → ℚ := ![-(1 / 100), 1 / 50]
    Settles (excessReturns returns) 1 [1] (maximizeSharpeRatio eliminating returns 1) := by
  intro returns
  obtain ⟨places, hleft, hsettles, -⟩ := maximizeSharpeRatio_isTangent eliminating
    eliminating_exact one_pos formAtLeast_one le_rfl returns (by decide +kernel)
  have hsolution (active : List (Fin 2)) (hnodup : active.Nodup) :
      (1 : Matrix (Fin 2) (Fin 2) ℚ).submatrix active.get active.get *ᵥ
        (fun k ↦ excessReturns returns (active.get k)) =
      fun k ↦ excessReturns returns (active.get k) := by
    rw [submatrix_one _ (List.nodup_iff_injective_get.1 hnodup), one_mulVec]
  have hlast : Leaves (excessReturns returns) 1 [1] [1] :=
    .long _ (hsolution [1] (by decide)) (by decide +kernel)
  have hleaves : Leaves (excessReturns returns) 1 (List.finRange 2) [1] :=
    .short _ ⟨0, by decide⟩ (hsolution _ (List.nodup_finRange 2)) (by decide +kernel)
      (by decide +kernel) (by decide +kernel) hlast
  rwa [(hleft [1]).1 hleaves]

end Zaciraci.Portfolio
