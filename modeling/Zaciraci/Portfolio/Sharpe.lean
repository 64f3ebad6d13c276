import Zaciraci.Lib.Elimination
import Zaciraci.Lib.Loop
import Zaciraci.Portfolio.Weights

namespace Zaciraci.Portfolio

open Lib

section Model

variable {K : Type} [Field K] [LinearOrder K] {m n : ℕ}

def riskFreeRate : K := 5.479e-5

def ridgeEpsilon : K := 1e-6

/-- The decompositions of the linear algebra library. `cholesky` gives the solver for a positive
definite matrix, `lu` a solution for an invertible one. -/
structure Decompositions (K : Type) where
  cholesky : {m : ℕ} → Matrix (Fin m) (Fin m) K → Option ((Fin m → K) → Fin m → K)
  lu : {m : ℕ} → Matrix (Fin m) (Fin m) K → (Fin m → K) → Option (Fin m → K)

def Decompositions.Exact (lib : Decompositions K) : Prop :=
  ∀ {m : ℕ} (A : Matrix (Fin m) (Fin m) K), PositiveDefinite A →
    ∃ solve, lib.cholesky A = some solve ∧ ∀ b, A.mulVec (solve b) = b

def Decompositions.solve (lib : Decompositions K) (A : Matrix (Fin m) (Fin m) K) (rhs : Fin m → K) :
    Option (Fin m → K) :=
  let result := match lib.cholesky A with
    | some chol => some (chol rhs)
    | none => lib.lu A rhs
  match result with
  | some x => some x
  | none =>
    -- Both failed. Cholesky is tried once more, with a ridge.
    (lib.cholesky fun i j ↦ if i = j then A i j + ridgeEpsilon else A i j).map fun chol ↦ chol rhs

def sameReturns (expectedReturns : Fin n → K) : Bool :=
  match (List.ofFn expectedReturns).min?, (List.ofFn expectedReturns).max? with
  | some minReturn, some maxReturn => |maxReturn - minReturn| < 1e-12
  | _, _ => false

def excessReturns (expectedReturns : Fin n → K) (i : Fin n) : K := expectedReturns i - riskFreeRate

/-- The long-only portfolio of the active assets. One with the most negative weight leaves them, and
the rest is solved again. -/
def sharpeOfActive (lib : Decompositions K) (excess : Fin n → K) (cov : Matrix (Fin n) (Fin n) K)
    (active : List (Fin n)) : Fin n → K :=
  if active = [] then defaultWeights n else
  match lib.solve (fun i j ↦ cov (active.get i) (active.get j)) fun i ↦ excess (active.get i) with
  | none => defaultWeights n
  | some z =>
    match (List.finRange active.length).find? fun i ↦ z i < 0 ∧ ∀ j, z i ≤ z j with
    | some idx => sharpeOfActive lib excess cov (active.eraseIdx idx)
    | none =>
      if ∑ i, z i ≤ 0 then defaultWeights n
      else scatter active (fun i ↦ z i / ∑ j, z j) 0
termination_by active.length
decreasing_by
  rw [List.length_eraseIdx_of_lt idx.isLt]
  have := idx.isLt
  omega

def maximizeSharpeRatio (lib : Decompositions K) (expectedReturns : Fin n → K)
    (cov : Matrix (Fin n) (Fin n) K) : Fin n → K :=
  if n = 0 then 0
  else if n = 1 then 1
  else if sameReturns expectedReturns then defaultWeights n
  else sharpeOfActive lib (excessReturns expectedReturns) cov (List.finRange n)

inductive BoundState
  | free
  | lower
  | upper
deriving DecidableEq

def assets (state : Fin n → BoundState) (s : BoundState) : List (Fin n) :=
  (List.finRange n).filter (state · = s)

section Round

variable (lib : Decompositions K) (excess : Fin n → K) (cov : Matrix (Fin n) (Fin n) K) (M : K)
  (state : Fin n → BoundState)

def budgetFree : K := 1 - ((assets state .upper).map fun _ ↦ M).sum

/-- The multiplier and the weights of the free assets, or nothing where a system has no solution or
the multiplier is not determined. -/
def solveFree : Option (K × (Fin (assets state .free).length → K)) :=
  let free := (assets state .free).get
  let covFree : Matrix (Fin (assets state .free).length) (Fin (assets state .free).length) K :=
    fun i j ↦ cov (free i) (free j)
  match lib.solve covFree fun i ↦ excess (free i) with
  | none => none
  | some p =>
    let q := if assets state .upper = [] then some 0
      else lib.solve covFree fun i ↦ ((assets state .upper).map fun u ↦ cov (free i) u * M).sum
    match q with
    | none => none
    | some q =>
      if |∑ i, p i| < 1e-15 then none
      else
        let γ := (budgetFree M state + ∑ i, q i) / ∑ i, p i
        some (γ, fun i ↦ γ * p i - q i)

def assemble (wFree : Fin (assets state .free).length → K) : Fin n → K :=
  scatter (assets state .upper) (fun _ ↦ M) (scatter (assets state .free) wFree 0)

/-- An asset leaves its bound if the gradient of the Lagrangian points inwards. -/
def released (γ : K) (weights : Fin n → K) (i : Fin n) : Bool :=
  let grad := excess i - γ * ∑ j, cov i j * weights j
  match state i with
  | .free => false
  | .lower => 1e-10 < grad
  | .upper => grad < -1e-10

def sharpeRound : Round (Fin n → K) (Fin n → BoundState) :=
  let free := assets state .free
  let upper := assets state .upper
  if free = [] then
    if upper = [] then .leave (defaultWeights n)
    -- The caps are normalised whatever they add up to.
    else .leave (normalizeWeights (scatter upper (fun _ ↦ M) 0))
  else if budgetFree M state ≤ 0 then
    .leave (scatter upper (fun _ ↦ M / (upper.length * M)) 0)
  else
    match solveFree lib excess cov M state with
    | none => .leave (defaultWeights n)
    | some (γ, wFree) =>
      match (List.finRange free.length).find? (wFree · < -1e-10) with
      | some i => .again (Function.update state (free.get i) .lower)
      | none =>
        match (List.finRange free.length).find? (M + 1e-10 < wFree ·) with
        | some i => .again (Function.update state (free.get i) .upper)
        | none =>
          let weights := assemble M state wFree
          match (List.finRange n).find? (released excess cov state γ weights) with
          | some i => .again (Function.update state i .free)
          | none =>
            if ∑ i, weights i ≤ 0 then .leave (defaultWeights n)
            else .leave (clampAndNormalize (normalizeWeights weights) M)

end Round

/-- Every asset is at a bound, and those at the upper one do not cover the portfolio. -/
structure Short (M : K) (state : Fin n → BoundState) : Prop where
  free_eq : assets state .free = []
  upper_ne : assets state .upper ≠ []
  upper_lt : (assets state .upper).length * M < 1 - n / 10 ^ 9

def Reaches (lib : Decompositions K) (expectedReturns : Fin n → K) (cov : Matrix (Fin n) (Fin n) K)
    (M : K) (state : Fin n → BoundState) : Prop :=
  sameReturns expectedReturns = false ∧
    Visits (sharpeRound lib (excessReturns expectedReturns) cov M) (3 * n + 10) (fun _ ↦ .free)
      state

def boxMaximizeSharpe (lib : Decompositions K) (expectedReturns : Fin n → K)
    (cov : Matrix (Fin n) (Fin n) K) (maxPosition : K) : Fin n → K :=
  if n = 0 then 0
  else if n = 1 then 1
  else if 1 ≤ effectiveMax n maxPosition then maximizeSharpeRatio lib expectedReturns cov
  else if sameReturns expectedReturns then defaultWeights n
  else
    loop (sharpeRound lib (excessReturns expectedReturns) cov (effectiveMax n maxPosition))
      (fun _ ↦ defaultWeights n) (3 * n + 10) fun _ ↦ .free

end Model

section Rounds

variable {K : Type} [Field K] {n : ℕ} {lib : Decompositions K} {excess : Fin n → K}
  {cov : Matrix (Fin n) (Fin n) K} {M : K} {state : Fin n → BoundState} {s : BoundState}

theorem assets_nodup (state : Fin n → BoundState) (s : BoundState) : (assets state s).Nodup :=
  (List.nodup_finRange n).filter _

theorem mem_assets {i : Fin n} : i ∈ assets state s ↔ state i = s := by
  simp [assets]

theorem budgetFree_eq : budgetFree M state = 1 - (assets state .upper).length * M := by
  rw [budgetFree, List.map_const', List.sum_replicate, nsmul_eq_mul]

theorem sum_mul_assemble (g : Fin n → K) (wFree : Fin (assets state .free).length → K) :
    ∑ i, g i * assemble M state wFree i = ∑ k, g ((assets state .free).get k) * wFree k +
      ((assets state .upper).map fun u ↦ g u * M).sum := by
  have hzero : ∑ i with i ∉ assets state .upper, g i * scatter (assets state .free) wFree 0 i =
      ∑ i, g i * scatter (assets state .free) wFree 0 i := by
    refine Finset.sum_filter_of_ne fun i _ hne hmem ↦ hne ?_
    rw [scatter_of_notMem _ _ fun hfree ↦ ?_, Pi.zero_apply, mul_zero]
    rw [mem_assets] at hmem hfree
    exact absurd (hmem.symm.trans hfree) (by decide)
  have hupper : ∑ k, g ((assets state .upper).get k) * M =
      ((assets state .upper).map fun u ↦ g u * M).sum := by
    rw [← List.sum_ofFn]
    congr 1
    exact (List.ofFn_getElem_eq_map (assets state .upper) fun u ↦ g u * M)
  rw [assemble, sum_mul_scatter (assets_nodup _ _), hzero, sum_mul_scatter (assets_nodup _ _),
    hupper, add_comm]
  simp

theorem sum_assemble (wFree : Fin (assets state .free).length → K) :
    ∑ i, assemble M state wFree i = ∑ i, wFree i + (assets state .upper).length * M := by
  have h := sum_mul_assemble (M := M) (fun _ ↦ 1) wFree
  simpa using h

variable [LinearOrder K]

theorem Decompositions.Exact.solve_eq (hlib : lib.Exact) {m : ℕ} {A : Matrix (Fin m) (Fin m) K}
    (hA : PositiveDefinite A) (rhs : Fin m → K) :
    ∃ x, lib.solve A rhs = some x ∧ A.mulVec x = rhs := by
  obtain ⟨chol, hchol, hsolves⟩ := hlib A hA
  refine ⟨chol rhs, ?_, hsolves rhs⟩
  rw [Decompositions.solve, hchol]

variable {wFree : Fin (assets state .free).length → K}

theorem assemble_le {c : K} (hM : 0 ≤ M) (hc : M ≤ c) (h : ∀ i, wFree i ≤ c) (i : Fin n) :
    assemble M state wFree i ≤ c := by
  refine scatter_induct (assets_nodup _ _) (P := (· ≤ c)) (fun _ ↦ hc) fun _ ↦ ?_
  exact scatter_induct (assets_nodup _ _) (P := (· ≤ c)) h fun _ ↦ hM.trans hc

variable [IsStrictOrderedRing K]

theorem sum_solveFree {γ : K} (h : solveFree lib excess cov M state = some (γ, wFree)) :
    ∑ i, wFree i = budgetFree M state := by
  unfold solveFree at h
  dsimp only at h
  split at h
  · cases h
  split at h
  · cases h
  rename_i p _ _ q _
  split_ifs at h with hp
  obtain ⟨rfl, rfl⟩ := Prod.mk.inj (Option.some.inj h)
  have hne : ∑ i, p i ≠ 0 := by
    intro hzero
    rw [hzero, abs_zero] at hp
    exact hp (by positivity)
  rw [Finset.sum_sub_distrib, ← Finset.mul_sum, div_mul_cancel₀ _ hne, add_sub_cancel_right]

theorem normalizeWeights_capped {places : List (Fin n)} (hnodup : places.Nodup) (hne : places ≠ [])
    (hM : 0 < M) :
    normalizeWeights (scatter places (fun _ ↦ M) 0) =
      scatter places (fun _ ↦ M / (places.length * M)) 0 := by
  have hlength : (0 : K) < places.length := Nat.cast_pos.2 (List.length_pos_iff.2 hne)
  have hsum : ∑ i, scatter places (fun _ ↦ M) 0 i = places.length * M := by
    rw [sum_scatter hnodup, Finset.sum_const, Finset.card_univ, Fintype.card_fin, nsmul_eq_mul]
    simp
  funext i
  rw [normalizeWeights_apply (hsum ▸ mul_pos hlength hM), hsum, comp_scatter (· / _)]
  congr 1
  funext i
  exact zero_div _

theorem room_pos (hn : n < 10 ^ 8) : (0 : K) < 1 - n / 10 ^ 9 := by
  have hcast : (n : K) < 10 ^ 8 := by exact_mod_cast hn
  rw [sub_pos, div_lt_one (by positivity)]
  linarith

theorem le_cap (hn : n < 10 ^ 8) (hM : 0 ≤ M) : M ≤ M / (1 - n / 10 ^ 9) :=
  le_div_self hM (room_pos hn) (sub_le_self _ (by positivity))

theorem defaultWeights_le (hn : n < 10 ^ 8) (hM : 1 / n ≤ M) (i : Fin n) :
    defaultWeights n i ≤ M / (1 - n / 10 ^ 9) :=
  hM.trans (le_cap hn ((by positivity : (0 : K) ≤ 1 / n).trans hM))

theorem converged_box {γ : K} (hn : n < 10 ^ 8) (hM : 0 ≤ M)
    (hsolve : solveFree lib excess cov M state = some (γ, wFree))
    (hover : ∀ i, wFree i ≤ M + 1 / 10 ^ 10) :
    clampAndNormalize (normalizeWeights (assemble M state wFree)) M ∈ stdSimplex K (Fin n) ∧
      ∀ i, clampAndNormalize (normalizeWeights (assemble M state wFree)) M i ≤
        M / (1 - n / 10 ^ 9) := by
  have hone : ∑ i, assemble M state wFree i = 1 := by
    rw [sum_assemble, sum_solveFree hsolve, budgetFree_eq, sub_add_cancel]
  have hbound := assemble_le hM (le_add_of_nonneg_right (by positivity)) hover
  have hcast : (n : K) < 10 ^ 8 := by exact_mod_cast hn
  have hcast' : (0 : K) ≤ n := Nat.cast_nonneg n
  have hsmall : (n : K) * (1 / 10 ^ 10) < 1 := by linarith
  obtain ⟨hmem, hcap⟩ := clampAndNormalize_box hM (by positivity) hsmall hone hbound
  rw [normalizeWeights_of_sum_one hone]
  refine ⟨hmem, fun i ↦ (hcap i).trans ?_⟩
  exact div_le_div_of_nonneg_left hM (room_pos hn) (by linarith)

theorem sharpeRound_leave {w : Fin n → K} (hn : 2 ≤ n) (hn' : n < 10 ^ 8) (hM : 1 / n ≤ M)
    (h : sharpeRound lib excess cov M state = .leave w) :
    w ∈ stdSimplex K (Fin n) ∧ ((∀ i, w i ≤ M / (1 - n / 10 ^ 9)) ↔ ¬ Short M state) := by
  have hMpos : 0 < M := lt_of_lt_of_le (by positivity) hM
  have hdefault {P : Prop} (hP : ¬ P) : (defaultWeights n : Fin n → K) ∈ stdSimplex K (Fin n) ∧
      ((∀ i, (defaultWeights n : Fin n → K) i ≤ M / (1 - n / 10 ^ 9)) ↔ ¬ P) :=
    ⟨defaultWeights_mem hn, iff_of_true (defaultWeights_le hn' hM) hP⟩
  unfold sharpeRound at h
  dsimp only at h
  split_ifs at h with hfree hupper hbudget
  · cases h
    exact hdefault fun hshort ↦ hshort.upper_ne hupper
  · cases h
    rw [normalizeWeights_capped (assets_nodup _ _) hupper hMpos]
    obtain ⟨hmem, hcap⟩ := cappedShares (assets_nodup state .upper) hupper hMpos
    refine ⟨hmem, (hcap _ (room_pos hn')).trans ?_⟩
    rw [← not_lt]
    exact not_congr ⟨fun hlt ↦ ⟨hfree, hupper, hlt⟩, Short.upper_lt⟩
  · cases h
    rw [budgetFree_eq, sub_nonpos] at hbudget
    have hupper : assets state .upper ≠ [] := by
      intro hnil
      rw [hnil, List.length_nil, Nat.cast_zero, zero_mul] at hbudget
      exact absurd hbudget one_pos.not_ge
    obtain ⟨hmem, hcap⟩ := cappedShares (assets_nodup state .upper) hupper hMpos
    refine ⟨hmem, iff_of_true ((hcap _ (room_pos hn')).2 ?_) fun hshort ↦ hfree hshort.free_eq⟩
    exact (sub_le_self _ (by positivity)).trans hbudget
  · have hnot : ¬ Short M state := fun hshort ↦ hfree hshort.free_eq
    split at h
    · cases h
      exact hdefault hnot
    rename_i γ wFree hsolve
    split at h
    · cases h
    split at h
    · cases h
    rename_i hover
    split at h
    · cases h
    split_ifs at h with hsum
    · cases h
      exact hdefault hnot
    cases h
    have hover : ∀ i, wFree i ≤ M + 1 / 10 ^ 10 := by
      rw [← tolerance_eq]
      simpa [List.find?_eq_none] using hover
    obtain ⟨hmem, hcap⟩ := converged_box hn' hMpos.le hsolve hover
    exact ⟨hmem, iff_of_true hcap hnot⟩

end Rounds

/-- Elimination in exact arithmetic, in the place of the library. -/
def eliminating : Decompositions ℚ where
  cholesky := eliminate
  lu := fun _ _ ↦ none

theorem eliminating_exact : eliminating.Exact := fun _ h ↦ eliminate_exact h

end Zaciraci.Portfolio
