import Zaciraci.Lib.Loop
import Zaciraci.Portfolio.Blend

namespace Zaciraci.Portfolio

open Lib

section Model

variable {K : Type} [Field K] [LinearOrder K] {n : ℕ}

structure SubsetOptParams (K : Type) (n : ℕ) where
  expectedReturns : Fin n → K
  covarianceMatrix : Matrix (Fin n) (Fin n) K
  maxPosition : K
  alphas : Fin n → K

def extractSubPortfolio (expectedReturns : Fin n → K) (cov : Matrix (Fin n) (Fin n) K)
    (indices : List (Fin n)) :
    (Fin indices.length → K) × Matrix (Fin indices.length) (Fin indices.length) K :=
  (fun i ↦ expectedReturns (indices.get i), fun i j ↦ cov (indices.get i) (indices.get j))

/-- The portfolio of a subset that `cached_blend_and_expand` computes when it has none yet. -/
def SubsetOptParams.reoptimize (lib : Decompositions K) (sqrt : K → K)
    (params : SubsetOptParams K n) (subset : List (Fin n)) : Fin n → K :=
  let sub := extractSubPortfolio params.expectedReturns params.covarianceMatrix subset
  blendAndExpand lib sqrt subset sub.1 sub.2 params.maxPosition params.alphas

abbrev Cache (K : Type) (n : ℕ) := List (Fin n) → Option (Fin n → K)

/-- `cached_blend_and_expand`, for any way to optimise a subset. -/
def cachedReoptimize (reoptimize : List (Fin n) → Fin n → K) (cache : Cache K n)
    (subset : List (Fin n)) : (Fin n → K) × Cache K n :=
  match cache subset with
  | some cached => (cached, cache)
  | none =>
    let weights := reoptimize subset
    (weights, Function.update cache subset (some weights))

structure Filtering (K : Type) (n : ℕ) where
  weights : Fin n → K
  currentIndices : List (Fin n)
  cache : Cache K n

def filterRound (reoptimize : List (Fin n) → Fin n → K) (minPositionSize : K) (s : Filtering K n) :
    Round (Filtering K n) (Filtering K n) :=
  let survivors := s.currentIndices.filter (minPositionSize ≤ s.weights ·)
  if survivors.length = s.currentIndices.length ∨ survivors = [] then .leave s
  else
    let answer := cachedReoptimize reoptimize s.cache survivors
    .again ⟨answer.1, survivors, answer.2⟩

def filterAndReoptimize (reoptimize : List (Fin n) → Fin n → K) (minPositionSize : K)
    (s : Filtering K n) : Filtering K n :=
  loop (filterRound reoptimize minPositionSize) id s.currentIndices.length s

end Model

section Cache

variable {K : Type} {n : ℕ} {reoptimize : List (Fin n) → Fin n → K} {cache : Cache K n}

def Transparent (reoptimize : List (Fin n) → Fin n → K) (cache : Cache K n) : Prop :=
  ∀ subset weights, cache subset = some weights → weights = reoptimize subset

theorem transparent_empty (reoptimize : List (Fin n) → Fin n → K) :
    Transparent reoptimize fun _ ↦ none := by
  rintro subset weights ⟨⟩

theorem cachedReoptimize_spec (h : Transparent reoptimize cache) (subset : List (Fin n)) :
    (cachedReoptimize reoptimize cache subset).1 = reoptimize subset ∧
      Transparent reoptimize (cachedReoptimize reoptimize cache subset).2 := by
  unfold cachedReoptimize
  cases hcached : cache subset with
  | some cached => exact ⟨h subset cached hcached, h⟩
  | none =>
    refine ⟨rfl, fun subset' weights hget ↦ ?_⟩
    dsimp only at hget
    by_cases heq : subset' = subset
    · subst heq
      rw [Function.update_self] at hget
      exact (Option.some.inj hget).symm
    · rw [Function.update_of_ne heq] at hget
      exact h subset' weights hget

end Cache

section Rounds

variable {K : Type} [LinearOrder K] {n : ℕ} {reoptimize : List (Fin n) → Fin n → K}
  {m : K} {s s' : Filtering K n} {subset : List (Fin n)}

/-- The weights are those of the tokens that are left, which are some of those at the start. -/
structure Filters (reoptimize : List (Fin n) → Fin n → K) (subset : List (Fin n))
    (s : Filtering K n) : Prop where
  weights_eq : s.weights = reoptimize s.currentIndices
  sublist : s.currentIndices.Sublist subset
  transparent : Transparent reoptimize s.cache

theorem filterRound_again (h : filterRound reoptimize m s = .again s') :
    s'.currentIndices = s.currentIndices.filter (m ≤ s.weights ·) ∧ s'.currentIndices ≠ [] ∧
      s'.currentIndices.length < s.currentIndices.length ∧
      (s'.weights, s'.cache) = cachedReoptimize reoptimize s.cache s'.currentIndices := by
  unfold filterRound at h
  dsimp only at h
  split_ifs at h with hstop
  cases h
  rw [not_or] at hstop
  exact ⟨rfl, hstop.2, lt_of_le_of_ne (List.length_filter_le _ _) hstop.1, rfl⟩

theorem filterRound_leave (h : filterRound reoptimize m s = .leave s') :
    s' = s ∧
      ((∀ i ∈ s.currentIndices, m ≤ s.weights i) ∨ ∀ i ∈ s.currentIndices, s.weights i < m) := by
  unfold filterRound at h
  dsimp only at h
  split_ifs at h with hstop
  cases h
  refine ⟨rfl, hstop.imp (fun hall i hi ↦ ?_) fun hnone i hi ↦ ?_⟩
  · simpa using List.length_filter_eq_length_iff.1 hall i hi
  · simpa using List.filter_eq_nil_iff.1 hnone i hi

theorem Filters.again (hs : Filters reoptimize subset s)
    (h : filterRound reoptimize m s = .again s') : Filters reoptimize subset s' := by
  obtain ⟨hcurrent, -, -, hanswer⟩ := filterRound_again h
  have hspec := cachedReoptimize_spec hs.transparent s'.currentIndices
  rw [← hanswer] at hspec
  refine ⟨hspec.1, ?_, hspec.2⟩
  rw [hcurrent]
  exact List.filter_sublist.trans hs.sublist

theorem filterAndReoptimize_filters (hs : Filters reoptimize subset s) :
    Filters reoptimize subset (filterAndReoptimize reoptimize m s) := by
  refine loop_induct (I := Filters reoptimize subset) (P := Filters reoptimize subset) hs ?_
    (fun s s' h hagain ↦ h.again hagain) fun _ h ↦ h
  intro s s' h hleave
  rw [(filterRound_leave hleave).1]
  exact h

theorem exists_filterRound_leave (hs : Filters reoptimize subset s) (hne : s.currentIndices ≠ []) :
    ∃ t r, Visits (filterRound reoptimize m) s.currentIndices.length s t ∧
      (Filters reoptimize subset t ∧ t.currentIndices ≠ []) ∧
      filterRound reoptimize m t = .leave r := by
  refine exists_leave_of_measure
    (I := fun s ↦ Filters reoptimize subset s ∧ s.currentIndices ≠ [])
    (fun s ↦ s.currentIndices.length - 1) ⟨hs, hne⟩
    (Nat.sub_lt (List.length_pos_iff.2 hne) Nat.one_pos) ?_
  rintro s s' ⟨hs, -⟩ hagain
  obtain ⟨-, hne', hlt, -⟩ := filterRound_again hagain
  have := List.length_pos_iff.2 hne'
  exact ⟨⟨hs.again hagain, hne'⟩, by omega⟩

end Rounds

section FixedPoint

variable {K : Type} [Field K] [LinearOrder K] [IsStrictOrderedRing K] {n : ℕ}
  {reoptimize : List (Fin n) → Fin n → K} {m : K} {subset current : List (Fin n)}

def Optimizes (reoptimize : List (Fin n) → Fin n → K) : Prop :=
  ∀ subset : List (Fin n), subset.Nodup → subset ≠ [] →
    reoptimize subset ∈ stdSimplex K (Fin n) ∧ ∀ i ∉ subset, reoptimize subset i = 0

theorem exists_le_of_optimizes (hopt : Optimizes reoptimize) (hnodup : current.Nodup)
    (hne : current ≠ []) (hm : current.length * m ≤ 1) :
    ∃ i ∈ current, m ≤ reoptimize current i := by
  by_contra! hall
  obtain ⟨hmem, hzero⟩ := hopt current hnodup hne
  have hsum : ∑ i, reoptimize current i = ∑ i ∈ current.toFinset, reoptimize current i := by
    refine (Finset.sum_subset (Finset.subset_univ _) fun i _ hi ↦ hzero i ?_).symm
    rwa [List.mem_toFinset] at hi
  have hlt : ∑ i ∈ current.toFinset, reoptimize current i < ∑ _i ∈ current.toFinset, m := by
    refine Finset.sum_lt_sum_of_nonempty ((List.toFinset_nonempty_iff _).2 hne) fun i hi ↦ ?_
    exact hall i (List.mem_toFinset.1 hi)
  rw [← hsum, hmem.2, Finset.sum_const, List.toFinset_card_of_nodup hnodup, nsmul_eq_mul] at hlt
  exact absurd hm hlt.not_ge

/-- The filter is left before its rounds are used up, with a portfolio in which no token that is
left has too little. -/
theorem filterAndReoptimize_fixed (reoptimize : List (Fin n) → Fin n → K)
    (hopt : Optimizes reoptimize) (hm : 0 < m) (subset : List (Fin n)) (hnodup : subset.Nodup)
    (hne : subset ≠ []) (hcard : subset.length * m ≤ 1) (cache : Cache K n)
    (hcache : Transparent reoptimize cache) :
    ∃ r, filterAndReoptimize reoptimize m ⟨reoptimize subset, subset, cache⟩ = r ∧
      (∃ t, Visits (filterRound reoptimize m) subset.length ⟨reoptimize subset, subset, cache⟩ t ∧
        filterRound reoptimize m t = .leave r) ∧
      (∀ i ∈ r.currentIndices, m ≤ r.weights i) ∧ (∀ i ∉ r.currentIndices, r.weights i = 0) ∧
      r.weights = reoptimize r.currentIndices ∧
      r.currentIndices.Sublist subset ∧ r.currentIndices ≠ [] := by
  have hstart : Filters reoptimize subset ⟨reoptimize subset, subset, cache⟩ :=
    ⟨rfl, .refl _, hcache⟩
  obtain ⟨t, r, hvisits, ⟨hfilters, htne⟩, hleave⟩ := exists_filterRound_leave (m := m) hstart hne
  obtain ⟨rfl, hall | hnone⟩ := filterRound_leave hleave
  · have hzero := (hopt _ (hfilters.sublist.nodup hnodup) htne).2
    rw [← hfilters.weights_eq] at hzero
    exact ⟨r, hvisits.loop_eq hleave, ⟨r, hvisits, hleave⟩, hall, hzero, hfilters.weights_eq,
      hfilters.sublist, htne⟩
  · have hlength : (r.currentIndices.length : K) * m ≤ 1 := by
      refine le_trans ?_ hcard
      gcongr
      exact hfilters.sublist.length_le
    obtain ⟨i, hi, hle⟩ := exists_le_of_optimizes hopt (hfilters.sublist.nodup hnodup) htne hlength
    rw [← hfilters.weights_eq] at hle
    exact absurd hle (hnone i hi).not_ge

end FixedPoint

def firstTakesAll {n : ℕ} : List (Fin n) → Fin n → ℚ
  | [] => 0
  | i :: _ => Pi.single i 1

theorem firstTakesAll_optimizes (n : ℕ) : Optimizes (firstTakesAll (n := n)) := by
  intro subset _ hne
  cases subset with
  | nil => exact absurd rfl hne
  | cons i subset =>
    refine ⟨single_mem_stdSimplex ℚ i, fun j hj ↦ ?_⟩
    exact Pi.single_eq_of_ne (List.ne_of_not_mem_cons hj) 1

theorem filterAndReoptimize_fixed_threeTokens :
    ∃ r, filterAndReoptimize firstTakesAll (1 / 4)
        ⟨firstTakesAll [2, 0, 1], [2, 0, 1], fun _ ↦ none⟩ = r ∧
      (∃ t, Visits (filterRound firstTakesAll (1 / 4)) 3
        (⟨firstTakesAll [2, 0, 1], [2, 0, 1], fun _ ↦ none⟩ : Filtering ℚ 3) t ∧
        filterRound firstTakesAll (1 / 4) t = .leave r) ∧
      (∀ i ∈ r.currentIndices, 1 / 4 ≤ r.weights i) ∧ (∀ i ∉ r.currentIndices, r.weights i = 0) ∧
      r.weights = firstTakesAll r.currentIndices ∧
      r.currentIndices.Sublist [2, 0, 1] ∧ r.currentIndices ≠ [] :=
  filterAndReoptimize_fixed firstTakesAll (firstTakesAll_optimizes 3) (by norm_num) [2, 0, 1]
    (by decide) (by decide) (by norm_num) _ (transparent_empty _)

end Zaciraci.Portfolio
