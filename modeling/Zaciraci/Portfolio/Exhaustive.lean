import Zaciraci.Portfolio.Combinations
import Zaciraci.Portfolio.Filter

namespace Zaciraci.Portfolio

open Lib Matrix

section Model

variable {K : Type} [Field K] [LinearOrder K] {m n : ℕ}

def calculatePortfolioReturn (weights expectedReturns : Fin m → K) : K :=
  ∑ i, weights i * expectedReturns i

def calculatePortfolioStd (sqrt : K → K) (weights : Fin m → K) (cov : Matrix (Fin m) (Fin m) K) :
    K :=
  max (sqrt (weights ⬝ᵥ cov *ᵥ weights)) 1e-10

/-- The mean square distance of the contributions to the risk from equal ones. -/
def riskParityDivergence (sqrt : K → K) (weights : Fin m → K) (cov : Matrix (Fin m) (Fin m) K) :
    K :=
  let portVar := weights ⬝ᵥ cov *ᵥ weights
  if m = 0 then 0
  else if portVar ≤ 0 then 0
  else
    let portVol := sqrt portVar
    (∑ i, (weights i * (cov *ᵥ weights) i / portVol - portVol / m) ^ 2) / m

/-- The score of a portfolio: its Sharpe ratio less its distance from risk parity, weighed by the
mean blend factor of its tokens. -/
def compositeScore (sqrt : K → K) (params : SubsetOptParams K n) (weights : Fin n → K) : K :=
  let activeIdx := (List.finRange n).filter (0 < weights ·)
  let activeW := fun i ↦ weights (activeIdx.get i)
  let sub := extractSubPortfolio params.expectedReturns params.covarianceMatrix activeIdx
  let portRet := calculatePortfolioReturn activeW sub.1
  let portStd := calculatePortfolioStd sqrt activeW sub.2
  let sharpe := if 0 < portStd then (portRet - riskFreeRate) / portStd else 0
  let rpDiv := riskParityDivergence sqrt activeW sub.2
  let rpDivNormalized := if 0 < portStd then rpDiv / (portStd * portStd) else 0
  let effectiveAlpha := (activeIdx.map params.alphas).sum / activeIdx.length
  effectiveAlpha * sharpe - (1 - effectiveAlpha) * rpDivNormalized

structure Best (K : Type) (n : ℕ) where
  score : Option K
  weights : Fin n → K
  cache : Cache K n

section Search

variable (reoptimize : List (Fin n) → Fin n → K) (score : (Fin n → K) → K) (minPositionSize : K)

def filtered (cache : Cache K n) (subset : List (Fin n)) : Filtering K n :=
  let answer := cachedReoptimize reoptimize cache subset
  filterAndReoptimize reoptimize minPositionSize ⟨answer.1, subset, answer.2⟩

def considerSubset (best : Best K n) (subset : List (Fin n)) : Best K n :=
  let r := filtered reoptimize minPositionSize best.cache subset
  if ∀ i, ¬ 0 < r.weights i then { best with cache := r.cache }
  else if best.score.all (· < score r.weights) then ⟨some (score r.weights), r.weights, r.cache⟩
  else { best with cache := r.cache }

/-- `exhaustive_optimize`, for any way to optimise a subset and to score a portfolio. The bound on
the calls of the iterator is one more than it has items. -/
def exhaustiveSearch (active : List (Fin n)) (maxHoldings : ℕ) : Fin n → K :=
  if active = [] then 0
  else if active.length ≤ maxHoldings then
    (filtered reoptimize minPositionSize (fun _ ↦ none) active).weights
  else
    let combos := items Combinations.next (active.length.choose maxHoldings + 1)
      (Combinations.new active.length maxHoldings)
    let best := (combos.map fun combo ↦ combo.filterMap (active[·]?)).foldl
      (considerSubset reoptimize score minPositionSize) ⟨none, 0, fun _ ↦ none⟩
    if ∀ i, best.weights i = 0 then
      let k := min maxHoldings active.length
      scatter (active.take k) (fun _ ↦ 1 / k) best.weights
    else best.weights

end Search

def exhaustiveOptimize (lib : Decompositions K) (sqrt : K → K) (params : SubsetOptParams K n)
    (active : List (Fin n)) (maxHoldings : ℕ) (minPositionSize : K) : Fin n → K :=
  exhaustiveSearch (params.reoptimize lib sqrt) (compositeScore sqrt params) minPositionSize active
    maxHoldings

end Model

section Subsets

variable {α : Type} {active subset : List α} {k : ℕ}

theorem filterMap_getElem? (is : List (Fin active.length)) :
    (is.map Fin.val).filterMap (active[·]?) = is.map (active[·]) := by
  induction is with
  | nil => rfl
  | cons i is ih => simp [ih]

theorem mem_subsets_iff :
    subset ∈ (increasing active.length 0 k).map (fun combo ↦ combo.filterMap (active[·]?)) ↔
      subset.Sublist active ∧ subset.length = k := by
  rw [List.mem_map]
  constructor
  · rintro ⟨combo, hcombo, rfl⟩
    obtain ⟨hlength, hincr, hbound⟩ := mem_increasing.1 hcombo
    obtain ⟨is, rfl⟩ : ∃ is : List (Fin active.length), combo = is.map Fin.val := by
      refine ⟨combo.pmap Fin.mk fun x hx ↦ ?_, ?_⟩
      · have := hbound x hx
        omega
      · simp [List.map_pmap]
    rw [filterMap_getElem?]
    rw [List.pairwise_map] at hincr
    exact ⟨List.map_getElem_sublist hincr, by simpa using hlength⟩
  · rintro ⟨hsublist, hlength⟩
    obtain ⟨is, rfl, hincr⟩ := List.sublist_eq_map_getElem hsublist
    refine ⟨is.map Fin.val, mem_increasing.2 ⟨by simpa using hlength, ?_, ?_⟩,
      filterMap_getElem? is⟩
    · exact List.pairwise_map.2 hincr
    · intro x hx
      obtain ⟨i, -, rfl⟩ := List.mem_map.1 hx
      have := i.isLt
      omega

end Subsets

section Search

variable {K : Type} [LinearOrder K] {n : ℕ} {reoptimize : List (Fin n) → Fin n → K}
  {score : (Fin n → K) → K} {m : K} {cache : Cache K n} {subset : List (Fin n)}
  {done : List (List (Fin n))} {best : Best K n}

def portfolio (reoptimize : List (Fin n) → Fin n → K) (m : K) (subset : List (Fin n)) : Fin n → K :=
  (filtered reoptimize m (fun _ ↦ none) subset).weights

/-- States of the filter that differ in their transparent caches only. -/
structure SameFilter (reoptimize : List (Fin n) → Fin n → K) (s t : Filtering K n) : Prop where
  weights_eq : s.weights = t.weights
  indices_eq : s.currentIndices = t.currentIndices
  left : Transparent reoptimize s.cache
  right : Transparent reoptimize t.cache

theorem filterRound_related {s t : Filtering K n} (h : SameFilter reoptimize s t) :
    Round.Related (SameFilter reoptimize) (SameFilter reoptimize) (filterRound reoptimize m s)
      (filterRound reoptimize m t) := by
  unfold filterRound
  dsimp only
  rw [h.weights_eq, h.indices_eq]
  split_ifs
  · exact .leave h
  · have hs := cachedReoptimize_spec h.left (t.currentIndices.filter (m ≤ t.weights ·))
    have ht := cachedReoptimize_spec h.right (t.currentIndices.filter (m ≤ t.weights ·))
    exact .again ⟨hs.1.trans ht.1.symm, rfl, hs.2, ht.2⟩

theorem filtered_spec (h : Transparent reoptimize cache) (subset : List (Fin n)) :
    (filtered reoptimize m cache subset).weights = portfolio reoptimize m subset ∧
      Transparent reoptimize (filtered reoptimize m cache subset).cache := by
  have hcached := cachedReoptimize_spec h subset
  have hempty := cachedReoptimize_spec (transparent_empty reoptimize) subset
  have hround (s t : Filtering K n) (h : SameFilter reoptimize s t) :=
    filterRound_related (m := m) h
  have hsame : SameFilter reoptimize (filtered reoptimize m cache subset)
      (filtered reoptimize m (fun _ ↦ none) subset) :=
    loop_related hround (fun _ _ h ↦ h)
      ⟨hcached.1.trans hempty.1.symm, rfl, hcached.2, hempty.2⟩
  exact ⟨hsame.weights_eq, hsame.left⟩

theorem portfolio_eq (reoptimize : List (Fin n) → Fin n → K) (m : K) (subset : List (Fin n)) :
    ∃ current, current.Sublist subset ∧ portfolio reoptimize m subset = reoptimize current := by
  have hcached := cachedReoptimize_spec (transparent_empty reoptimize) subset
  have hfilters := filterAndReoptimize_filters (m := m)
    (⟨hcached.1, .refl _, hcached.2⟩ : Filters reoptimize subset ⟨_, subset, _⟩)
  exact ⟨_, hfilters.sublist, hfilters.weights_eq⟩

variable [Field K]

structure IsBest (reoptimize : List (Fin n) → Fin n → K) (score : (Fin n → K) → K) (m : K)
    (done : List (List (Fin n))) (best : Best K n) : Prop where
  transparent : Transparent reoptimize best.cache
  of_none : best.score = none → best.weights = 0 ∧
    ∀ subset ∈ done, ∀ i, ¬ 0 < portfolio reoptimize m subset i
  of_some : ∀ b, best.score = some b → b = score best.weights ∧
    (∃ subset ∈ done, best.weights = portfolio reoptimize m subset ∧ ∃ i, 0 < best.weights i) ∧
    ∀ subset ∈ done, (∃ i, 0 < portfolio reoptimize m subset i) →
      score (portfolio reoptimize m subset) ≤ b

theorem IsBest.keep (h : IsBest reoptimize score m done best)
    (hcache : Transparent reoptimize cache)
    (hnone : best.score = none → ∀ i, ¬ 0 < portfolio reoptimize m subset i)
    (hsome : ∀ b, best.score = some b → (∃ i, 0 < portfolio reoptimize m subset i) →
      score (portfolio reoptimize m subset) ≤ b) :
    IsBest reoptimize score m (done ++ [subset]) { best with cache } := by
  refine ⟨hcache, fun hscore ↦ ?_, fun b hscore ↦ ?_⟩
  · obtain ⟨hbest, hdone⟩ := h.of_none hscore
    exact ⟨hbest, List.forall_mem_append.2 ⟨hdone, List.forall_mem_singleton.2 (hnone hscore)⟩⟩
  · obtain ⟨hb, ⟨subset', hmem, hbest⟩, hdone⟩ := h.of_some b hscore
    exact ⟨hb, ⟨subset', List.mem_append_left _ hmem, hbest⟩,
      List.forall_mem_append.2 ⟨hdone, List.forall_mem_singleton.2 (hsome b hscore)⟩⟩

theorem IsBest.considerSubset (h : IsBest reoptimize score m done best) (subset : List (Fin n)) :
    IsBest reoptimize score m (done ++ [subset])
      (considerSubset reoptimize score m best subset) := by
  obtain ⟨hweights, hcache⟩ := filtered_spec (m := m) h.transparent subset
  unfold Portfolio.considerSubset
  dsimp only
  rw [hweights]
  split_ifs with hzero hbetter
  · refine h.keep hcache (fun _ ↦ hzero) fun _ _ hpos ↦ ?_
    obtain ⟨i, hi⟩ := hpos
    exact absurd hi (hzero i)
  · rw [not_forall_not] at hzero
    refine ⟨hcache, fun hnone ↦ (by cases hnone), fun b hsome ↦ ?_⟩
    obtain rfl := Option.some.inj hsome
    refine ⟨rfl, ⟨subset, List.mem_append_right _ List.mem_cons_self, rfl, hzero⟩,
      List.forall_mem_append.2
        ⟨fun subset' hmem hpos ↦ ?_, List.forall_mem_singleton.2 fun _ ↦ le_rfl⟩⟩
    cases hscore : best.score with
    | none =>
      obtain ⟨i, hi⟩ := hpos
      exact absurd hi ((h.of_none hscore).2 subset' hmem i)
    | some b =>
      rw [hscore] at hbetter
      exact ((h.of_some b hscore).2.2 subset' hmem hpos).trans (of_decide_eq_true hbetter).le
  · refine h.keep hcache (fun hnone ↦ ?_) fun b hsome _ ↦ ?_
    · rw [hnone] at hbetter
      exact absurd rfl hbetter
    · rw [hsome] at hbetter
      simpa using hbetter

theorem IsBest.foldl (h : IsBest reoptimize score m done best) (subsets : List (List (Fin n))) :
    IsBest reoptimize score m (done ++ subsets)
      (subsets.foldl (Portfolio.considerSubset reoptimize score m) best) := by
  induction subsets generalizing done best with
  | nil => rwa [List.append_nil]
  | cons subset subsets ih =>
    rw [List.foldl_cons, List.append_cons]
    exact ih (h.considerSubset subset)

theorem isBest_start (reoptimize : List (Fin n) → Fin n → K) (score : (Fin n → K) → K) (m : K) :
    IsBest reoptimize score m [] ⟨none, 0, fun _ ↦ none⟩ where
  transparent := transparent_empty reoptimize
  of_none _ := ⟨rfl, by simp⟩
  of_some _ h := by cases h

def Candidate (active : List (Fin n)) (maxHoldings : ℕ) (subset : List (Fin n)) : Prop :=
  subset.Sublist active ∧ subset.length = maxHoldings

theorem exhaustiveSearch_cases (reoptimize : List (Fin n) → Fin n → K) (score : (Fin n → K) → K)
    (m : K) {active : List (Fin n)} {maxHoldings : ℕ} (hpos : 1 ≤ maxHoldings)
    (hlt : maxHoldings < active.length) :
    (∃ subset, Candidate active maxHoldings subset ∧
      exhaustiveSearch reoptimize score m active maxHoldings = portfolio reoptimize m subset ∧
      (∃ i, 0 < portfolio reoptimize m subset i) ∧
      ∀ subset', Candidate active maxHoldings subset' →
        (∃ i, 0 < portfolio reoptimize m subset' i) →
        score (portfolio reoptimize m subset') ≤ score (portfolio reoptimize m subset)) ∨
    (∀ subset, Candidate active maxHoldings subset → ∀ i, ¬ 0 < portfolio reoptimize m subset i) ∧
      exhaustiveSearch reoptimize score m active maxHoldings =
        scatter (active.take maxHoldings) (fun _ ↦ 1 / (maxHoldings : K)) 0 := by
  have hitems := (Combinations.drains_new hpos hlt.le).items_eq
    (k := active.length.choose maxHoldings + 1) (by rw [length_increasing]; omega)
  have hactive : active ≠ [] := List.ne_nil_of_length_pos (by omega)
  unfold exhaustiveSearch
  rw [if_neg hactive, if_neg hlt.not_ge, hitems, min_eq_left hlt.le]
  dsimp only
  set subsets := (increasing active.length 0 maxHoldings).map fun combo ↦
    combo.filterMap (active[·]?) with hsubsets
  have hcandidate (subset) : subset ∈ subsets ↔ Candidate active maxHoldings subset :=
    mem_subsets_iff
  have hbest := (isBest_start reoptimize score m).foldl subsets
  rw [List.nil_append] at hbest
  set best := subsets.foldl (considerSubset reoptimize score m) ⟨none, 0, fun _ ↦ none⟩
  simp only [← hcandidate]
  cases hscore : best.score with
  | none =>
    obtain ⟨hzero, hnone⟩ := hbest.of_none hscore
    refine .inr ⟨hnone, ?_⟩
    have hall (i) : best.weights i = 0 := congrFun hzero i
    rw [if_pos hall, hzero]
  | some b =>
    obtain ⟨rfl, ⟨subset, hmem, heq, i, hi⟩, hmax⟩ := hbest.of_some b hscore
    rw [if_neg fun hzero ↦ hi.ne' (hzero i)]
    rw [heq] at hi hmax ⊢
    exact .inl ⟨subset, hmem, rfl, ⟨i, hi⟩, hmax⟩

end Search

section Held

variable {K : Type} [Field K] {n : ℕ} {places places' : List (Fin n)} {w : Fin n → K}

def HeldWithin (places : List (Fin n)) (w : Fin n → K) : Prop := ∀ i, w i ≠ 0 → i ∈ places

theorem heldWithin_scatter (places : List (Fin n)) (v : Fin places.length → K) :
    HeldWithin places (scatter places v 0) := by
  intro i hi
  by_contra hmem
  exact hi (scatter_of_notMem v 0 hmem)

theorem HeldWithin.of_sublist (h : HeldWithin places w) (hsublist : places.Sublist places') :
    HeldWithin places' w :=
  fun i hi ↦ hsublist.subset (h i hi)

theorem HeldWithin.card_le [DecidableEq K] (h : HeldWithin places w) :
    (Finset.univ.filter (w · ≠ 0)).card ≤ places.length := by
  have hsub : Finset.univ.filter (w · ≠ 0) ⊆ places.toFinset := fun i hi ↦
    List.mem_toFinset.2 (h i (Finset.mem_filter.1 hi).2)
  exact (Finset.card_le_card hsub).trans (List.toFinset_card_le _)

variable [LinearOrder K]

/-- The portfolio of all tokens from a portfolio of the subset, as `blend_and_expand` ends. -/
def expand (optimize : (subset : List (Fin n)) → Fin subset.length → K) (subset : List (Fin n)) :
    Fin n → K :=
  scatter subset (optimize subset) 0

theorem heldWithin_portfolio (optimize : (subset : List (Fin n)) → Fin subset.length → K) (m : K)
    (subset : List (Fin n)) : HeldWithin subset (portfolio (expand optimize) m subset) := by
  obtain ⟨current, hsublist, heq⟩ := portfolio_eq (expand optimize) m subset
  rw [heq]
  exact (heldWithin_scatter current (optimize current)).of_sublist hsublist

theorem exhaustiveSearch_heldWithin (optimize : (subset : List (Fin n)) → Fin subset.length → K)
    (score : (Fin n → K) → K) (m : K) (active : List (Fin n)) {maxHoldings : ℕ}
    (hpos : 1 ≤ maxHoldings) :
    ∃ places, places.Sublist active ∧ places.length ≤ maxHoldings ∧
      HeldWithin places (exhaustiveSearch (expand optimize) score m active maxHoldings) := by
  rcases Nat.lt_or_ge maxHoldings active.length with hlt | hle
  · obtain ⟨subset, hcandidate, heq, -⟩ | ⟨-, heq⟩ :=
      exhaustiveSearch_cases (expand optimize) score m hpos hlt
    · rw [heq]
      exact ⟨subset, hcandidate.1, hcandidate.2.le, heldWithin_portfolio optimize m subset⟩
    · rw [heq]
      exact ⟨_, List.take_sublist _ _, List.length_take_le _ _, heldWithin_scatter _ _⟩
  · refine ⟨active, .refl _, hle, ?_⟩
    unfold exhaustiveSearch
    split_ifs
    · exact fun i hi ↦ absurd rfl hi
    · exact heldWithin_portfolio optimize m active

end Held

/-- The iterator yields the subsets of a size in lexicographic order, each once, and ends. So the
search finds a best filtered portfolio of so many tokens, if any has a positive weight. -/
theorem exhaustiveSearch_optimal {K : Type} [LinearOrder K] [Field K] :
    (∀ n k, 1 ≤ k → k < n → ∃ combos, Drains Combinations.next (Combinations.new n k) combos ∧
      combos.Pairwise (· < ·) ∧ (∀ combo ∈ combos, combo.Pairwise (· < ·)) ∧
      (combos.map List.toFinset).Nodup ∧
      ∀ s : Finset ℕ, s ∈ combos.map List.toFinset ↔ s ⊆ Finset.range n ∧ s.card = k) ∧
    ∀ {n : ℕ} (optimize : (subset : List (Fin n)) → Fin subset.length → K) (score : (Fin n → K) → K)
      (m : K) (active : List (Fin n)) (maxHoldings : ℕ), 1 ≤ maxHoldings →
      maxHoldings < active.length → ∃ w,
        exhaustiveSearch (expand optimize) score m active maxHoldings = w ∧
        (Finset.univ.filter (w · ≠ 0)).card ≤ maxHoldings ∧ (∀ i, w i ≠ 0 → i ∈ active) ∧
        ((∃ subset, Candidate active maxHoldings subset ∧
            w = portfolio (expand optimize) m subset ∧ (∃ i, 0 < w i) ∧
            ∀ subset', Candidate active maxHoldings subset' →
              (∃ i, 0 < portfolio (expand optimize) m subset' i) →
              score (portfolio (expand optimize) m subset') ≤ score w) ∨
          (∀ subset, Candidate active maxHoldings subset →
            ∀ i, ¬ 0 < portfolio (expand optimize) m subset i) ∧
          w = scatter (active.take maxHoldings) (fun _ ↦ 1 / (maxHoldings : K)) 0) := by
  constructor
  · intro n k hk hkn
    exact ⟨increasing n 0 k, Combinations.drains_new hk hkn.le, increasing_sorted n 0 k,
      fun combo hcombo ↦ (mem_increasing.1 hcombo).2.1, Combinations.sets_increasing n k⟩
  · intro n optimize score m active maxHoldings hpos hlt
    obtain ⟨places, hsublist, hlength, hheld⟩ :=
      exhaustiveSearch_heldWithin optimize score m active hpos
    refine ⟨_, rfl, hheld.card_le.trans hlength, hheld.of_sublist hsublist, ?_⟩
    obtain ⟨subset, hcandidate, heq, hbest⟩ | hnone :=
      exhaustiveSearch_cases (expand optimize) score m hpos hlt
    · rw [heq]
      exact .inl ⟨subset, hcandidate, rfl, hbest⟩
    · exact .inr hnone

def equalShares (subset : List (Fin 3)) (_ : Fin subset.length) : ℚ := 1 / subset.length

theorem exhaustiveSearch_optimal_twoOfThree :
    (∃ combos, Drains Combinations.next (Combinations.new 3 2) combos ∧ combos.Pairwise (· < ·) ∧
      (∀ combo ∈ combos, combo.Pairwise (· < ·)) ∧ (combos.map List.toFinset).Nodup ∧
      ∀ s : Finset ℕ, s ∈ combos.map List.toFinset ↔ s ⊆ Finset.range 3 ∧ s.card = 2) ∧
    ∃ w, exhaustiveSearch (expand equalShares) (fun w ↦ w 2) (1 / 4) [2, 0, 1] 2 = w ∧
      (Finset.univ.filter (w · ≠ 0)).card ≤ 2 ∧ (∀ i, w i ≠ 0 → i ∈ [2, 0, 1]) ∧
      ((∃ subset, Candidate [2, 0, 1] 2 subset ∧ w = portfolio (expand equalShares) (1 / 4) subset ∧
          (∃ i, 0 < w i) ∧ ∀ subset', Candidate [2, 0, 1] 2 subset' →
            (∃ i, 0 < portfolio (expand equalShares) (1 / 4) subset' i) →
            portfolio (expand equalShares) (1 / 4) subset' 2 ≤ w 2) ∨
        (∀ subset, Candidate [2, 0, 1] 2 subset → ∀ i,
          ¬ 0 < portfolio (expand equalShares) (1 / 4) subset i) ∧
        w = scatter ([2, 0, 1].take 2) (fun _ ↦ 1 / ((2 : ℕ) : ℚ)) 0) :=
  ⟨(exhaustiveSearch_optimal (K := ℚ)).1 3 2 (by decide) (by decide),
    exhaustiveSearch_optimal.2 equalShares (fun w ↦ w 2) (1 / 4) [2, 0, 1] 2 (by decide)
      (by decide)⟩

end Zaciraci.Portfolio
