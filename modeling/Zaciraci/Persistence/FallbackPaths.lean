import Zaciraci.Lib.Loop
import Zaciraci.Lib.Traversal
import Zaciraci.Persistence.Database

namespace Zaciraci.Persistence.TokenRate

open Lib

def findFallbackPath (rates : List TokenRate) (index : ℕ) : Option (List SwapPoolInfo) :=
  match rates[index]? with
  | none => none
  | some rate =>
    if rate.swapPath.isSome then none else (rates.drop (index + 1)).findSome? (·.swapPath)

def hasPath (rates : List TokenRate) (i : ℕ) : Bool := (rates[i]?.bind swapPath).isSome

/-- One round of the scan, with the index of the last path that it met. -/
def recordFallback (rates : List TokenRate) (scan : List (Option ℕ) × Option ℕ) (i : ℕ) :
    List (Option ℕ) × Option ℕ :=
  if hasPath rates i then (scan.1.set i none, some i) else (scan.1.set i scan.2, scan.2)

def precomputeFallbackIndices (rates : List TokenRate) : List (Option ℕ) :=
  ((List.range rates.length).reverse.foldl (recordFallback rates)
    (List.replicate rates.length none, none)).1

def indexedPath (rates : List TokenRate) (fallback : Option ℕ) : Option (List SwapPoolInfo) :=
  (fallback.bind (rates[·]?)).bind swapPath

/-- `to_spot_rates`, over the indices computed before. -/
def toSpotRatesIndexed (rates : List TokenRate) : List (Time × ExchangeRate) :=
  let fallbackIndices := precomputeFallbackIndices rates
  rates.zipIdx.filterMap fun entry ↦
    let fallbackPath := indexedPath rates fallbackIndices[entry.2]?.join
    let spotRate := entry.1.toSpotRateWithFallback fallbackPath
    if spotRate.isEffectivelyZero then none else some (entry.1.timestamp, spotRate)

variable {rates : List TokenRate} {i k : ℕ}

def IsFallback (rates : List TokenRate) (i : ℕ) (entry : Option ℕ) : Prop :=
  if hasPath rates i then entry = none else Earliest {j | i < j ∧ hasPath rates j} entry

/-- The state of the scan when the rounds from `k` on are done. -/
structure Scanned (rates : List TokenRate) (k : ℕ) (scan : List (Option ℕ) × Option ℕ) : Prop where
  length : scan.1.length = rates.length
  last : Earliest {j | k ≤ j ∧ hasPath rates j} scan.2
  entries : ∀ i, k ≤ i → i < rates.length → ∃ entry, scan.1[i]? = some entry ∧
    IsFallback rates i entry

theorem hasPath_of_length_le (h : rates.length ≤ i) : hasPath rates i = false := by
  rw [hasPath, List.getElem?_eq_none h]
  rfl

theorem scanned_length (rates : List TokenRate) :
    Scanned rates rates.length (List.replicate rates.length none, none) where
  length := List.length_replicate
  last := by
    refine Set.eq_empty_of_forall_notMem fun j hj ↦ ?_
    have hnone := hasPath_of_length_le hj.1
    exact absurd hj.2 (by simp [hnone])
  entries i hi hlt := absurd hlt (Nat.not_lt.2 hi)

theorem scanned_recordFallback {scan : List (Option ℕ) × Option ℕ} (hi : i < rates.length)
    (h : Scanned rates (i + 1) scan) : Scanned rates i (recordFallback rates scan i) := by
  have hset : ∀ entry, IsFallback rates i entry → ∀ j, i ≤ j → j < rates.length →
      ∃ e, (scan.1.set i entry)[j]? = some e ∧ IsFallback rates j e := by
    intro entry hentry j hij hj
    obtain rfl | hlt := hij.eq_or_lt
    · exact ⟨entry, List.getElem?_set_self (h.length ▸ hi), hentry⟩
    · rw [List.getElem?_set_ne hlt.ne]
      exact h.entries j hlt hj
  rw [recordFallback]
  split_ifs with hpath
  · have hnone : IsFallback rates i none := by rw [IsFallback, if_pos hpath]
    refine ⟨by rw [List.length_set, h.length], ?_, hset none hnone⟩
    exact ⟨⟨le_rfl, hpath⟩, fun j hj ↦ hj.1⟩
  · have hlater : {j | i ≤ j ∧ hasPath rates j = true} = {j | i < j ∧ hasPath rates j = true} := by
      ext j
      constructor
      · rintro ⟨hij, hj⟩
        exact ⟨hij.lt_of_ne fun heq ↦ hpath (heq ▸ hj), hj⟩
      · rintro ⟨hij, hj⟩
        exact ⟨hij.le, hj⟩
    have hlast : Earliest {j | i < j ∧ hasPath rates j = true} scan.2 := h.last
    have hfallback : IsFallback rates i scan.2 := by rwa [IsFallback, if_neg hpath]
    refine ⟨by rw [List.length_set, h.length], ?_, hset scan.2 hfallback⟩
    exact hlater ▸ hlast

theorem scanned_precompute (rates : List TokenRate) :
    ∃ last, Scanned rates 0 (precomputeFallbackIndices rates, last) :=
  ⟨_, foldl_range_reverse (I := Scanned rates) (scanned_length rates) fun _ hi _ ↦
    scanned_recordFallback hi⟩

theorem indexedPath_of_isFallback {fallback : Option ℕ} (hi : i < rates.length)
    (h : IsFallback rates i fallback) : indexedPath rates fallback = findFallbackPath rates i := by
  have hget := List.getElem?_eq_getElem hi
  have hpath : hasPath rates i = (rates[i]).swapPath.isSome := by rw [hasPath, hget]; rfl
  rw [IsFallback, hpath] at h
  rw [findFallbackPath, hget]
  dsimp only
  split_ifs at h ⊢
  · rw [h]
    rfl
  · rw [indexedPath, Option.bind_assoc]
    exact (findSome?_drop_of_earliest h).symm

/-- The scan finds the path that a search forwards finds, for every index. -/
theorem indexedPath_precompute (rates : List TokenRate) (i : ℕ) :
    indexedPath rates (precomputeFallbackIndices rates)[i]?.join = findFallbackPath rates i := by
  obtain ⟨last, hscan⟩ := scanned_precompute rates
  obtain hi | hi := Nat.lt_or_ge i rates.length
  · obtain ⟨entry, hentry, hfallback⟩ := hscan.entries i (Nat.zero_le i) hi
    rw [hentry]
    exact indexedPath_of_isFallback hi hfallback
  · have hnone : (precomputeFallbackIndices rates)[i]? = none :=
      List.getElem?_eq_none (hscan.length.trans_le hi)
    rw [hnone, findFallbackPath, List.getElem?_eq_none hi]
    rfl

def correctedRates (rates : List TokenRate) : List (Time × ExchangeRate) :=
  rates.zipIdx.map fun entry ↦
    (entry.1.timestamp, entry.1.toSpotRateWithFallback (findFallbackPath rates entry.2))

theorem toSpotRatesIndexed_eq_filter (rates : List TokenRate) :
    toSpotRatesIndexed rates = (correctedRates rates).filter fun spot ↦ ¬ spot.2.rawRate < 1 := by
  rw [correctedRates, ← filterMap_unless, toSpotRatesIndexed]
  refine List.filterMap_congr fun entry _ ↦ ?_
  simp only [indexedPath_precompute, ExchangeRate.isEffectivelyZero, decide_eq_true_eq]

theorem toSpotRateWithFallback_of_isSome {rate : TokenRate} (h : rate.swapPath.isSome)
    (path : Option (List SwapPoolInfo)) : rate.toSpotRateWithFallback path = rate.toSpotRate := by
  obtain ⟨own, hown⟩ := Option.isSome_iff_exists.1 h
  rw [toSpotRate, toSpotRateWithFallback, toSpotRateWithFallback, hown, Option.some_or,
    Option.some_or]

theorem toSpotRateWithFallback_findFallbackPath (before : List TokenRate) (rate : TokenRate)
    (after : List TokenRate) :
    rate.toSpotRateWithFallback (findFallbackPath (before ++ rate :: after) before.length) =
      rate.toSpotRateWithFallback (after.findSome? (·.swapPath)) := by
  have hget : (before ++ rate :: after)[before.length]? = some rate := by simp
  have hdrop : (before ++ rate :: after).drop (before.length + 1) = after := by
    rw [List.append_cons]
    exact List.drop_left' (by simp)
  rw [findFallbackPath, hget, hdrop]
  dsimp only
  split_ifs with hown
  · rw [toSpotRateWithFallback_of_isSome hown, toSpotRateWithFallback_of_isSome hown]
  · rfl

theorem filter_correctedRates (before after : List TokenRate) :
    ((after.zipIdx before.length).map fun entry ↦ (entry.1.timestamp,
        entry.1.toSpotRateWithFallback (findFallbackPath (before ++ after) entry.2))).filter
      (fun spot ↦ ¬ spot.2.rawRate < 1) = toSpotRates after := by
  induction after generalizing before with
  | nil => rfl
  | cons rate after ih =>
    have hrest := ih (before ++ [rate])
    rw [List.length_append, List.length_singleton, ← List.append_cons] at hrest
    rw [List.zipIdx_cons, List.map_cons, toSpotRateWithFallback_findFallbackPath, List.filter_cons,
      hrest, toSpotRates]
    by_cases hzero : (rate.toSpotRateWithFallback (after.findSome? (·.swapPath))).rawRate < 1
    · simp [ExchangeRate.isEffectivelyZero, hzero]
    · simp [ExchangeRate.isEffectivelyZero, hzero]

/-- The price histories of the strategy are those that the source computes. -/
theorem toSpotRatesIndexed_eq (rates : List TokenRate) :
    toSpotRatesIndexed rates = toSpotRates rates :=
  (toSpotRatesIndexed_eq_filter rates).trans (filter_correctedRates [] rates)

/-- The scan records for every rate the next path behind it, as a search forwards would find it,
and of the corrected rates exactly those below one are dropped. -/
theorem precomputeFallbackIndices_spec (rates : List TokenRate) :
    (precomputeFallbackIndices rates).length = rates.length ∧
      (∀ i < rates.length, ∃ entry, (precomputeFallbackIndices rates)[i]? = some entry ∧
        IsFallback rates i entry) ∧
      (∀ i, indexedPath rates (precomputeFallbackIndices rates)[i]?.join =
        findFallbackPath rates i) ∧
      toSpotRatesIndexed rates =
        (correctedRates rates).filter fun spot ↦ ¬ spot.2.rawRate < 1 := by
  obtain ⟨last, hscan⟩ := scanned_precompute rates
  exact ⟨hscan.length, fun i ↦ hscan.entries i (Nat.zero_le i), indexedPath_precompute rates,
    toSpotRatesIndexed_eq_filter rates⟩

end Zaciraci.Persistence.TokenRate
