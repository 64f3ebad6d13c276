import Zaciraci.Lib.Loop
import Zaciraci.Lib.Newton
import Zaciraci.Trade.SpotRate
import Zaciraci.Trade.Strategy

namespace Zaciraci.Trade

open Lib

section Model

def sortedPrices (prices : List PricePoint) : List PricePoint :=
  prices.insertionSort fun a b ↦ a.timestamp ≤ b.timestamp

variable (div : BigDecimal → BigDecimal → BigDecimal)

def newtonRound (value x : BigDecimal) : Round BigDecimal BigDecimal :=
  let nextX := div (x + div value x) 2
  let diff := if x < nextX then nextX - x else x - nextX
  if diff < div 1 10000000000 then .leave nextX else .again nextX

def sqrtBigdecimalWith (value : BigDecimal) : Except String BigDecimal :=
  if value = 0 then .ok 0
  else if value < 0 then .error "Cannot calculate square root of negative number"
  else .ok (loop (newtonRound div value) id 50 (div value 2))

/-- The returns between neighbours. A price of zero gives none. -/
def returnsWith (prices : List PricePoint) : List BigDecimal :=
  (prices.zip prices.tail).filterMap fun pair ↦
    if pair.1.price = 0 then none
    else some (div (pair.2.price - pair.1.price) pair.1.price)

def varianceWith (returns : List BigDecimal) : BigDecimal :=
  let mean := div returns.sum returns.length
  div (returns.map fun r ↦ (r - mean) * (r - mean)).sum (returns.length - 1 : ℕ)

/-- The part of `calculate_volatility_from_history` that works on the returns. -/
def deviationWith (returns : List BigDecimal) : Except String BigDecimal :=
  if returns = [] then .error "No valid price returns for volatility calculation"
  else if returns.length < 2 then .ok 0
  else
    let variance := varianceWith div returns
    if variance = 0 then .ok 0
    else if variance < 0 then .error "Invalid negative variance"
    else sqrtBigdecimalWith div variance

def calculateVolatilityFromHistoryWith (prices : List PricePoint) : Except String BigDecimal :=
  if prices.length < 2 then
    .error s!"Insufficient price data for volatility calculation: {prices.length} points"
  else deviationWith div (returnsWith div (sortedPrices prices))

end Model

def sqrtBigdecimal : BigDecimal → Except String BigDecimal := sqrtBigdecimalWith BigDecimal.div

def calculateVolatilityFromHistory : List PricePoint → Except String BigDecimal :=
  calculateVolatilityFromHistoryWith BigDecimal.div

section SquareRoot

variable {v x : BigDecimal}

def newtonNext (v x : BigDecimal) : BigDecimal := (x + v / x) / 2

theorem newtonRound_exact (v x : BigDecimal) :
    newtonRound (· / ·) v x = if |x - newtonNext v x| < 1e-10 then .leave (newtonNext v x)
      else .again (newtonNext v x) := by
  have hdiff : (if x < newtonNext v x then newtonNext v x - x else x - newtonNext v x) =
      |x - newtonNext v x| := by
    split_ifs with h
    · rw [abs_of_neg (sub_neg.2 h), neg_sub]
    · rw [abs_of_nonneg (sub_nonneg.2 (not_lt.1 h))]
  have hprecision : (1 : BigDecimal) / 10000000000 = 1e-10 := by norm_num
  rw [← hdiff, ← hprecision]
  rfl

theorem newtonStep_next (hx : 0 < x) : NewtonStep v x (newtonNext v x) where
  pos := hx
  eq := by
    rw [newtonNext]
    field_simp

def estimate (v : BigDecimal) (k : ℕ) : BigDecimal := (newtonNext v)^[k] (v / 2)

theorem newtonStep_estimate (hv : 0 < v) (k : ℕ) :
    NewtonStep v (estimate v k) (estimate v (k + 1)) := by
  rw [estimate, estimate, Function.iterate_succ_apply']
  refine newtonStep_next ?_
  induction k with
  | zero => exact half_pos hv
  | succ k ih =>
    rw [Function.iterate_succ_apply']
    exact (newtonStep_next ih).pos_next hv

theorem excess_estimate_one (hv : 0 < v) :
    estimate v 1 * estimate v 1 - v = (v / 4 - 1) ^ 2 := by
  rw [estimate, Function.iterate_one, newtonNext]
  field_simp
  ring

theorem excess_estimate_lt (hv : 0 < v) (hle : v ≤ 2 ^ 64) :
    estimate v 38 * estimate v 38 - v < 1e-10 ^ 2 := by
  have hfirst := excess_estimate_one hv
  obtain hsmall | hlarge := lt_or_ge v 1
  · -- The excess begins below one, so that quarters are enough.
    have hquarter := newton_quarter (newtonStep_estimate hv) hv 0 37
    rw [Nat.zero_add, Nat.zero_add, hfirst] at hquarter
    nlinarith
  · -- Thirty quarters bring it down to the value, and then it falls to its square.
    have hquarter := newton_quarter (newtonStep_estimate hv) hv 0 30
    rw [Nat.zero_add, Nat.zero_add, hfirst] at hquarter
    have hnear : estimate v 31 * estimate v 31 - v ≤ v := by nlinarith
    have hsquare := newton_square (newtonStep_estimate hv) hv hnear 7
    norm_num at hsquare ⊢
    linarith

theorem newtonRound_leaves (hv : 0 < v) (hle : v ≤ 2 ^ 64) :
    ∃ r, newtonRound (· / ·) v (estimate v 37) = .leave r := by
  have hstep : |estimate v 37 - estimate v 38| < 1e-10 := by
    refine abs_lt_of_sq_lt_sq ?_ (by norm_num)
    rw [← (newtonStep_estimate hv 37).excess]
    exact excess_estimate_lt hv hle
  have hnext : estimate v 38 = newtonNext v (estimate v 37) := Function.iterate_succ_apply' _ 37 _
  rw [hnext] at hstep
  exact ⟨_, (newtonRound_exact v _).trans (if_pos hstep)⟩

def NearRoot (v r : BigDecimal) : Prop := v ≤ r * r ∧ (r ≤ 1e-10 ∨ (r - 1e-10) ^ 2 < v)

theorem nearRoot_of_leave {r : BigDecimal} (hx : 0 < x)
    (hleave : newtonRound (· / ·) v x = .leave r) : NearRoot v r := by
  have hstep : NewtonStep v x (newtonNext v x) := newtonStep_next hx
  rw [newtonRound_exact] at hleave
  split_ifs at hleave with hshort
  cases hleave
  refine ⟨hstep.le_sq, ?_⟩
  obtain htiny | hr := le_or_gt (newtonNext v x) 1e-10
  · exact .inl htiny
  · exact .inr (hstep.sub_sq_lt hshort hr)

theorem exists_visits_leave (hv : 0 < v) (hle : v ≤ 2 ^ 64) :
    ∃ x r, Visits (newtonRound (· / ·) v) 50 (v / 2) x ∧ newtonRound (· / ·) v x = .leave r ∧
      NearRoot v r := by
  have hround : ∀ x, (∃ r, newtonRound (· / ·) v x = .leave r) ∨
      newtonRound (· / ·) v x = .again (newtonNext v x) := by
    intro x
    rw [newtonRound_exact]
    split_ifs
    · exact .inl ⟨_, rfl⟩
    · exact .inr rfl
  obtain ⟨j, -, r, hvisits, hleave⟩ := exists_leave_of_iterate hround
    (show 37 < 50 by norm_num) (newtonRound_leaves hv hle)
  exact ⟨_, r, hvisits, hleave, nearRoot_of_leave (newtonStep_estimate hv j).pos hleave⟩

theorem sqrtBigdecimalWith_of_pos {div : BigDecimal → BigDecimal → BigDecimal} (hv : 0 < v) :
    sqrtBigdecimalWith div v = .ok (loop (newtonRound div v) id 50 (div v 2)) := by
  rw [sqrtBigdecimalWith, if_neg hv.ne', if_neg hv.not_gt]

/-- Up to `2 ^ 64` the test for convergence ends the loop, and the estimate is too large by less
than the precision. -/
theorem sqrtBigdecimalWith_accuracy (v : BigDecimal) (hv : 0 < v) (hle : v ≤ 2 ^ 64) :
    ∃ x r, Visits (newtonRound (· / ·) v) 50 (v / 2) x ∧ newtonRound (· / ·) v x = .leave r ∧
      sqrtBigdecimalWith (· / ·) v = .ok r ∧ v ≤ r * r ∧
      (r ≤ 1e-10 ∨ (r - 1e-10) ^ 2 < v) := by
  obtain ⟨x, r, hvisits, hleave, hnear⟩ := exists_visits_leave hv hle
  refine ⟨x, r, hvisits, hleave, ?_, hnear⟩
  rw [sqrtBigdecimalWith_of_pos hv, hvisits.loop_eq hleave]

theorem sqrtBigdecimalWith_two :
    ∃ r, sqrtBigdecimalWith (· / ·) 2 = .ok r ∧ 2 ≤ r * r ∧ (r ≤ 1e-10 ∨ (r - 1e-10) ^ 2 < 2) := by
  obtain ⟨x, r, -, -, h⟩ := sqrtBigdecimalWith_accuracy 2 (by norm_num) (by norm_num)
  exact ⟨r, h⟩

end SquareRoot

section Volatility

variable {div : BigDecimal → BigDecimal → BigDecimal} {returns : List BigDecimal}
  {prices : List PricePoint} {σ : BigDecimal}

theorem returnsWith_eq_nil_iff (prices : List PricePoint) :
    returnsWith div prices = [] ↔ ∀ point ∈ prices.dropLast, point.price = 0 := by
  rw [returnsWith]
  induction prices with
  | nil => simp
  | cons first rest ih =>
    cases rest with
    | nil => simp
    | cons second rest =>
      rw [List.tail_cons] at ih ⊢
      rw [List.zip_cons_cons, List.filterMap_cons, List.dropLast_cons_cons, List.forall_mem_cons]
      by_cases hzero : first.price = 0
      · simpa only [hzero, if_true, true_and] using ih
      · simp [hzero]

theorem varianceWith_nonneg (hdiv : ∀ a b, 0 ≤ a → 0 < b → 0 ≤ div a b)
    (hlength : 2 ≤ returns.length) : 0 ≤ varianceWith div returns := by
  refine hdiv _ _ (List.sum_nonneg fun square hsquare ↦ ?_) ?_
  · obtain ⟨r, -, rfl⟩ := List.mem_map.1 hsquare
    exact mul_self_nonneg _
  · exact_mod_cast Nat.sub_pos_of_lt hlength

theorem deviationWith_cases (hdiv : ∀ a b, 0 ≤ a → 0 < b → 0 ≤ div a b)
    (returns : List BigDecimal) :
    (returns = [] ∧ deviationWith div returns =
        .error "No valid price returns for volatility calculation") ∨
      (returns ≠ [] ∧ (returns.length < 2 ∨ varianceWith div returns = 0) ∧
        deviationWith div returns = .ok 0) ∨
      (returns ≠ [] ∧ 0 < varianceWith div returns ∧
        deviationWith div returns = sqrtBigdecimalWith div (varianceWith div returns)) := by
  by_cases hnil : returns = []
  · exact .inl ⟨hnil, if_pos hnil⟩
  rw [deviationWith, if_neg hnil]
  by_cases hone : returns.length < 2
  · exact .inr (.inl ⟨hnil, .inl hone, if_pos hone⟩)
  rw [if_neg hone]
  have hnonneg := varianceWith_nonneg hdiv (Nat.le_of_not_lt hone)
  by_cases hzero : varianceWith div returns = 0
  · exact .inr (.inl ⟨hnil, .inr hzero, if_pos hzero⟩)
  · exact .inr (.inr ⟨hnil, hnonneg.lt_of_ne' hzero,
      (if_neg hzero).trans (if_neg hnonneg.not_gt)⟩)

theorem bigDecimalDiv_nonneg (a b : BigDecimal) (ha : 0 ≤ a) (hb : 0 < b) :
    0 ≤ BigDecimal.div a b := by
  obtain rfl | hpos := ha.eq_or_lt
  · rw [BigDecimal.div, zero_div, if_neg (lt_irrefl 0), roundSig_zero]
  · exact (bigDecimalDiv_pos hpos hb).le

theorem calculateVolatilityFromHistory_isOk_iff (prices : List PricePoint) :
    (∃ σ, calculateVolatilityFromHistory prices = .ok σ) ↔
      ∃ point ∈ (sortedPrices prices).dropLast, point.price ≠ 0 := by
  have hreturns : returnsWith BigDecimal.div (sortedPrices prices) ≠ [] ↔
      ∃ point ∈ (sortedPrices prices).dropLast, point.price ≠ 0 := by
    simp [returnsWith_eq_nil_iff]
  rw [calculateVolatilityFromHistory, calculateVolatilityFromHistoryWith, ← hreturns]
  split_ifs with hshort
  · have hlength : (sortedPrices prices).length < 2 := by
      rwa [sortedPrices, List.length_insertionSort]
    have hnil : returnsWith BigDecimal.div (sortedPrices prices) = [] := by
      rw [returnsWith_eq_nil_iff, List.dropLast_eq_take, List.take_eq_nil_iff.2 (.inl (by omega))]
      simp
    simp [hnil]
  · obtain ⟨hnil, herr⟩ | ⟨hnil, -, hok⟩ | ⟨hnil, hpos, hroot⟩ :=
      deviationWith_cases bigDecimalDiv_nonneg (returnsWith BigDecimal.div (sortedPrices prices))
    · rw [herr]
      simp [hnil]
    · rw [hok]
      simp [hnil]
    · rw [hroot, sqrtBigdecimalWith_of_pos hpos]
      simp [hnil]

theorem varianceWith_of_length_lt (h : returns.length < 2) : varianceWith (· / ·) returns = 0 := by
  have hzero : returns.length - 1 = 0 := by omega
  simp [varianceWith, hzero]

theorem calculateVolatilityFromHistoryWith_nearRoot
    (h : calculateVolatilityFromHistoryWith (· / ·) prices = .ok σ)
    (hle : varianceWith (· / ·) (returnsWith (· / ·) (sortedPrices prices)) ≤ 2 ^ 64) :
    NearRoot (varianceWith (· / ·) (returnsWith (· / ·) (sortedPrices prices))) σ := by
  rw [calculateVolatilityFromHistoryWith] at h
  split_ifs at h
  obtain ⟨-, herr⟩ | ⟨-, hflat, hok⟩ | ⟨-, hpos, hroot⟩ :=
    deviationWith_cases (fun a b ha hb ↦ div_nonneg ha hb.le)
      (returnsWith (· / ·) (sortedPrices prices))
  · rw [herr] at h
    cases h
  · rw [hok] at h
    cases h
    have hzero := hflat.elim varianceWith_of_length_lt id
    rw [hzero]
    exact ⟨by norm_num, .inl (by norm_num)⟩
  · obtain ⟨x, r, hvisits, hleave, hnear⟩ := exists_visits_leave hpos hle
    rw [hroot, sqrtBigdecimalWith_of_pos hpos, hvisits.loop_eq hleave] at h
    cases h
    exact hnear

/-- A history has a volatility exactly if one of its prices is followed by another and is not
zero: the variance never comes out negative. In exact arithmetic it is the root of the variance of
the returns, up to the precision. -/
theorem calculateVolatilityFromHistory_spec (prices : List PricePoint) :
    ((∃ σ, calculateVolatilityFromHistory prices = .ok σ) ↔
      ∃ point ∈ (sortedPrices prices).dropLast, point.price ≠ 0) ∧
    ∀ σ, calculateVolatilityFromHistoryWith (· / ·) prices = .ok σ →
      varianceWith (· / ·) (returnsWith (· / ·) (sortedPrices prices)) ≤ 2 ^ 64 →
        NearRoot (varianceWith (· / ·) (returnsWith (· / ·) (sortedPrices prices))) σ :=
  ⟨calculateVolatilityFromHistory_isOk_iff prices,
    fun _ h hle ↦ calculateVolatilityFromHistoryWith_nearRoot h hle⟩

def doubledPrices : List PricePoint := [⟨1, 2⟩, ⟨0, 1⟩, ⟨2, 1⟩]

theorem calculateVolatilityFromHistory_doubledPrices :
    ∃ σ, calculateVolatilityFromHistoryWith (· / ·) doubledPrices = .ok σ ∧
      NearRoot (9 / 8) σ := by
  have hvariance : varianceWith (· / ·) (returnsWith (· / ·) (sortedPrices doubledPrices)) =
      9 / 8 := by decide +kernel
  obtain ⟨σ, hσ⟩ : ∃ σ, calculateVolatilityFromHistoryWith (· / ·) doubledPrices = .ok σ := by
    have hreturns : returnsWith (· / ·) (sortedPrices doubledPrices) = [1, -(1 / 2)] := by
      decide +kernel
    rw [calculateVolatilityFromHistoryWith, if_neg (by decide), deviationWith, hreturns,
      if_neg (by decide), if_neg (by decide), ← hreturns, hvariance, if_neg (by norm_num),
      if_neg (by norm_num)]
    exact ⟨_, sqrtBigdecimalWith_of_pos (by norm_num)⟩
  refine ⟨σ, hσ, ?_⟩
  have hnear := (calculateVolatilityFromHistory_spec doubledPrices).2 σ hσ
    (by rw [hvariance]; norm_num)
  rwa [hvariance] at hnear

end Volatility

end Zaciraci.Trade
