import Mathlib.Algebra.Order.BigOperators.GroupWithZero.List
import Zaciraci.Dex.Estimate
import Zaciraci.Lib.ConstantProduct
import Zaciraci.Persistence.Database

namespace Zaciraci

open Lib

namespace Persistence.TokenRate

variable (div : BigDecimal → BigDecimal → BigDecimal)

def correctionWith : BigDecimal → List SwapPoolInfo → BigDecimal
  | _, [] => 1
  | delta, pool :: pools =>
    if pool.amountIn = 0 then correctionWith delta pools
    else div (pool.amountIn + delta) pool.amountIn *
      correctionWith (div (pool.amountOut * delta) (pool.amountIn + delta)) pools

theorem correctionWith_div (delta : BigDecimal) (pools : List SwapPoolInfo) :
    correctionWith BigDecimal.div delta pools = correction delta pools := by
  induction pools generalizing delta with
  | nil => rfl
  | cons pool pools ih => rw [correctionWith, correction, ih, ih]

end Persistence.TokenRate

namespace Dex.TokenPair

def amountIn (pair : TokenPair) : Except Error (BitVec 128) := pair.pool.amount pair.tokenIn

def amountOut (pair : TokenPair) : Except Error (BitVec 128) := pair.pool.amount pair.tokenOut

end Dex.TokenPair

namespace Trade

open Dex Persistence

variable (div : BigDecimal → BigDecimal → BigDecimal)

def perNear (amount : TokenAmount) (near : BigDecimal) : ExchangeRate :=
  ⟨if near = 0 then 0 else div amount.smallestUnits near, amount.decimals⟩

def swapPathOf (path : TokenPath) : List SwapPoolInfo :=
  path.filterMap fun pair ↦
    match pair.amountIn, pair.amountOut with
    | .ok x, .ok y => some ⟨x.toNat, y.toNat⟩
    | _, _ => none

/-- What is recorded when `value` came out for `rateCalcNear` NEAR. -/
def recordRate (quote base : TokenAccount) (decimals : ℕ) (timestamp : Time) (rateCalcNear : ℤ)
    (value : BigDecimal) (swapPath : List SwapPoolInfo) : TokenRate where
  base
  quote
  exchangeRate := perNear div ⟨value, decimals⟩ rateCalcNear
  timestamp
  rateCalcNear
  swapPath := some swapPath

/-- A pool on a path: its reserves, and the part of the input that it keeps as a fee. -/
structure Hop where
  amountIn : ℚ
  amountOut : ℚ
  fee : ℚ
  amountIn_pos : 0 < amountIn
  amountOut_pos : 0 < amountOut
  fee_nonneg : 0 ≤ fee
  fee_lt_one : fee < 1

namespace Hop

variable {hops : List Hop} {a b r : ℚ} {round : ℚ → ℚ}

def pool (hop : Hop) : SwapPoolInfo := ⟨hop.amountIn, hop.amountOut⟩

def output (hop : Hop) (a : ℚ) : ℚ :=
  constantProduct hop.amountIn hop.amountOut ((1 - hop.fee) * a)

/-- What comes out of a path, if what comes out of each hop is rounded. -/
def outputs (round : ℚ → ℚ) : List Hop → ℚ → ℚ
  | [], a => a
  | hop :: hops, a => outputs round hops (round (hop.output a))

/-- What would come out of a path without fees. -/
def feeless : List Hop → ℚ → ℚ
  | [], a => a
  | hop :: hops, a => feeless hops (constantProduct hop.amountIn hop.amountOut a)

theorem feeless_pos (hops : List Hop) (ha : 0 < a) : 0 < feeless hops a := by
  induction hops generalizing a with
  | nil => exact ha
  | cons hop hops ih => exact ih (constantProduct_pos hop.amountIn_pos hop.amountOut_pos ha)

theorem correctionWith_cons (hop : Hop) (hops : List Hop) (a : ℚ) :
    TokenRate.correctionWith div a ((hop :: hops).map pool) =
      div (hop.amountIn + a) hop.amountIn * TokenRate.correctionWith div
        (div (hop.amountOut * a) (hop.amountIn + a)) (hops.map pool) :=
  if_neg hop.amountIn_pos.ne'

theorem correctionWith_pos (hdiv : ∀ {a b}, 0 < a → 0 < b → 0 < div a b) (hops : List Hop)
    (ha : 0 < a) : 0 < TokenRate.correctionWith div a (hops.map pool) := by
  induction hops generalizing a with
  | nil => exact zero_lt_one
  | cons hop hops ih =>
    have hsum := add_pos hop.amountIn_pos ha
    rw [correctionWith_cons]
    exact mul_pos (hdiv hsum hop.amountIn_pos) (ih (hdiv (mul_pos hop.amountOut_pos ha) hsum))

/-- Along the whole path the correction undoes what the price impact took off. -/
theorem correction_mul_feeless (hops : List Hop) (ha : 0 < a) :
    TokenRate.correctionWith (· / ·) a (hops.map pool) * feeless hops a =
      (hops.map fun hop ↦ hop.amountOut / hop.amountIn).prod * a := by
  induction hops generalizing a with
  | nil => rfl
  | cons hop hops ih =>
    have hout := constantProduct_pos hop.amountIn_pos hop.amountOut_pos ha
    change _ * feeless hops (constantProduct hop.amountIn hop.amountOut a) = _
    rw [correctionWith_cons, ← constantProduct, mul_assoc, ih hout, List.map_cons, List.prod_cons,
      mul_left_comm, impact_mul_constantProduct hop.amountIn_pos ha.le]
    ring

theorem output_nonneg (hop : Hop) (ha : 0 ≤ a) : 0 ≤ hop.output a :=
  constantProduct_nonneg hop.amountIn_pos hop.amountOut_pos
    (mul_nonneg (sub_nonneg.2 hop.fee_lt_one.le) ha)

theorem outputs_nonneg (hround : ∀ q, 0 ≤ q → 0 ≤ round q ∧ round q ≤ q) (ha : 0 ≤ a) :
    0 ≤ outputs round hops a := by
  induction hops generalizing a with
  | nil => exact ha
  | cons hop hops ih => exact ih (hround _ (hop.output_nonneg ha)).1

theorem outputs_le_feeless (hround : ∀ q, 0 ≤ q → 0 ≤ round q ∧ round q ≤ q) (ha : 0 ≤ a)
    (h : a ≤ b) : outputs round hops a ≤ feeless hops b := by
  induction hops generalizing a b with
  | nil => exact h
  | cons hop hops ih =>
    obtain ⟨hnonneg, hle⟩ := hround _ (hop.output_nonneg ha)
    have hfee : (1 - hop.fee) * a ≤ b :=
      (mul_le_of_le_one_left ha (sub_le_self 1 hop.fee_nonneg)).trans h
    exact ih hnonneg (hle.trans (constantProduct_mono hop.amountIn_pos hop.amountOut_pos
      (mul_nonneg (sub_nonneg.2 hop.fee_lt_one.le) ha) hfee))

/-- The fees take no more than their own part, as less input gets a better price. -/
theorem mul_feeless_le_outputs (hops : List Hop) (hr : 0 ≤ r) (hr' : r ≤ 1) (hb : 0 ≤ b)
    (h : r * b ≤ a) :
    r * (hops.map fun hop ↦ 1 - hop.fee).prod * feeless hops b ≤ outputs id hops a := by
  induction hops generalizing a b r with
  | nil => simpa [outputs, feeless] using h
  | cons hop hops ih =>
    have hkept : 0 ≤ 1 - hop.fee := sub_nonneg.2 hop.fee_lt_one.le
    have hkept' : 1 - hop.fee ≤ 1 := sub_le_self 1 hop.fee_nonneg
    have hpart : r * (1 - hop.fee) * constantProduct hop.amountIn hop.amountOut b ≤
        hop.output a := by
      refine (mul_constantProduct_le hop.amountIn_pos hop.amountOut_pos hb (mul_nonneg hr hkept)
        (mul_le_one₀ hr' hkept hkept')).trans ?_
      refine constantProduct_mono hop.amountIn_pos hop.amountOut_pos (by positivity) ?_
      rw [mul_comm r, mul_assoc]
      exact mul_le_mul_of_nonneg_left h hkept
    have hnext := ih (mul_nonneg hr hkept) (mul_le_one₀ hr' hkept hkept')
      (constantProduct_nonneg hop.amountIn_pos hop.amountOut_pos hb) hpart
    rwa [mul_assoc r] at hnext

theorem outputs_eq_feeless (h : ∀ hop ∈ hops, hop.fee = 0) :
    outputs id hops a = feeless hops a := by
  induction hops generalizing a with
  | nil => rfl
  | cons hop hops ih =>
    rw [List.forall_mem_cons] at h
    rw [outputs, feeless, id, output, h.1, sub_zero, one_mul, ih h.2]

end Hop

section Spot

open Hop

variable {hops : List Hop} {rateCalcNear : ℤ} {value : ℚ} {quote base : TokenAccount}
  {decimals : ℕ} {timestamp : Time}

def marginalRate (hops : List Hop) : ℚ :=
  yoctoPerNear * (hops.map fun hop ↦ hop.amountOut / hop.amountIn).prod

theorem marginalRate_pos (hops : List Hop) : 0 < marginalRate hops := by
  refine mul_pos (by norm_num [yoctoPerNear]) (List.prod_pos ?_)
  exact List.forall_mem_map.2 fun hop _ ↦ div_pos hop.amountOut_pos hop.amountIn_pos

theorem toSpotRate_recordRate (hops_ne : hops ≠ []) (hnear : 0 < rateCalcNear) :
    (recordRate (· / ·) quote base decimals timestamp rateCalcNear value
      (hops.map pool)).toSpotRate.rawRate =
      value / rateCalcNear *
        TokenRate.correctionWith BigDecimal.div (rateCalcNear * yoctoPerNear) (hops.map pool) := by
  have hne : (rateCalcNear : ℚ) ≠ 0 := by exact_mod_cast hnear.ne'
  obtain ⟨hop, hops, rfl⟩ := List.exists_cons_of_ne_nil hops_ne
  rw [TokenRate.correctionWith_div]
  change (if (rateCalcNear : ℚ) = 0 then 0 else value / rateCalcNear) * _ = _
  rw [if_neg hne]
  rfl

/-- With exact quotients the corrected rate differs from the marginal rate as the value that came
out differs from what would have come out without fees. -/
theorem corrected_eq (hnear : 0 < rateCalcNear) :
    value / rateCalcNear *
      TokenRate.correctionWith (· / ·) (rateCalcNear * yoctoPerNear) (hops.map pool) =
      marginalRate hops * (value / feeless hops (rateCalcNear * yoctoPerNear)) := by
  have hnear' : (0 : ℚ) < rateCalcNear := by exact_mod_cast hnear
  have hinput : (0 : ℚ) < rateCalcNear * yoctoPerNear :=
    mul_pos hnear' (by norm_num [yoctoPerNear])
  have hfree := feeless_pos hops hinput
  have hcorrection := correction_mul_feeless hops hinput
  rw [← mul_div_assoc, eq_div_iff hfree.ne', mul_assoc, hcorrection, marginalRate]
  field_simp

/-- A quotient is cut to a hundred digits. -/
def quotientError : ℚ := 1 + 10 ^ (-99 : ℤ)

theorem one_le_quotientError : 1 ≤ quotientError := by
  rw [quotientError]
  exact le_add_of_nonneg_right (zpow_nonneg (by norm_num) _)

theorem within_div {a b : ℚ} (ha : 0 < a) (hb : 0 < b) :
    Within quotientError (BigDecimal.div a b) (a / b) := by
  have hpos := div_pos ha hb
  rw [BigDecimal.div, if_neg hpos.not_gt]
  exact within_roundSig (by decide) hpos

theorem bigDecimalDiv_pos {a b : ℚ} (ha : 0 < a) (hb : 0 < b) : 0 < BigDecimal.div a b := by
  have hle := (within_div ha hb).2
  have hpos := div_pos ha hb
  have hone := one_le_quotientError
  exact (mul_pos_iff_of_pos_left (zero_lt_one.trans_le hone)).1 (hpos.trans_le hle)

/-- Every hop rounds the factor and the next input, whose error the hops after it repeat. -/
theorem within_correction (hops : List Hop) (j : ℕ) {d d' : ℚ} (hd : 0 < d) (hd' : 0 < d')
    (h : Within (quotientError ^ j) d d') :
    Within (quotientError ^ (hops.length * (j + hops.length)))
      (TokenRate.correctionWith BigDecimal.div d (hops.map pool))
      (TokenRate.correctionWith (· / ·) d' (hops.map pool)) := by
  induction hops generalizing j d d' with
  | nil => exact (Within.refl zero_le_one (one_le_pow₀ one_le_quotientError) :)
  | cons hop hops ih =>
    have hone := one_le_quotientError
    have hpos : 0 < quotientError := zero_lt_one.trans_le hone
    have hin := hop.amountIn_pos
    have hout := hop.amountOut_pos
    have hfactor : Within (quotientError ^ (j + 1))
        (BigDecimal.div (hop.amountIn + d) hop.amountIn)
        ((hop.amountIn + d') / hop.amountIn) := by
      rw [pow_succ']
      exact (within_div (by positivity) hin).trans (h.impact hin (one_le_pow₀ hone)) hpos.le
        (by positivity)
    have hnext : Within (quotientError ^ (j + 1))
        (BigDecimal.div (hop.amountOut * d) (hop.amountIn + d))
        (hop.amountOut * d' / (hop.amountIn + d')) := by
      rw [pow_succ']
      exact (within_div (by positivity) (by positivity)).trans
        (h.constantProduct hin hout hd.le hd'.le (one_le_pow₀ hone)) hpos.le (by positivity)
    have hexact : 0 < hop.amountOut * d' / (hop.amountIn + d') := by positivity
    have hrounded := bigDecimalDiv_pos (mul_pos hout hd) (add_pos hin hd)
    have hrest := ih (j + 1) hrounded hexact hnext
    have hcorrection := correctionWith_pos _ bigDecimalDiv_pos hops hrounded
    have hcorrection' := correctionWith_pos (· / ·) div_pos hops hexact
    have hexp : j + 1 + hops.length * (j + 1 + hops.length) ≤
        (hops.length + 1) * (j + (hops.length + 1)) := by nlinarith
    rw [correctionWith_cons, correctionWith_cons, List.length_cons]
    refine Within.mono ?_ ?_ ?_ (pow_le_pow_right₀ hone hexp)
    · rw [pow_add]
      exact hfactor.mul hrest (by positivity) (bigDecimalDiv_pos (by positivity) hin).le
        (by positivity) hcorrection.le hcorrection'.le
    · exact mul_nonneg (bigDecimalDiv_pos (by positivity) hin).le hcorrection.le
    · positivity

def Quotes (pair : TokenPair) (hop : Hop) : Prop :=
  pair.tokenIn ≠ pair.tokenOut ∧ ∃ x y : U128, pair.amountIn = .ok x ∧ pair.amountOut = .ok y ∧
    hop.amountIn = x.toNat ∧ hop.amountOut = y.toNat ∧ hop.fee = pair.pool.totalFee.toNat / 10000

theorem swapPathOf_eq {path : TokenPath} (h : List.Forall₂ Quotes path hops) :
    swapPathOf path = hops.map pool := by
  induction h with
  | nil => rfl
  | cons hquotes _ ih =>
    obtain ⟨-, x, y, hx, hy, hin, hout, -⟩ := hquotes
    rw [swapPathOf, List.filterMap_cons, hx, hy, List.map_cons, pool, hin, hout, ← ih]
    rfl

theorem estimateReturn_eq_floor {pair : TokenPair} {hop : Hop} {a r : U128} (h : Quotes pair hop)
    (hr : pair.estimateReturn a = .ok r) : (r.toNat : ℚ) = ⌊hop.output a.toNat⌋ := by
  obtain ⟨-, x, y, hx, hy, hin, hout, hfee⟩ := h
  obtain ⟨-, -, x', y', hx', hy', hxpos, -, hvalue⟩ := PoolInfo.estimateReturn_iff.1 hr
  obtain rfl := Option.some.inj ((PoolInfo.amount_ok.1 hx).symm.trans hx')
  obtain rfl := Option.some.inj ((PoolInfo.amount_ok.1 hy).symm.trans hy')
  have hbounded : pair.pool.FeeBounded := by
    have hlt := hop.fee_lt_one
    rw [hfee, div_lt_one (by norm_num)] at hlt
    exact_mod_cast hlt.le
  have hfactor : ((pair.pool.feeFactor : ℕ) : ℚ) = 10000 * (1 - hop.fee) := by
    rw [PoolInfo.feeFactor_eq hbounded, Nat.cast_sub hbounded, hfee]
    push_cast
    ring
  have houtput : hop.output a.toNat = (a.toNat * pair.pool.feeFactor * y.toNat : ℕ) /
      (10000 * x.toNat + a.toNat * pair.pool.feeFactor : ℕ) := by
    have hkept : 0 ≤ 1 - hop.fee := sub_nonneg.2 hop.fee_lt_one.le
    have hin' := hop.amountIn_pos
    have ha : (0 : ℚ) ≤ a.toNat := Nat.cast_nonneg _
    push_cast
    rw [output, constantProduct, hfactor, ← hin, ← hout]
    generalize (a.toNat : ℚ) = n at ha
    rw [div_eq_div_iff (by positivity) (by positivity)]
    ring
  rw [hvalue, houtput, Rat.floor_natCast_div_natCast, PoolInfo.swapOut]
  norm_cast

theorem outputs_floor_zero (hops : List Hop) : outputs (fun q ↦ ⌊q⌋) hops 0 = 0 := by
  induction hops with
  | nil => rfl
  | cons hop hops ih =>
    have hzero : hop.output 0 = 0 := by simp [output, constantProduct]
    rw [outputs, hzero, Int.floor_zero, Int.cast_zero, ih]

theorem calcValue_eq_outputs {path : TokenPath} {a v : U128} (h : List.Forall₂ Quotes path hops)
    (hv : path.calcValue a = .ok v) :
    (v.toNat : ℚ) = outputs (fun q ↦ ⌊q⌋) hops a.toNat := by
  induction h generalizing a with
  | nil =>
    cases hv
    rfl
  | cons hquotes _ ih =>
    by_cases hzero : a = 0
    · subst hzero
      rw [TokenPath.calcValue_zero] at hv
      cases hv
      exact (outputs_floor_zero _).symm
    · rw [TokenPath.calcValue_cons hzero] at hv
      obtain ⟨r, hr, hv⟩ := except_bind_eq_ok.1 hv
      rw [ih hv, outputs, estimateReturn_eq_floor hquotes hr]

theorem within_spotRate (hops_ne : hops ≠ []) (hnear : 0 < rateCalcNear) (hvalue : 0 ≤ value) :
    Within (quotientError ^ hops.length ^ 2)
      (recordRate (· / ·) quote base decimals timestamp rateCalcNear value
        (hops.map pool)).toSpotRate.rawRate
      (marginalRate hops * (value / feeless hops (rateCalcNear * yoctoPerNear))) := by
  have hnear' : (0 : ℚ) < rateCalcNear := by exact_mod_cast hnear
  have hinput : (0 : ℚ) < rateCalcNear * yoctoPerNear :=
    mul_pos hnear' (by norm_num [yoctoPerNear])
  have hquotient : 0 ≤ value / rateCalcNear := div_nonneg hvalue hnear'.le
  have hcorrection := within_correction hops 0 hinput hinput
    (Within.refl hinput.le (pow_zero quotientError).ge)
  rw [Nat.zero_add, ← pow_two] at hcorrection
  rw [toSpotRate_recordRate hops_ne hnear, ← corrected_eq hnear, ← one_mul (quotientError ^ _)]
  exact (Within.refl hquotient le_rfl).mul hcorrection zero_le_one hquotient hquotient
    (correctionWith_pos _ bigDecimalDiv_pos hops hinput).le
    (correctionWith_pos (· / ·) div_pos hops hinput).le

/-- The correction recovers the marginal rate of a path up to the fees on it and the error of its
quotients: at least what the fees leave of it, at most all of it, and all of it where there are
none. Rounding down on the way, as the estimate of a swap does, only makes it smaller. -/
theorem toSpotRate_bounds (hops : List Hop) (hops_ne : hops ≠ []) (rateCalcNear : ℤ)
    (hnear : 0 < rateCalcNear) (quote base : TokenAccount) (decimals : ℕ) (timestamp : Time) :
    let input : ℚ := rateCalcNear * yoctoPerNear
    let record := recordRate (· / ·) quote base decimals timestamp rateCalcNear
    let spot := fun value ↦ (record value (hops.map pool)).toSpotRate.rawRate
    let error := quotientError ^ hops.length ^ 2
    marginalRate hops * (hops.map fun hop ↦ 1 - hop.fee).prod ≤
        error * spot (outputs id hops input) ∧
      spot (outputs id hops input) ≤ error * marginalRate hops ∧
      ((∀ hop ∈ hops, hop.fee = 0) →
        Within error (spot (outputs id hops input)) (marginalRate hops)) ∧
      spot (outputs (fun q ↦ ⌊q⌋) hops input) ≤ error * marginalRate hops ∧
      ∀ (path : TokenPath) (amount value : U128), List.Forall₂ Quotes path hops →
        amount.toNat = input → path.calcValue amount = .ok value →
        (record value.toNat (swapPathOf path)).toSpotRate.rawRate ≤ error * marginalRate hops := by
  intro input record spot error
  have hnear' : (0 : ℚ) < rateCalcNear := by exact_mod_cast hnear
  have hinput : 0 < input := mul_pos hnear' (by norm_num [yoctoPerNear])
  have hfree := feeless_pos hops hinput
  have hmarginal := marginalRate_pos hops
  have herror : 0 ≤ error := pow_nonneg (zero_le_one.trans one_le_quotientError) _
  have hspot (value : ℚ) (hvalue : 0 ≤ value) :
      Within error (spot value) (marginalRate hops * (value / feeless hops input)) :=
    within_spotRate hops_ne hnear hvalue
  have hupper (round : ℚ → ℚ) (hround : ∀ q, 0 ≤ q → 0 ≤ round q ∧ round q ≤ q) :
      spot (outputs round hops input) ≤ error * marginalRate hops := by
    refine (hspot _ (outputs_nonneg hround hinput.le)).1.trans ?_
    gcongr
    refine mul_le_of_le_one_right hmarginal.le ((div_le_one hfree).2 ?_)
    exact outputs_le_feeless hround hinput.le le_rfl
  have hid : ∀ q : ℚ, 0 ≤ q → 0 ≤ id q ∧ id q ≤ q := fun q hq ↦ ⟨hq, le_rfl⟩
  have hfloor : ∀ q : ℚ, 0 ≤ q → (0 : ℚ) ≤ ⌊q⌋ ∧ (⌊q⌋ : ℚ) ≤ q := fun q hq ↦
    ⟨by exact_mod_cast Int.floor_nonneg.2 hq, Int.floor_le q⟩
  have hwithin := hspot (outputs id hops input) (outputs_nonneg hid hinput.le)
  refine ⟨?_, hupper _ hid, ?_, hupper _ hfloor, ?_⟩
  · have hkept := mul_feeless_le_outputs hops zero_le_one le_rfl hinput.le (one_mul input).le
    rw [one_mul] at hkept
    refine le_trans ?_ hwithin.2
    gcongr
    rwa [le_div_iff₀ hfree]
  · intro hfees
    rwa [outputs_eq_feeless hfees, div_self hfree.ne', mul_one, ← outputs_eq_feeless hfees]
      at hwithin
  · intro path amount value hquotes hamount hvalue
    rw [swapPathOf_eq hquotes, calcValue_eq_outputs hquotes hvalue, hamount]
    exact hupper _ hfloor

def throughUsdc : List Hop :=
  [⟨10 ^ 25, 5 * 10 ^ 6, 3 / 1000, by norm_num, by norm_num, by norm_num, by norm_num⟩,
    ⟨10 ^ 7, 2 * 10 ^ 7, 3 / 1000, by norm_num, by norm_num, by norm_num, by norm_num⟩]

theorem toSpotRate_bounds_throughUsdc :
    let value := outputs id throughUsdc ((1 : ℤ) * yoctoPerNear)
    let spot := (recordRate (· / ·) ⟨"wrap.near"⟩ ⟨"usdt.near"⟩ 6 0 1 value
      (throughUsdc.map pool)).toSpotRate
    994009 ≤ quotientError ^ 4 * spot.rawRate ∧
      spot.rawRate ≤ quotientError ^ 4 * 1000000 := by
  intro value spot
  have hmarginal : marginalRate throughUsdc = 1000000 := by
    norm_num [marginalRate, throughUsdc, yoctoPerNear]
  obtain ⟨hlow, hhigh, -⟩ := toSpotRate_bounds throughUsdc (List.cons_ne_nil _ _) 1 one_pos
    ⟨"wrap.near"⟩ ⟨"usdt.near"⟩ 6 0
  rw [hmarginal] at hlow hhigh
  refine ⟨le_trans ?_ hlow, hhigh⟩
  norm_num [throughUsdc]

def feeFree (amountIn : ℕ) (h : 0 < amountIn) : Hop :=
  ⟨amountIn, 7, 0, Nat.cast_pos.2 h, by norm_num, le_rfl, one_pos⟩

/-- A third is cut, and two thirds are rounded up. -/
theorem toSpotRate_off_marginal :
    let spot := fun hop : Hop ↦ (recordRate (· / ·) ⟨"wrap.near"⟩ ⟨"usdt.near"⟩ 6 0 1
      (outputs id [hop] ((1 : ℤ) * yoctoPerNear)) ([hop].map pool)).toSpotRate.rawRate
    spot (feeFree 3 (by decide)) < marginalRate [feeFree 3 (by decide)] ∧
      marginalRate [feeFree 6 (by decide)] < spot (feeFree 6 (by decide)) := by
  decide +kernel

end Spot

end Trade

end Zaciraci
