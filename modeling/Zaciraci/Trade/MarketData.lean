import Zaciraci.Portfolio.Report

namespace Zaciraci.Trade

open Lib Portfolio

section Model

structure LiquidityConfig where
  tradeMinPoolLiquidity : UInt32
  liquidityVolumeWeight : ℚ
  liquidityPoolWeight : ℚ
  liquidityErrorDefaultScore : ℚ

def LiquidityConfig.default : LiquidityConfig := ⟨100, 0.6, 0.4, 0.3⟩

def clampScore (x : ℚ) : ℚ := max 0 (min x 1)

def calculateLiquidityScore (ln : ℚ → ℚ) (volumes : List (Option BigDecimal)) : ℚ :=
  let known := volumes.filterMap id
  if known = [] then 0.5
  else
    let avgVolume := BigDecimal.div known.sum known.length
    let score := clampScore (BigDecimal.div avgVolume yoctoPerNear)
    if 0 < score then clampScore ((ln score + 10) / 20) else 0.1

/-- The score of what the exchange holds of a token, which is compared with a number of yoctoNEAR.
When none is asked for, the quotient is not a number. -/
def calculatePoolLiquidityScore (cfg : LiquidityConfig) (balance : Except String ℕ) : Option ℚ :=
  match balance with
  | .ok liquidityAmount =>
    let highLiquidityThreshold := cfg.tradeMinPoolLiquidity.toNat * yoctoPerNear
    if highLiquidityThreshold = 0 then none
    else
      let liquidityRatio : ℚ := liquidityAmount / highLiquidityThreshold
      some (clampScore (liquidityRatio / (1 + liquidityRatio)))
  | .error _ => some cfg.liquidityErrorDefaultScore

/-- What is not a number stays so. -/
def calculateEnhancedLiquidityScore (ln : ℚ → ℚ) (cfg : LiquidityConfig)
    (volumes : List (Option BigDecimal)) (balance : Except String ℕ) : Option ℚ :=
  (calculatePoolLiquidityScore cfg balance).map fun poolScore ↦
    clampScore (calculateLiquidityScore ln volumes * cfg.liquidityVolumeWeight +
      poolScore * cfg.liquidityPoolWeight)

structure MarketData where
  token : TokenAccount
  price : BigDecimal
  volatility : ℚ
  volumes : List (Option BigDecimal)
  balance : Except String ℕ
  totalSupply : Except String BigDecimal
  decimals : ℕ

def MarketData.tokenInfo (ln : ℚ → ℚ) (cfg : LiquidityConfig) (market : MarketData) :
    TokenInfo where
  symbol := market.token
  currentRate := .fromPrice market.price market.decimals
  historicalVolatility := market.volatility
  liquidityScore := calculateEnhancedLiquidityScore ln cfg market.volumes market.balance
  marketCap := some (estimateMarketCap market.totalSupply market.price market.decimals)

end Model

section Scores

variable {ln : ℚ → ℚ} {cfg : LiquidityConfig} {volumes : List (Option BigDecimal)}
  {balance : Except String ℕ} {x : ℚ}

theorem not_minLiquidityScore_le_zero : ¬ minLiquidityScore ≤ 0 := by
  norm_num [minLiquidityScore]

theorem half_le_clampScore : minLiquidityScore ≤ clampScore x ↔ minLiquidityScore ≤ x := by
  have hone : minLiquidityScore ≤ 1 := by norm_num [minLiquidityScore]
  rw [clampScore, le_max_iff, le_min_iff]
  simp [not_minLiquidityScore_le_zero, hone]

theorem clampScore_of_mem (hzero : 0 ≤ x) (hone : x ≤ 1) : clampScore x = x := by
  rw [clampScore, min_eq_left hone, max_eq_right hzero]

theorem calculateLiquidityScore_of_none (h : ∀ volume ∈ volumes, volume = none) :
    calculateLiquidityScore ln volumes = 0.5 := by
  have hnone : volumes.filterMap id = [] := List.filterMap_eq_nil_iff.2 h
  rw [calculateLiquidityScore, hnone]
  rfl

theorem threshold_pos (hmin : cfg.tradeMinPoolLiquidity ≠ 0) :
    0 < cfg.tradeMinPoolLiquidity.toNat * yoctoPerNear := by
  refine Nat.mul_pos (Nat.pos_of_ne_zero fun hzero ↦ hmin ?_) (by decide)
  exact UInt32.toNat_inj.1 hzero

theorem calculatePoolLiquidityScore_of_ok (hmin : cfg.tradeMinPoolLiquidity ≠ 0) (b : ℕ) :
    calculatePoolLiquidityScore cfg (.ok b) =
      some ((b : ℚ) / (b + cfg.tradeMinPoolLiquidity.toNat * yoctoPerNear)) := by
  set threshold := cfg.tradeMinPoolLiquidity.toNat * yoctoPerNear with hthreshold
  have hpos : 0 < threshold := threshold_pos hmin
  have hcast : (0 : ℚ) < threshold := by exact_mod_cast hpos
  have hb : (0 : ℚ) ≤ b := Nat.cast_nonneg b
  have hratio : (b : ℚ) / threshold / (1 + b / threshold) = b / (b + threshold) := by
    field_simp
    ring
  have hle : (b : ℚ) / (b + threshold) ≤ 1 := by
    rw [div_le_one (by linarith)]
    linarith
  simp only [calculatePoolLiquidityScore, ← hthreshold, if_neg hpos.ne', hratio]
  rw [clampScore_of_mem (div_nonneg hb (by linarith)) hle, hthreshold, Nat.cast_mul]

theorem liquid_iff (hvolumes : ∀ volume ∈ volumes, volume = none) :
    minLiquidityScore ≤ (calculateEnhancedLiquidityScore ln cfg volumes balance).getD 0 ↔
      match balance with
      | .ok b => cfg.tradeMinPoolLiquidity ≠ 0 ∧
        (1 - cfg.liquidityVolumeWeight) * (b + cfg.tradeMinPoolLiquidity.toNat * yoctoPerNear) ≤
          2 * cfg.liquidityPoolWeight * b
      | .error _ => 1 - cfg.liquidityVolumeWeight ≤
        2 * cfg.liquidityErrorDefaultScore * cfg.liquidityPoolWeight := by
  rw [calculateEnhancedLiquidityScore, calculateLiquidityScore_of_none hvolumes]
  cases balance with
  | error e =>
    rw [calculatePoolLiquidityScore, Option.map_some, Option.getD_some, half_le_clampScore,
      minLiquidityScore]
    constructor <;> intro h <;> linarith
  | ok b =>
    by_cases hmin : cfg.tradeMinPoolLiquidity = 0
    · have hnone : calculatePoolLiquidityScore cfg (.ok b) = none := by
        simp [calculatePoolLiquidityScore, hmin]
      rw [hnone, Option.map_none, Option.getD_none]
      exact iff_of_false not_minLiquidityScore_le_zero fun h ↦ h.1 hmin
    · have hpos : (0 : ℚ) < b + cfg.tradeMinPoolLiquidity.toNat * yoctoPerNear := by
        have hthreshold := threshold_pos hmin
        exact_mod_cast Nat.add_pos_right b hthreshold
      have hscore : (0.5 : ℚ) ≤ 0.5 * cfg.liquidityVolumeWeight +
          b / (b + cfg.tradeMinPoolLiquidity.toNat * yoctoPerNear) * cfg.liquidityPoolWeight ↔
          (1 - cfg.liquidityVolumeWeight) / 2 ≤ cfg.liquidityPoolWeight * b /
            (b + cfg.tradeMinPoolLiquidity.toNat * yoctoPerNear) := by
        rw [div_mul_eq_mul_div, mul_comm (b : ℚ)]
        constructor <;> intro h <;> linarith
      rw [calculatePoolLiquidityScore_of_ok hmin, Option.map_some, Option.getD_some,
        half_le_clampScore, minLiquidityScore, hscore, le_div_iff₀ hpos]
      dsimp only
      rw [and_iff_right (show cfg.tradeMinPoolLiquidity ≠ 0 from hmin)]
      constructor <;> intro h <;> linarith

/-- With the default weights the score is a half exactly at the threshold, and the score of an error
is too low. -/
theorem liquid_default_iff (hvolumes : ∀ volume ∈ volumes, volume = none)
    (minPoolLiquidity : UInt32) :
    let cfg := { LiquidityConfig.default with tradeMinPoolLiquidity := minPoolLiquidity }
    minLiquidityScore ≤ (calculateEnhancedLiquidityScore ln cfg volumes balance).getD 0 ↔
      minPoolLiquidity ≠ 0 ∧
        ∃ b, balance = .ok b ∧ minPoolLiquidity.toNat * yoctoPerNear ≤ b := by
  intro cfg
  refine (liquid_iff hvolumes).trans ?_
  cases balance with
  | error e =>
    refine iff_of_false ?_ ?_
    · norm_num [cfg, LiquidityConfig.default]
    · rintro ⟨-, b, hb, -⟩
      cases hb
  | ok b =>
    have hhold : (1 - cfg.liquidityVolumeWeight) *
          (b + minPoolLiquidity.toNat * yoctoPerNear) ≤ 2 * cfg.liquidityPoolWeight * b ↔
        minPoolLiquidity.toNat * yoctoPerNear ≤ b := by
      have hcast : ((minPoolLiquidity.toNat * yoctoPerNear : ℕ) : ℚ) ≤ b ↔
        minPoolLiquidity.toNat * yoctoPerNear ≤ b := Nat.cast_le
      rw [← hcast, Nat.cast_mul]
      norm_num only [cfg, LiquidityConfig.default]
      constructor <;> intro h <;> linarith
    refine and_congr_right fun _ ↦ hhold.trans ⟨fun h ↦ ⟨b, rfl, h⟩, ?_⟩
    rintro ⟨b', hb, h⟩
    cases hb
    exact h

end Scores

/-- With the weights and the score of an error that are the defaults, a token is traded exactly if
the exchange holds as many of its smallest units as there are yoctoNEAR in the liquidity that is
asked for, whatever its decimals and its price, and its market is large enough. -/
theorem mem_hardFilterTokens_iff (ln : ℚ → ℚ) (minPoolLiquidity : UInt32)
    (markets : List MarketData)
    (hvolumes : ∀ market ∈ markets, ∀ volume ∈ market.volumes, volume = none)
    (market : MarketData) (hmarket : market ∈ markets) :
    let cfg := { LiquidityConfig.default with tradeMinPoolLiquidity := minPoolLiquidity }
    market.tokenInfo ln cfg ∈ hardFilterTokens (markets.map (MarketData.tokenInfo ln cfg)) ↔
      (minPoolLiquidity ≠ 0 ∧
        ∃ b, market.balance = .ok b ∧ minPoolLiquidity.toNat * yoctoPerNear ≤ b) ∧
      minMarketCap ≤ estimateMarketCap market.totalSupply market.price market.decimals := by
  intro cfg
  have hliquid : minLiquidityScore ≤ (market.tokenInfo ln cfg).liquidityScore.getD 0 ↔
      minPoolLiquidity ≠ 0 ∧
        ∃ b, market.balance = .ok b ∧ minPoolLiquidity.toNat * yoctoPerNear ≤ b :=
    liquid_default_iff (hvolumes market hmarket) minPoolLiquidity
  rw [hardFilterTokens, List.mem_filter, and_iff_right (List.mem_map_of_mem hmarket),
    Bool.and_eq_true, decide_eq_true_eq, hliquid]
  refine and_congr_right fun _ ↦ ?_
  exact decide_eq_true_iff

def stablecoin : MarketData :=
  ⟨⟨"usdt"⟩, 1 / 3, 1 / 10, [none, none], .ok (10 ^ 15), .ok (10 ^ 17), 6⟩

theorem mem_hardFilterTokens_iff_stablecoin :
    stablecoin.tokenInfo id .default ∉
      hardFilterTokens ([stablecoin].map (MarketData.tokenInfo id .default)) := by
  intro hmem
  obtain ⟨⟨-, b, hb, hle⟩, -⟩ := (mem_hardFilterTokens_iff id 100 [stablecoin]
    (by simp [stablecoin]) stablecoin List.mem_cons_self).1 hmem
  cases hb
  exact absurd hle (by decide)

end Zaciraci.Trade
