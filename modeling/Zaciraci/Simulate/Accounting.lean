import Zaciraci.Simulate.PortfolioState

namespace Zaciraci.Simulate

open Lib

theorem trunc_intCast (n : ℤ) : BigDecimal.trunc n = n := by
  rw [BigDecimal.trunc]
  split_ifs
  · rw [← Int.cast_neg, Int.floor_intCast, neg_neg]
  · exact Int.floor_intCast n

theorem toU128OrWarn_natCast {n : ℕ} (h : n < 2 ^ 128) : toU128OrWarn n = n := by
  have hlt : (n : ℚ) < u128Bound := Nat.cast_lt.2 h
  have hunits := BigDecimal.toU128_of_lt (Nat.cast_nonneg n) hlt
  rw [toU128OrWarn, hunits, Option.getD_some, Nat.floor_natCast]

theorem toU128OrWarn_le {q : ℚ} (h : toU128OrWarn q ≠ 0) : (toU128OrWarn q : ℚ) ≤ q := by
  rw [toU128OrWarn] at h ⊢
  cases hunits : BigDecimal.toU128 q with
  | none =>
    rw [hunits] at h
    exact absurd rfl h
  | some n =>
    exact BigDecimal.toU128_le hunits

theorem toU128OrWarn_lt (q : ℚ) : toU128OrWarn q < 2 ^ 128 := by
  rw [toU128OrWarn, BigDecimal.toU128]
  split_ifs with hbound
  · rw [u128Bound] at hbound
    rw [Option.getD_some]
    omega
  · norm_num

theorem toI128OrWarn_intCast {n : ℤ} (h : -2 ^ 127 ≤ n ∧ n < 2 ^ 127) : toI128OrWarn n = n := by
  rw [toI128OrWarn, trunc_intCast]
  exact if_pos h

theorem checkedAddOrSaturate_of_fits {a b : ℤ} (h : -2 ^ 127 ≤ a + b ∧ a + b < 2 ^ 127) :
    checkedAddOrSaturate a b = a + b := by
  rw [checkedAddOrSaturate]
  omega

namespace PortfolioState

def exactPnl (state : PortfolioState) (token : TokenAccount) (sellAmount : ℕ)
    (sellProceeds : BigDecimal) : ℤ :=
  ⌊sellProceeds - state.averageCostOfSold token sellAmount (state.unitsOf token + sellAmount)⌋

def InI128 (n : ℤ) : Prop := -2 ^ 127 ≤ n ∧ n < 2 ^ 127

instance (n : ℤ) : Decidable (InI128 n) := inferInstanceAs (Decidable (_ ∧ _))

/-- The profit of a sale and the sums it is added to are `i128`. -/
structure SaleFits (state : PortfolioState) (token : TokenAccount) (sellAmount : ℕ)
    (sellProceeds : BigDecimal) : Prop where
  pnl : InI128 (state.exactPnl token sellAmount sellProceeds)
  realized : InI128 (state.realizedPnl + state.exactPnl token sellAmount sellProceeds)
  byToken : InI128 ((state.realizedPnlByToken.get token).getD 0 +
    state.exactPnl token sellAmount sellProceeds)

instance {state : PortfolioState} {token : TokenAccount} {sellAmount : ℕ}
    {sellProceeds : BigDecimal} : Decidable (state.SaleFits token sellAmount sellProceeds) :=
  decidable_of_iff (_ ∧ _ ∧ _) ⟨fun h ↦ ⟨h.1, h.2.1, h.2.2⟩, fun h ↦ ⟨h.1, h.2, h.3⟩⟩

structure InRange (state : PortfolioState) : Prop where
  costBasis : ∀ token basis, state.costBasis.get token = some basis → basis < 2 ^ 127
  holdings : ∀ token amount, state.holdings.get token = some amount →
    amount.smallestUnits < 2 ^ 128

theorem inRange_iff {state : PortfolioState} :
    (∀ e ∈ state.costBasis.entries, e.2 < 2 ^ 127) ∧
        (∀ e ∈ state.holdings.entries, e.2.smallestUnits < 2 ^ 128) ↔ state.InRange := by
  constructor
  · rintro ⟨hbasis, hholdings⟩
    exact ⟨fun token basis h ↦ hbasis _ (SortedMap.get_eq_some.1 h),
      fun token amount h ↦ hholdings _ (SortedMap.get_eq_some.1 h)⟩
  · intro h
    exact ⟨fun e he ↦ h.costBasis e.1 e.2 (SortedMap.get_eq_some.2 he),
      fun e he ↦ h.holdings e.1 e.2 (SortedMap.get_eq_some.2 he)⟩

instance (state : PortfolioState) : Decidable state.InRange := decidable_of_iff _ inRange_iff

structure Positions (state : PortfolioState) : Prop where
  holdings : ∀ token amount, state.holdings.get token = some amount →
    ∃ n : ℕ, 0 < n ∧ amount.smallestUnits = n
  costBasis : ∀ token basis, state.costBasis.get token = some basis →
    (∃ n : ℕ, basis = n) ∧ token ∈ state.holdings.keys

structure Balanced (C : ℤ) (state : PortfolioState) : Prop where
  cash : 0 ≤ C → 0 ≤ state.cashBalance
  positions : state.Positions
  total : state.cashBalance + state.costBasis.total = C + state.realizedPnl
  byToken : state.realizedPnlByToken.total = state.realizedPnl

theorem balanced_new (C : ℤ) : (new C).Balanced C := by
  refine ⟨fun h ↦ by simpa [new] using h, ⟨?_, ?_⟩, by simp [new, SortedMap.total_empty], rfl⟩
  · intro token amount h
    cases h
  · intro token basis h
    cases h

variable {C : ℤ} {state : PortfolioState} {token : TokenAccount}

theorem exists_averageCost
    (hbasis : ∀ b, state.costBasis.get token = some b → ∃ n : ℕ, b = n ∧ n < 2 ^ 127)
    {sell holding : ℕ} (hsell : 0 < sell) (hle : sell ≤ holding) (hholding : holding < 2 ^ 128) :
    ∃ c : ℕ, state.averageCostOfSold token sell holding = c ∧
      (c : ℚ) ≤ (state.costBasis.get token).getD 0 ∧
      (sell = holding → (c : ℚ) = (state.costBasis.get token).getD 0) := by
  obtain ⟨n, hn, hlt⟩ : ∃ n : ℕ, (state.costBasis.get token).getD 0 = n ∧ n < 2 ^ 127 := by
    cases hget : state.costBasis.get token with
    | none => exact ⟨0, by simp, by norm_num⟩
    | some b => simpa [hget] using hbasis b hget
  rw [averageCostOfSold, hn]
  split_ifs with hzero hall
  · have hn0 : n = 0 := by simpa [hsell.ne'] using hzero
    exact ⟨0, by simp, by simp [hn0], by simp [hn0]⟩
  · exact ⟨n, rfl, le_rfl, fun _ ↦ rfl⟩
  · have hpos : 0 < holding := by omega
    have hdiv : BigDecimal.div ((n : ℚ) * sell) holding = decimalDiv (n * sell) holding := by
      rw [BigDecimal.div, if_neg, decimalDiv]
      · push_cast
        rfl
      · rw [not_lt]
        positivity
    have hfloor : ⌊BigDecimal.div ((n : ℚ) * sell) holding⌋ = (n * sell / holding : ℕ) := by
      rw [hdiv]
      have hcost : n * sell < 10 ^ 39 * holding := by
        calc n * sell ≤ n * holding := Nat.mul_le_mul_left n hle
          _ < 10 ^ 39 * holding := Nat.mul_lt_mul_of_pos_right (by omega) hpos
      exact floor_decimalDiv hpos (hholding.le.trans (by norm_num : _ ≤ 10 ^ 39)) hcost
        (by norm_num)
    refine ⟨n * sell / holding, by rw [hfloor]; rfl, ?_, fun h ↦ absurd h hall⟩
    exact_mod_cast Nat.div_le_of_le_mul (by nlinarith)
  · omega

/-- A sale that leaves the books in order: the cost is a whole number within the basis, and all
of the basis if nothing is left. -/
structure FairCost (state : PortfolioState) (token : TokenAccount) (sellAmount cost : ℕ) :
    Prop where
  eq : state.averageCostOfSold token sellAmount (state.unitsOf token + sellAmount) = cost
  le : (cost : ℚ) ≤ (state.costBasis.get token).getD 0
  closed : state.isClosed token = true → (cost : ℚ) = (state.costBasis.get token).getD 0

section Sale

variable {sellAmount cost : ℕ} {proceeds : ℕ}

theorem FairCost.exactPnl (h : state.FairCost token sellAmount cost) (proceeds : ℕ) :
    state.exactPnl token sellAmount proceeds = proceeds - cost := by
  rw [PortfolioState.exactPnl, h.eq]
  exact_mod_cast Int.floor_intCast (R := ℚ) (proceeds - cost)

theorem FairCost.total (h : state.FairCost token sellAmount cost) :
    (state.recordSellPnl token sellAmount proceeds).costBasis.total =
      state.costBasis.total - cost := by
  have hle := h.le
  have hclosed := h.closed
  simp only [recordSellPnl, h.eq]
  cases hget : state.costBasis.get token with
  | none =>
    have hzero : (cost : ℚ) = 0 := by
      rw [hget] at hle
      exact le_antisymm hle (Nat.cast_nonneg cost)
    dsimp only
    split_ifs
    · rw [SortedMap.total_erase, hget, hzero, Option.getD_none]
    · rw [hzero, sub_zero]
  | some basis =>
    rw [hget, Option.getD_some] at hle hclosed
    have hmax : max (basis - cost) 0 = basis - cost := max_eq_left (by linarith)
    dsimp only
    split_ifs with hc
    · rw [SortedMap.total_erase, SortedMap.get_insert_self, SortedMap.total_insert, hget, hmax,
        Option.getD_some, Option.getD_some, hclosed hc]
      ring
    · rw [SortedMap.total_insert, hget, hmax, Option.getD_some]
      ring

theorem FairCost.get (h : state.FairCost token sellAmount cost) (proceeds : ℕ)
    {t : TokenAccount} {basis : ℚ}
    (hget : (state.recordSellPnl token sellAmount proceeds).costBasis.get t = some basis) :
    (t ≠ token ∧ state.costBasis.get t = some basis) ∨
      (t = token ∧ state.isClosed token = false ∧
        ∃ b, state.costBasis.get token = some b ∧ basis = b - cost) := by
  have hle := h.le
  by_cases ht : t = token
  · subst ht
    simp only [recordSellPnl, h.eq] at hget
    split_ifs at hget with hc
    · rw [SortedMap.get_erase_self] at hget
      cases hget
    · cases hb : state.costBasis.get t with
      | none => simp [hb] at hget
      | some b =>
        rw [hb, Option.getD_some] at hle
        simp only [hb, SortedMap.get_insert_self, Option.some.injEq] at hget
        refine .inr ⟨rfl, by simpa using hc, b, rfl, ?_⟩
        rw [← hget, max_eq_left (by linarith)]
  · refine .inl ⟨ht, ?_⟩
    simp only [recordSellPnl] at hget
    have hupdate : ∀ v, (state.costBasis.insert token v).get t = state.costBasis.get t :=
      fun v ↦ SortedMap.get_insert_of_ne ht
    split_ifs at hget
    · rw [SortedMap.get_erase_of_ne ht] at hget
      cases hb : state.costBasis.get token <;> simpa [hb, hupdate] using hget
    · cases hb : state.costBasis.get token <;> simpa [hb, hupdate] using hget

theorem FairCost.realizedPnl (h : state.FairCost token sellAmount cost)
    (hfits : state.SaleFits token sellAmount proceeds) :
    (state.recordSellPnl token sellAmount proceeds).realizedPnl =
      state.realizedPnl + (proceeds - cost) := by
  have hpnl := h.exactPnl proceeds
  have hsum := hfits.realized
  have hconv := toI128OrWarn_intCast hfits.pnl
  rw [hpnl] at hsum
  simp only [recordSellPnl]
  rw [← PortfolioState.exactPnl, hconv, hpnl, checkedAddOrSaturate_of_fits hsum]

theorem FairCost.byToken (h : state.FairCost token sellAmount cost)
    (hfits : state.SaleFits token sellAmount proceeds) :
    (state.recordSellPnl token sellAmount proceeds).realizedPnlByToken.total =
      state.realizedPnlByToken.total + (proceeds - cost) := by
  have hpnl := h.exactPnl proceeds
  have hsum := hfits.byToken
  have hconv := toI128OrWarn_intCast hfits.pnl
  rw [hpnl] at hsum
  simp only [recordSellPnl]
  rw [← PortfolioState.exactPnl, hconv, hpnl, checkedAddOrSaturate_of_fits hsum,
    SortedMap.total_insert]
  ring

theorem FairCost.balance (h : state.FairCost token sellAmount cost)
    (hfits : state.SaleFits token sellAmount proceeds)
    (htotal : state.cashBalance + state.costBasis.total = C + state.realizedPnl) :
    state.cashBalance + proceeds + (state.recordSellPnl token sellAmount proceeds).costBasis.total =
      C + (state.recordSellPnl token sellAmount proceeds).realizedPnl := by
  rw [h.total, h.realizedPnl hfits]
  push_cast
  linarith

theorem FairCost.byToken_eq (h : state.FairCost token sellAmount cost)
    (hfits : state.SaleFits token sellAmount proceeds)
    (hpnl : state.realizedPnlByToken.total = state.realizedPnl) :
    (state.recordSellPnl token sellAmount proceeds).realizedPnlByToken.total =
      (state.recordSellPnl token sellAmount proceeds).realizedPnl := by
  rw [h.byToken hfits, h.realizedPnl hfits, hpnl]

end Sale

theorem Positions.basis (h : state.Positions) (hrange : state.InRange) (b : ℚ)
    (hb : state.costBasis.get token = some b) : ∃ n : ℕ, b = n ∧ n < 2 ^ 127 := by
  obtain ⟨n, rfl⟩ := (h.costBasis token b hb).1
  exact ⟨n, rfl, by exact_mod_cast hrange.costBasis token n hb⟩

theorem unitsOf_lt (state : PortfolioState) (token : TokenAccount) :
    state.unitsOf token < 2 ^ 128 := by
  rw [unitsOf]
  split
  · exact toU128OrWarn_lt _
  · norm_num

theorem Positions.units (h : state.Positions) (hrange : state.InRange) {amount : TokenAmount}
    (hget : state.holdings.get token = some amount) :
    0 < state.unitsOf token ∧ state.unitsOf token < 2 ^ 128 ∧
      amount.smallestUnits = state.unitsOf token := by
  obtain ⟨n, hpos, hn⟩ := h.holdings token amount hget
  have hlt : n < 2 ^ 128 := by
    have hamount := hrange.holdings token amount hget
    rw [hn] at hamount
    exact_mod_cast hamount
  have hunits : state.unitsOf token = n := by
    rw [unitsOf, hget]
    dsimp only
    rw [hn, toU128OrWarn_natCast hlt]
  rw [hunits]
  exact ⟨hpos, hlt, hn⟩

section Liquidation

variable {rates : TokenAccount → Option ExchangeRate} {position : TokenAccount × TokenAmount}

def LiquidationFits (rates : TokenAccount → Option ExchangeRate) :
    PortfolioState → List (TokenAccount × TokenAmount) → Prop
  | _, [] => True
  | state, position :: positions =>
    (tokenAmountToYocto rates position.1 position.2 ≠ 0 →
      SaleFits { state with holdings := state.holdings.erase position.1 } position.1
        (toU128OrWarn position.2.smallestUnits)
        (tokenAmountToYocto rates position.1 position.2)) ∧
    LiquidationFits rates (state.liquidateToken rates position) positions

instance decidableLiquidationFits :
    ∀ (state : PortfolioState) (positions : List (TokenAccount × TokenAmount)),
      Decidable (LiquidationFits rates state positions)
  | _, [] => inferInstanceAs (Decidable True)
  | state, position :: positions =>
    have := decidableLiquidationFits (state.liquidateToken rates position) positions
    inferInstanceAs (Decidable ((_ → _) ∧ _))

theorem liquidateToken_balanced (h : state.Balanced C) (hrange : state.InRange) {n : ℕ}
    (hn : 0 < n) (hlt : n < 2 ^ 128) (hamount : position.2.smallestUnits = n)
    (hfits : tokenAmountToYocto rates position.1 position.2 ≠ 0 →
      SaleFits { state with holdings := state.holdings.erase position.1 } position.1
        (toU128OrWarn position.2.smallestUnits) (tokenAmountToYocto rates position.1 position.2)) :
    (state.liquidateToken rates position).Balanced C ∧
      (state.liquidateToken rates position).InRange := by
  obtain ⟨token, amount⟩ := position
  dsimp only at hamount hfits
  rw [hamount, toU128OrWarn_natCast hlt] at hfits
  rw [liquidateToken]
  dsimp only
  rw [hamount, toU128OrWarn_natCast hlt]
  split_ifs with hzero
  · exact ⟨h, hrange⟩
  replace hfits := hfits hzero
  set removed : PortfolioState := { state with holdings := state.holdings.erase token }
  have hget : removed.holdings.get token = none := SortedMap.get_erase_self _ _
  have hunits : removed.unitsOf token = 0 := by simp [unitsOf, hget]
  have hclosed : removed.isClosed token = true := by simp [isClosed, hget]
  have hwhole : ∀ b, removed.costBasis.get token = some b → ∃ n : ℕ, b = n ∧ n < 2 ^ 127 :=
    h.positions.basis hrange
  obtain ⟨cost, heq, hle, hall⟩ := exists_averageCost hwhole hn le_rfl hlt
  have hfair : removed.FairCost token n cost :=
    ⟨by rw [hunits, zero_add, heq], hle, fun _ ↦ hall rfl⟩
  -- the position is closed, so what is left of the cost basis belongs to other tokens
  have hbasis : ∀ t b, (removed.recordSellPnl token n
      (tokenAmountToYocto rates token amount)).costBasis.get t = some b →
      t ≠ token ∧ state.costBasis.get t = some b := by
    intro t b ht
    obtain hother | ⟨-, hopen, -⟩ := hfair.get _ ht
    · exact hother
    · rw [hclosed] at hopen
      cases hopen
  have hheld : ∀ t a, removed.holdings.get t = some a → state.holdings.get t = some a := by
    intro t a ht
    by_cases hne : t = token
    · rw [hne, hget] at ht
      cases ht
    · exact (SortedMap.get_erase_of_ne hne).symm.trans ht
  refine ⟨⟨?_, ⟨?_, ?_⟩, hfair.balance hfits h.total, hfair.byToken_eq hfits h.byToken⟩, ?_, ?_⟩
  · intro hC
    exact add_nonneg (h.cash hC) (Nat.cast_nonneg _)
  · exact fun t a ht ↦ h.positions.holdings t a (hheld t a ht)
  · intro t b ht
    obtain ⟨hne, hb⟩ := hbasis t b ht
    obtain ⟨hwhole, hkey⟩ := h.positions.costBasis t b hb
    exact ⟨hwhole, SortedMap.mem_keys_erase.mpr ⟨hne, hkey⟩⟩
  · exact fun t b ht ↦ hrange.costBasis t b (hbasis t b ht).2
  · exact fun t a ht ↦ hrange.holdings t a (hheld t a ht)

theorem liquidate_balanced (h : state.Balanced C) (hrange : state.InRange)
    {positions : List (TokenAccount × TokenAmount)}
    (hpositions : ∀ p ∈ positions, ∃ n : ℕ, 0 < n ∧ n < 2 ^ 128 ∧ p.2.smallestUnits = n)
    (hfits : LiquidationFits rates state positions) :
    (positions.foldl (liquidateToken rates) state).Balanced C := by
  induction positions generalizing state with
  | nil => exact h
  | cons position positions ih =>
    obtain ⟨n, hn, hlt, hamount⟩ := hpositions position List.mem_cons_self
    obtain ⟨hbalanced, hinRange⟩ := liquidateToken_balanced h hrange hn hlt hamount hfits.1
    refine ih hbalanced hinRange (fun p hp ↦ hpositions p (List.mem_cons_of_mem _ hp)) hfits.2

theorem liquidateAll_balanced (h : state.Balanced C) (hrange : state.InRange)
    (hfits : LiquidationFits rates state
      (state.holdings.entries.filter fun position ↦ !position.2.isZero)) :
    (state.liquidateAll rates).Balanced C := by
  apply liquidate_balanced h hrange _ hfits
  intro p hp
  have hget := SortedMap.get_eq_some.mpr (List.mem_of_mem_filter hp)
  obtain ⟨hpos, hlt, hunits⟩ := h.positions.units hrange hget
  exact ⟨_, hpos, hlt, hunits⟩

end Liquidation

section Swap

variable {n : ℕ} {amount : TokenAmount}

theorem deductHolding_of_get (hget : state.holdings.get token = some amount)
    (hunits : amount.smallestUnits = state.unitsOf token) (hle : n ≤ state.unitsOf token) :
    let left : TokenAmount := ⟨(state.unitsOf token - n : ℕ), amount.decimals⟩
    state.deductHolding token n =
      { state with holdings := state.holdings.insert token left } := by
  have hcast : ((state.unitsOf token - n : ℕ) : ℚ) = state.unitsOf token - n := Nat.cast_sub hle
  have hnonneg : (0 : ℚ) ≤ state.unitsOf token - n := by
    rw [← hcast]
    exact Nat.cast_nonneg _
  rw [deductHolding, hget]
  dsimp only
  rw [hunits, max_eq_left hnonneg, hcast]

structure Deducted (state sold : PortfolioState) (token : TokenAccount) (n : ℕ) : Prop where
  cash : sold.cashBalance = state.cashBalance
  costBasis : sold.costBasis = state.costBasis
  realizedPnl : sold.realizedPnl = state.realizedPnl
  byToken : sold.realizedPnlByToken = state.realizedPnlByToken
  units : sold.unitsOf token = state.unitsOf token - n
  left : ∃ decimals,
    sold.holdings.get token = some ⟨(state.unitsOf token - n : ℕ), decimals⟩
  other : ∀ t, t ≠ token → sold.holdings.get t = state.holdings.get t

theorem deducted_deductHolding (h : state.Positions) (hrange : state.InRange) (hn : 0 < n)
    (hle : n ≤ state.unitsOf token) : Deducted state (state.deductHolding token n) token n := by
  obtain ⟨amount, hget⟩ : ∃ amount, state.holdings.get token = some amount := by
    cases hget : state.holdings.get token with
    | none =>
      have hzero : state.unitsOf token = 0 := by simp [unitsOf, hget]
      omega
    | some amount => exact ⟨amount, rfl⟩
  obtain ⟨hpos, hlt, hunits⟩ := h.units hrange hget
  have hdeduct := deductHolding_of_get hget hunits hle
  dsimp only at hdeduct
  have hleft : (state.deductHolding token n).holdings.get token =
      some ⟨(state.unitsOf token - n : ℕ), amount.decimals⟩ := by
    rw [hdeduct]
    exact SortedMap.get_insert_self _ _ _
  refine ⟨by rw [hdeduct], by rw [hdeduct], by rw [hdeduct], by rw [hdeduct], ?_,
    ⟨_, hleft⟩, ?_⟩
  · rw [unitsOf, hleft]
    exact toU128OrWarn_natCast (by omega)
  · intro t ht
    rw [hdeduct]
    exact SortedMap.get_insert_of_ne ht

theorem removeIfClosed_books (state : PortfolioState) (token : TokenAccount) :
    (state.removeIfClosed token).cashBalance = state.cashBalance ∧
      (state.removeIfClosed token).costBasis = state.costBasis ∧
      (state.removeIfClosed token).realizedPnl = state.realizedPnl ∧
      (state.removeIfClosed token).realizedPnlByToken = state.realizedPnlByToken := by
  rw [removeIfClosed]
  split_ifs <;> simp

variable {sold : PortfolioState}

theorem Deducted.isClosed (h : Deducted state sold token n) (hle : n ≤ state.unitsOf token) :
    sold.isClosed token = true ↔ n = state.unitsOf token := by
  obtain ⟨decimals, hleft⟩ := h.left
  rw [PortfolioState.isClosed, hleft]
  simp only [TokenAmount.isZero, decide_eq_true_eq, Nat.cast_eq_zero]
  omega

theorem Deducted.exists_fairCost (h : Deducted state sold token n) (hpos : state.Positions)
    (hrange : state.InRange) (hn : 0 < n) (hle : n ≤ state.unitsOf token) :
    ∃ cost, sold.FairCost token n cost ∧
      state.averageCostOfSold token n (state.unitsOf token) = cost := by
  have hlt := unitsOf_lt state token
  obtain ⟨cost, heq, hcost, hall⟩ := exists_averageCost (hpos.basis hrange) hn hle hlt
  refine ⟨cost, ⟨?_, ?_, ?_⟩, heq⟩
  · rw [h.units, Nat.sub_add_cancel hle, averageCostOfSold, h.costBasis]
    exact heq
  · rwa [h.costBasis]
  · rw [h.costBasis]
    exact fun hc ↦ hall ((h.isClosed hle).mp hc)

theorem removeIfClosed_positions (h : Deducted state sold token n) (hpos : state.Positions)
    (hle : n ≤ state.unitsOf token) {cost : ℕ} (hfair : sold.FairCost token n cost) (proceeds : ℕ) :
    ((sold.recordSellPnl token n proceeds).removeIfClosed token).Positions := by
  have hother : ∀ t a, t ≠ token → sold.holdings.get t = some a →
      ∃ n : ℕ, 0 < n ∧ a.smallestUnits = n := by
    intro t a ht hget
    rw [h.other t ht] at hget
    exact hpos.holdings t a hget
  have hkey : ∀ t b, t ≠ token → state.costBasis.get t = some b →
      (∃ n : ℕ, b = n) ∧ t ∈ sold.holdings.keys := by
    intro t b ht hb
    obtain ⟨hwhole, hmem⟩ := hpos.costBasis t b hb
    rw [← SortedMap.get_isSome, ← h.other t ht, SortedMap.get_isSome] at hmem
    exact ⟨hwhole, hmem⟩
  obtain ⟨decimals, hleft⟩ := h.left
  have hclosed := h.isClosed hle
  change (if sold.isClosed token then _ else _ : PortfolioState).Positions
  split_ifs with hc
  · refine ⟨?_, ?_⟩
    · intro t a hget
      by_cases ht : t = token
      · rw [ht] at hget
        simp [SortedMap.get_erase_self] at hget
      · exact hother t a ht ((SortedMap.get_erase_of_ne ht).symm.trans hget)
    · intro t b hb
      obtain ⟨ht, hb⟩ | ⟨-, hopen, -⟩ := hfair.get proceeds hb
      · rw [h.costBasis] at hb
        obtain ⟨hwhole, hmem⟩ := hkey t b ht hb
        exact ⟨hwhole, SortedMap.mem_keys_erase.mpr ⟨ht, hmem⟩⟩
      · rw [hc] at hopen
        cases hopen
  · refine ⟨?_, ?_⟩
    · intro t a hget
      by_cases ht : t = token
      · rw [ht] at hget
        obtain rfl : ⟨(state.unitsOf token - n : ℕ), decimals⟩ = a :=
          Option.some.inj (hleft.symm.trans hget)
        have hne : n ≠ state.unitsOf token := fun heq ↦ hc (hclosed.mpr heq)
        exact ⟨state.unitsOf token - n, by omega, rfl⟩
      · exact hother t a ht hget
    · intro t b hb
      obtain ⟨ht, hb⟩ | ⟨rfl, -, b', hb', rfl⟩ := hfair.get proceeds hb
      · rw [h.costBasis] at hb
        exact hkey t b ht hb
      · have hle' := hfair.le
        rw [hb', Option.getD_some] at hle'
        rw [h.costBasis] at hb'
        obtain ⟨⟨m, rfl⟩, -⟩ := hpos.costBasis t b' hb'
        refine ⟨⟨m - cost, ?_⟩, SortedMap.mem_keys_of_get hleft⟩
        rw [Nat.cast_sub (by exact_mod_cast hle')]

theorem addHolding_positions (h : state.Positions) (hn : 0 < n) (decimals : ℕ) :
    (state.addHolding token n decimals).Positions := by
  refine ⟨?_, ?_⟩
  · intro t a hget
    by_cases ht : t = token
    · subst ht
      simp only [addHolding, SortedMap.get_insert_self, Option.some.injEq] at hget
      subst hget
      cases hentry : state.holdings.get t with
      | none => exact ⟨n, hn, by simp⟩
      | some entry =>
        obtain ⟨m, -, hm⟩ := h.holdings t entry hentry
        exact ⟨m + n, by omega, by simp [hm]⟩
    · exact h.holdings t a ((SortedMap.get_insert_of_ne ht).symm.trans hget)
  · intro t b hb
    obtain ⟨hwhole, hmem⟩ := h.costBasis t b hb
    exact ⟨hwhole, SortedMap.mem_keys_insert.mpr (.inr hmem)⟩

theorem addToCostBasis_positions (h : state.Positions) (hkey : token ∈ state.holdings.keys)
    (cost : ℕ) : (state.addToCostBasis token cost).Positions := by
  refine ⟨h.holdings, ?_⟩
  intro t b hb
  by_cases ht : t = token
  · subst ht
    simp only [addToCostBasis, SortedMap.get_insert_self, Option.some.injEq] at hb
    subst hb
    refine ⟨?_, hkey⟩
    cases hbasis : state.costBasis.get t with
    | none => exact ⟨cost, by simp⟩
    | some basis =>
      obtain ⟨⟨m, rfl⟩, -⟩ := h.costBasis t basis hbasis
      exact ⟨m + cost, by simp⟩
  · exact h.costBasis t b ((SortedMap.get_insert_of_ne ht).symm.trans hb)

theorem total_addToCostBasis (state : PortfolioState) (token : TokenAccount) (amount : ℚ) :
    (state.addToCostBasis token amount).costBasis.total = state.costBasis.total + amount := by
  rw [addToCostBasis, SortedMap.total_insert]
  ring

/-- The profit that a swap books is an `i128`, and so are the sums it is added to. -/
def SwapFits (wnear : TokenAccount) (state : PortfolioState) (fromToken : TokenAccount)
    (fromAmount : ℕ) (toToken : TokenAccount) (toAmount : ℕ) : Prop :=
  let fromBalance := state.balanceOf wnear fromToken
  let actualFrom := min fromAmount fromBalance
  let actualTo := scaleOutput toAmount actualFrom fromAmount
  fromToken ≠ wnear → actualFrom ≠ 0 → actualTo ≠ 0 →
    (state.deductHolding fromToken actualFrom).SaleFits fromToken actualFrom
      (if toToken = wnear then actualTo
        else state.averageCostOfSold fromToken actualFrom fromBalance)

variable {wnear fromToken toToken : TokenAccount} {result : SwapResult} {after : PortfolioState}
  {fromAmount toAmount toDecimals : ℕ}

theorem mem_keys_addHolding (state : PortfolioState) (token : TokenAccount) (units decimals : ℕ) :
    token ∈ (state.addHolding token units decimals).holdings.keys :=
  SortedMap.mem_keys_insert.mpr (.inl rfl)

theorem buy_balanced (h : state.Balanced C) {spent bought : ℕ} (hspent : spent ≠ 0)
    (hle : spent ≤ toU128OrWarn state.cashBalance) (hbought : bought ≠ 0) (decimals : ℕ) :
    let paid := { state with cashBalance := max (state.cashBalance - spent) 0 }
    ((paid.addHolding token bought decimals).addToCostBasis token spent).Balanced C := by
  intro paid
  have hcash : (spent : ℚ) ≤ state.cashBalance :=
    (Nat.cast_le.mpr hle).trans (toU128OrWarn_le (by omega))
  have hpaid : paid.cashBalance = state.cashBalance - spent := max_eq_left (by linarith)
  have hpositions : paid.Positions := ⟨h.positions.holdings, h.positions.costBasis⟩
  refine ⟨fun _ ↦ ?_, ?_, ?_, h.byToken⟩
  · exact le_max_right _ _
  · apply addToCostBasis_positions _ (mem_keys_addHolding _ _ _ _)
    exact addHolding_positions hpositions (by omega) decimals
  · rw [total_addToCostBasis]
    have htotal := h.total
    change paid.cashBalance + (state.costBasis.total + spent) = C + state.realizedPnl
    linarith

/-- The state after the source side of a swap, which has moved `cost` out of the basis and
booked the rest of the proceeds. -/
structure Sold (state sold : PortfolioState) (proceeds cost : ℕ) : Prop where
  positions : sold.Positions
  cash : sold.cashBalance = state.cashBalance
  costBasis : sold.costBasis.total = state.costBasis.total - cost
  realizedPnl : sold.realizedPnl = state.realizedPnl + (proceeds - cost)
  byToken : sold.realizedPnlByToken.total = state.realizedPnlByToken.total + (proceeds - cost)

theorem sold_of_fits (h : state.Positions) (hrange : state.InRange) (hn : n ≠ 0)
    (hle : n ≤ state.unitsOf token) {proceeds cost : ℕ}
    (hcost : state.averageCostOfSold token n (state.unitsOf token) = cost)
    (hfits : (state.deductHolding token n).SaleFits token n proceeds) :
    state.Sold (((state.deductHolding token n).recordSellPnl token n proceeds).removeIfClosed
      token) proceeds cost := by
  have hdeducted := deducted_deductHolding h hrange (by omega) hle
  obtain ⟨cost', hfair, hcost'⟩ := hdeducted.exists_fairCost h hrange (by omega) hle
  obtain rfl : cost' = cost := by
    rw [hcost] at hcost'
    exact_mod_cast hcost'.symm
  have hpositions := removeIfClosed_positions hdeducted h hle hfair proceeds
  have hbooks := removeIfClosed_books
    ((state.deductHolding token n).recordSellPnl token n proceeds) token
  refine ⟨hpositions, ?_, ?_, ?_, ?_⟩
  · rw [hbooks.1]
    exact hdeducted.cash
  · rw [hbooks.2.1, hfair.total, hdeducted.costBasis]
  · rw [hbooks.2.2.1, hfair.realizedPnl hfits, hdeducted.realizedPnl]
  · rw [hbooks.2.2.2, hfair.byToken hfits, hdeducted.byToken]

theorem exists_cost (h : state.Positions) (hrange : state.InRange) (hn : n ≠ 0)
    (hle : n ≤ state.unitsOf token) :
    ∃ cost : ℕ, state.averageCostOfSold token n (state.unitsOf token) = cost := by
  obtain ⟨cost, hcost, -⟩ :=
    exists_averageCost (h.basis hrange) (by omega) hle (unitsOf_lt state token)
  exact ⟨cost, hcost⟩

theorem Sold.toCash {proceeds cost : ℕ} (hsold : state.Sold sold proceeds cost)
    (h : state.Balanced C) :
    ({ sold with cashBalance := sold.cashBalance + proceeds } : PortfolioState).Balanced C := by
  have htotal := h.total
  refine ⟨fun hC ↦ ?_, ⟨hsold.positions.holdings, hsold.positions.costBasis⟩, ?_, ?_⟩
  · change 0 ≤ sold.cashBalance + proceeds
    rw [hsold.cash]
    exact add_nonneg (h.cash hC) (Nat.cast_nonneg _)
  · change sold.cashBalance + proceeds + sold.costBasis.total = C + sold.realizedPnl
    rw [hsold.cash, hsold.costBasis, hsold.realizedPnl]
    push_cast
    linarith
  · change sold.realizedPnlByToken.total = sold.realizedPnl
    rw [hsold.byToken, hsold.realizedPnl, h.byToken]

theorem Sold.toHolding {cost : ℕ} (hsold : state.Sold sold cost cost) (h : state.Balanced C)
    {bought : ℕ} (hbought : bought ≠ 0) (decimals : ℕ) :
    let held := sold.addHolding token bought decimals
    (if (cost : BigDecimal) = 0 then held else held.addToCostBasis token cost).Balanced C := by
  intro held
  have htotal := h.total
  have hpositions : held.Positions := addHolding_positions hsold.positions (by omega) decimals
  have hcash : 0 ≤ C → 0 ≤ held.cashBalance := by
    intro hC
    change 0 ≤ sold.cashBalance
    rw [hsold.cash]
    exact h.cash hC
  have hpnl : (held.realizedPnl : ℚ) = state.realizedPnl := by
    change (sold.realizedPnl : ℚ) = _
    rw [hsold.realizedPnl]
    simp
  have hbyToken : held.realizedPnlByToken.total = held.realizedPnl := by
    change sold.realizedPnlByToken.total = sold.realizedPnl
    rw [hsold.byToken, hsold.realizedPnl, h.byToken]
  have hbooks : held.cashBalance + held.costBasis.total + cost = C + held.realizedPnl := by
    change sold.cashBalance + sold.costBasis.total + cost = _
    rw [hsold.cash, hsold.costBasis, hpnl]
    linarith
  split_ifs with hzero
  · exact ⟨hcash, hpositions, by linarith, hbyToken⟩
  · refine ⟨hcash, ?_, ?_, hbyToken⟩
    · exact addToCostBasis_positions hpositions (mem_keys_addHolding _ _ _ _) cost
    · rw [total_addToCostBasis]
      change held.cashBalance + (held.costBasis.total + cost) = C + held.realizedPnl
      linarith

theorem executeSimulatedSwap_balanced (h : state.Balanced C) (hrange : state.InRange)
    (hne : fromToken ≠ toToken)
    (hfits : SwapFits wnear state fromToken fromAmount toToken toAmount)
    (hswap : state.executeSimulatedSwap wnear fromToken fromAmount toToken toAmount toDecimals =
      some (result, after)) : after.Balanced C := by
  rw [executeSimulatedSwap] at hswap
  rw [SwapFits] at hfits
  by_cases hfrom : fromToken = wnear
  · subst hfrom
    have hto : toToken ≠ fromToken := hne.symm
    simp only [balanceOf, if_true, hto, if_false] at hswap
    split_ifs at hswap with hzero
    obtain ⟨hspent, hbought⟩ := not_or.mp hzero
    cases hswap
    exact buy_balanced h hspent (min_le_right _ _) hbought toDecimals
  · simp only [balanceOf, hfrom, if_false] at hswap hfits
    have hle : min fromAmount (state.unitsOf fromToken) ≤ state.unitsOf fromToken :=
      min_le_right _ _
    generalize scaleOutput toAmount _ fromAmount = bought at hswap hfits
    generalize min fromAmount (state.unitsOf fromToken) = n at hswap hfits hle
    obtain hzero | hzero := em (n = 0 ∨ bought = 0)
    · simp [hzero] at hswap
    rw [if_neg hzero] at hswap
    obtain ⟨hn, hbought⟩ := not_or.mp hzero
    replace hfits := hfits hfrom hn hbought
    obtain ⟨cost, hcost⟩ := exists_cost h.positions hrange hn hle
    by_cases hto : toToken = wnear
    · simp only [hto, if_true] at hswap hfits
      cases hswap
      exact (sold_of_fits h.positions hrange hn hle hcost hfits).toCash h
    · simp only [hto, hfrom, if_false, ne_eq, not_false_eq_true, and_self, if_true, hcost]
        at hswap hfits
      cases hswap
      exact (sold_of_fits h.positions hrange hn hle hcost hfits).toHolding h hbought toDecimals

end Swap

inductive Call
  | swap (fromToken : TokenAccount) (fromAmount : ℕ) (toToken : TokenAccount)
      (toAmount toDecimals : ℕ)
  | liquidateAll (rates : TokenAccount → Option ExchangeRate)

def perform (wnear : TokenAccount) (state : PortfolioState) : Call → PortfolioState
  | .swap fromToken fromAmount toToken toAmount toDecimals =>
    match state.executeSimulatedSwap wnear fromToken fromAmount toToken toAmount toDecimals with
    | some (_, after) => after
    | none => state
  | .liquidateAll rates => state.liquidateAll rates

/-- A call between different tokens in which no value leaves its range. -/
def Admits (wnear : TokenAccount) (state : PortfolioState) : Call → Prop
  | .swap fromToken fromAmount toToken toAmount _ =>
    fromToken ≠ toToken ∧ state.InRange ∧
      SwapFits wnear state fromToken fromAmount toToken toAmount
  | .liquidateAll rates =>
    state.InRange ∧ LiquidationFits rates state
      (state.holdings.entries.filter fun position ↦ !position.2.isZero)

instance (wnear : TokenAccount) (state : PortfolioState) :
    (call : Call) → Decidable (state.Admits wnear call)
  | .swap .. => inferInstanceAs (Decidable (_ ≠ _ ∧ _ ∧ (_ → _ → _ → _)))
  | .liquidateAll _ => inferInstanceAs (Decidable (_ ∧ _))

inductive Reaches (wnear : TokenAccount) (C : ℤ) : PortfolioState → Prop
  | new : Reaches wnear C (new C)
  | call {state : PortfolioState} (call : Call) : Reaches wnear C state →
      state.Admits wnear call → Reaches wnear C (state.perform wnear call)

theorem perform_balanced {wnear : TokenAccount} (h : state.Balanced C) {call : Call}
    (hadmits : state.Admits wnear call) : (state.perform wnear call).Balanced C := by
  cases call with
  | swap fromToken fromAmount toToken toAmount toDecimals =>
    obtain ⟨hne, hrange, hfits⟩ := hadmits
    rw [perform]
    split
    · next hswap => exact executeSimulatedSwap_balanced h hrange hne hfits hswap
    · exact h
  | liquidateAll rates => exact liquidateAll_balanced h hadmits.1 hadmits.2

theorem Reaches.balanced {wnear : TokenAccount} (h : Reaches wnear C state) :
    state.Balanced C := by
  induction h with
  | new => exact balanced_new C
  | call call _ hadmits ih => exact perform_balanced ih hadmits

/-- After every call the books balance, and a portfolio that starts with no debt has none. -/
theorem accounting {wnear : TokenAccount} (h : Reaches wnear C state) :
    state.cashBalance + state.costBasis.total = C + state.realizedPnl ∧
      state.realizedPnlByToken.total = state.realizedPnl ∧
      (0 ≤ C → 0 ≤ state.cashBalance) ∧
      (∀ token amount, state.holdings.get token = some amount → 0 < amount.smallestUnits) ∧
      ∀ token ∈ state.costBasis.keys, token ∈ state.holdings.keys := by
  have hbalanced := h.balanced
  refine ⟨hbalanced.total, hbalanced.byToken, hbalanced.cash, ?_, ?_⟩
  · intro token amount hget
    obtain ⟨n, hn, hunits⟩ := hbalanced.positions.holdings token amount hget
    rw [hunits]
    exact_mod_cast hn
  · intro token hkey
    obtain ⟨basis, hget⟩ := SortedMap.exists_get hkey
    exact (hbalanced.positions.costBasis token basis hget).2

def purchase : Call := .swap (wnearToken true) 60 ⟨"token.near"⟩ 30 24

def partialSale : Call := .swap ⟨"token.near"⟩ 10 (wnearToken true) 25 24

/-- A third of a position that cost 60 is sold for 25. -/
theorem accounting_partialSale :
    ∃ state, Reaches (wnearToken true) 100 state ∧ state.realizedPnl = 5 ∧
      state.cashBalance + state.costBasis.total = (100 : ℤ) + state.realizedPnl := by
  have hpurchase : Reaches (wnearToken true) 100 _ := .call purchase .new (by decide +kernel)
  have hsale := hpurchase.call partialSale (by decide +kernel)
  exact ⟨_, hsale, by decide +kernel, (accounting hsale).1⟩

/-- Nothing covers a negative capital. -/
theorem negative_capital :
    ∃ state, Reaches (wnearToken true) (-1) state ∧ ¬0 ≤ state.cashBalance := by
  refine ⟨_, .call (.liquidateAll fun _ ↦ none) .new (by decide +kernel), ?_⟩
  decide +kernel

end PortfolioState

end Zaciraci.Simulate
