import Zaciraci.Trade.Rebalance

namespace Zaciraci.Trade

open Lib Persistence

/-- Rounding half up to ten decimals, as it is for the positive weights it is used on. -/
def weightFromF64 (value : ℚ) : BigDecimal := ⌊value * 10 ^ 10 + 1 / 2⌋ / 10 ^ 10

def needsRebalancing (currentWeights targetWeights : List ℚ) (rebalanceThreshold : ℚ) : Bool :=
  if currentWeights.length ≠ targetWeights.length then true
  else (currentWeights.zip targetWeights).any fun x ↦ rebalanceThreshold < |x.1 - x.2|

/-- Only the tokens with a positive weight get into the map of the action. -/
def generateRebalanceActions (tokens : List TokenAccount) (targetWeights : List ℚ) :
    List TradingAction :=
  let targetMap := (((tokens.zip targetWeights).filter fun x ↦ 0 < x.2).map fun x ↦
    (x.1, weightFromF64 x.2)).foldl (fun m e ↦ m.insert e.1 e.2) SortedMap.empty
  if targetMap.entries.isEmpty then [] else [.rebalance targetMap]

/-- The actions of `execute_portfolio_optimization`. -/
def portfolioActions (selectedTokens : List TokenAccount) (currentWeights optimalWeights : List ℚ)
    (rebalanceThreshold : ℚ) : List TradingAction :=
  if needsRebalancing currentWeights optimalWeights rebalanceThreshold then
    generateRebalanceActions selectedTokens optimalWeights
  else [.hold]

/-- A market where every swap goes through at the spot rates, and the portfolio in it. The
portfolio is recorded in the database or has to be read from the exchange. -/
structure Market where
  wnear : TokenAccount
  holdings : SortedMap TokenAccount TokenAmount
  recorded : Bool
  rates : TokenAccount → TokenRate
  holdings_nonneg : ∀ token amount, holdings.get token = some amount → 0 ≤ amount.smallestUnits
  rates_pos : ∀ token, 0 < (rates token).toSpotRate.rawRate

namespace Market

open Program

variable (market : Market)

def spotRate (token : TokenAccount) : ExchangeRate :=
  if token = market.wnear then .wnear else (market.rates token).toSpotRate

def rate (token : TokenAccount) : ℚ := (market.spotRate token).rawRate

def held (token : TokenAccount) : TokenAmount := (market.holdings.get token).getD ⟨0, 0⟩

def units (token : TokenAccount) : ℚ := (market.held token).smallestUnits

def value (s : TokenAccount → ℚ) (token : TokenAccount) : ℚ := s token / market.rate token

def total : ℚ := (market.holdings.keys.map (market.value market.units)).sum

def balances (tokens : List TokenAccount) : SortedMap TokenAccount TokenAmount :=
  if market.recorded then market.holdings
  else (tokens.map fun token ↦ (token, market.held token)).foldl (fun m e ↦ m.insert e.1 e.2)
    SortedMap.empty

/-- The units after `amount` of one token is swapped for another. -/
def swapped (s : TokenAccount → ℚ) (fromToken toToken : TokenAccount) (amount : ℚ)
    (token : TokenAccount) : ℚ :=
  s token - (if token = fromToken then amount else 0) +
    if token = toToken then amount / market.rate fromToken * market.rate toToken else 0

def answer : (q : RebalanceRequest ℚ) → (TokenAccount → ℚ) → RebalanceAnswer q × (TokenAccount → ℚ)
  | .holdings tokens, s => (market.balances tokens, s)
  | .latestRate token, s => (Except.ok (some (market.rates token)), s)
  | .swap fromToken toToken amount _, s => (true, market.swapped s fromToken toToken amount)
  | .available, s => (s market.wnear, s)

/-- What a token counts for in the plan: nothing if its rate is too small. -/
def counted (token : TokenAccount) : ℚ :=
  if market.rate token < 1 then 0 else market.value market.units token

variable (targetWeights : SortedMap TokenAccount BigDecimal)

def countedTotal : ℚ :=
  ((market.balances (ensureWnearIncluded market.wnear targetWeights.keys)).keys.map
    market.counted).sum

/-- How much a token is short of its target, or beyond it, when the whole is `total`. -/
def gap (total : ℚ) (target : TokenAccount × BigDecimal) : ℚ :=
  total * target.2 - market.counted target.1

def salesOf (total : ℚ) (targets : List (TokenAccount × BigDecimal)) : List SellOperation :=
  (targets.filter fun x ↦ x.1 ≠ market.wnear ∧ market.gap total x ≤ -1).map fun x ↦
    ⟨x.1, |market.gap total x|, market.spotRate x.1⟩

def purchasesOf (total : ℚ) (targets : List (TokenAccount × BigDecimal)) : List BuyOperation :=
  (targets.filter fun x ↦ x.1 ≠ market.wnear ∧ 1 ≤ market.gap total x).map fun x ↦
    ⟨x.1, market.gap total x⟩

def sales : List SellOperation :=
  market.salesOf (market.countedTotal targetWeights) targetWeights.entries

def purchases : List BuyOperation :=
  market.purchasesOf (market.countedTotal targetWeights) targetWeights.entries

def share (available required : ℚ) : ℚ := if required ≤ available then 1 else available / required

theorem share_eq (available required : ℚ) :
    (if available < required then some (available / required) else none).getD 1 =
      share available required := by
  rw [share]
  split_ifs with h h' h'
  · exact absurd h' h.not_ge
  · rfl
  · rfl
  · exact absurd (not_lt.1 h) h'

theorem share_mul_lt_iff {available t u c : ℚ} (havailable : 0 ≤ available) :
    (1 - share available (max 0 t)) * u < c ↔
      if 0 < t - available then (t - available) * u < t * c else 0 < c := by
  split_ifs with h
  · have ht : 0 < t := by linarith
    have hshare : 1 - available / t = (t - available) / t := by
      rw [sub_div, div_self ht.ne']
    rw [max_eq_right ht.le, share, if_neg (by linarith), hshare, div_mul_eq_mul_div,
      div_lt_iff₀ ht, mul_comm c]
  · rw [share, if_pos (max_le havailable (by linarith)), sub_self, zero_mul]

/-- What is missing for the purchase of a token when the purchases in `buys` are paid from the
wrapped NEAR of the portfolio. -/
def shortfall (buys : List BuyOperation) (token : TokenAccount) : ℚ :=
  (1 - share (market.value market.units market.wnear)
    (BuyOperation.worth (fun _ ↦ true) buys)) * BuyOperation.worth (· = token) buys

theorem rate_wnear : market.rate market.wnear = yoctoPerNear := by
  simp [rate, spotRate, ExchangeRate.wnear]

theorem rate_pos (token : TokenAccount) : 0 < market.rate token := by
  rw [rate, spotRate]
  split_ifs
  · norm_num [ExchangeRate.wnear, yoctoPerNear]
  · exact market.rates_pos token

theorem units_nonneg (token : TokenAccount) : 0 ≤ market.units token := by
  rw [units, held]
  cases h : market.holdings.get token with
  | none => exact le_rfl
  | some amount => exact market.holdings_nonneg token amount h

theorem value_units_nonneg (token : TokenAccount) : 0 ≤ market.value market.units token :=
  div_nonneg (market.units_nonneg token) (market.rate_pos token).le

theorem counted_nonneg (token : TokenAccount) : 0 ≤ market.counted token := by
  rw [counted]
  split_ifs
  · exact le_rfl
  · exact market.value_units_nonneg token

section Runs

variable {market} {s : TokenAccount → ℚ} {token a b : TokenAccount}

theorem value_swapped (v : ℚ) :
    market.value (market.swapped s a b (v * market.rate a)) token =
      market.value s token - (if token = a then v else 0) + if token = b then v else 0 := by
  have ha := (market.rate_pos a).ne'
  have ht := (market.rate_pos token).ne'
  rw [value, swapped, mul_div_cancel_right₀ _ ha, add_div, sub_div]
  congr 2
  · split_ifs with h
    · rw [h, mul_div_cancel_right₀ _ ha]
    · exact zero_div _
  · split_ifs with h
    · rw [← h, mul_div_cancel_right₀ _ ht]
    · exact zero_div _

abbrev Leads {α : Type} (market : Market) (p : RebalanceProgram ℚ α) (s : TokenAccount → ℚ)
    (o : Outcome String α) (s' : TokenAccount → ℚ) : Prop :=
  Ends (deterministic market.answer) (fun _ ↦ True) p s o s'

theorem leads_submit {v : ℚ} {policy : SlippagePolicy} (hv : 0 < v) :
    market.Leads (Rebalance.submit a b (v * market.rate a) policy) s (.ok true)
      (market.swapped s a b (v * market.rate a)) := by
  rw [Rebalance.submit, if_neg (mul_pos hv (market.rate_pos a)).ne']
  exact ends_ask rfl trivial ends_done

theorem leads_sellValue {v : ℚ} {rate : ExchangeRate} (hv : 0 < v)
    (hrate : rate.rawRate = market.rate a) :
    market.Leads (Rebalance.sellValue exact a b v rate) s (.ok true)
      (market.swapped s a b (v * market.rate a)) := by
  have hunits : (TokenAmount.ofValue v rate).smallestUnits = v * market.rate a := by
    rw [← hrate]
    simp +contextual [TokenAmount.ofValue, ExchangeRate.isZero]
  have hamount : exact.ofDecimal (v * market.rate a) = some (v * market.rate a) :=
    if_pos (mul_pos hv (market.rate_pos a)).le
  simp only [Rebalance.sellValue, hunits, hamount]
  exact leads_submit hv

variable (market s) in
theorem leads_directSwaps {swaps : List DirectSwap} (counters : PhaseCounters)
    (hswaps : ∀ d ∈ swaps, 0 < d.nearValue ∧ d.sellExchangeRate.rawRate = market.rate d.sellToken) :
    ∃ counters' s', market.Leads (swaps.foldlM (Rebalance.runDirectSwap exact) (counters, [], [])) s
        (.ok (counters', [], [])) s' ∧
      ∀ token, market.value s' token = market.value s token -
        DirectSwap.sold (· = token) swaps + DirectSwap.bought (· = token) swaps := by
  induction swaps generalizing s counters with
  | nil => exact ⟨counters, s, ends_done, by simp⟩
  | cons swap swaps ih =>
    rw [List.forall_mem_cons] at hswaps
    have hswap : market.Leads (Rebalance.runDirectSwap exact (counters, [], []) swap) s _ _ :=
      (leads_sellValue hswaps.1.1 hswaps.1.2).bind ends_done
    obtain ⟨counters', s', hrest, hvalue⟩ := ih _ (counters.count true) hswaps.2
    refine ⟨counters', s', hswap.bind hrest, fun token ↦ ?_⟩
    rw [hvalue, value_swapped, DirectSwap.sold, DirectSwap.bought, worth_cons, worth_cons]
    simp only [decide_eq_true_eq, eq_comm (a := token)]
    ring

variable (market s) in
theorem leads_sells {sells : List SellOperation} (counters : PhaseCounters)
    (hsells : ∀ x ∈ sells, 0 < x.nearValue ∧ x.exchangeRate.rawRate = market.rate x.token) :
    ∃ counters' s', market.Leads (sells.foldlM (Rebalance.runSell exact market.wnear) counters) s
        (.ok counters') s' ∧
      ∀ token, market.value s' token = market.value s token -
        SellOperation.worth (· = token) sells +
          if token = market.wnear then SellOperation.worth (fun _ ↦ true) sells else 0 := by
  induction sells generalizing s counters with
  | nil => exact ⟨counters, s, ends_done, by simp⟩
  | cons sell sells ih =>
    rw [List.forall_mem_cons] at hsells
    have hsell : market.Leads (Rebalance.runSell exact market.wnear counters sell) s _ _ :=
      (leads_sellValue hsells.1.1 hsells.1.2).bind ends_done
    obtain ⟨counters', s', hrest, hvalue⟩ := ih _ (counters.count true) hsells.2
    refine ⟨counters', s', hsell.bind hrest, fun token ↦ ?_⟩
    rw [hvalue, value_swapped, SellOperation.worth, worth_cons, SellOperation.worth, worth_cons]
    simp only [decide_eq_true_eq, eq_comm (a := token)]
    split_ifs <;> ring

variable {buys : List BuyOperation}

theorem purchaseAmount_exact {available allocated : ℚ} {ratio : Option ℚ} {buy : BuyOperation}
    (hbuy : 0 < buy.nearValue) (hratio : ∀ r, ratio = some r → 0 < r ∧ available - allocated =
      BuyOperation.worth (fun _ ↦ true) (buy :: buys) * r * yoctoPerNear) :
    Rebalance.purchaseAmount exact available allocated ratio buys.isEmpty buy.nearValue =
      buy.nearValue * ratio.getD 1 * market.rate market.wnear := by
  have hyocto : (0 : ℚ) < yoctoPerNear := by norm_num [yoctoPerNear]
  rw [rate_wnear]
  cases ratio with
  | none =>
    rw [Option.getD_none, mul_one]
    exact congrArg (Option.getD · 0) (if_pos (mul_pos hbuy hyocto).le)
  | some r =>
    obtain ⟨hr, hrest⟩ := hratio r rfl
    cases buys with
    | nil =>
      refine (show _ = available - allocated from rfl).trans (hrest.trans ?_)
      simp
    | cons next buys =>
      exact congrArg (Option.getD · 0) (if_pos (mul_pos (mul_pos hbuy hr) hyocto).le)

variable (market s) in
theorem leads_runBuys (returns : ExpectedReturns) (available : ℚ) (ratio : Option ℚ) (allocated : ℚ)
    (counters : PhaseCounters) (hbuys : ∀ x ∈ buys, 0 < x.nearValue)
    (hratio : ∀ r, ratio = some r → 0 < r ∧ available - allocated =
      BuyOperation.worth (fun _ ↦ true) buys * r * yoctoPerNear) :
    ∃ counters' s', market.Leads (Rebalance.runBuys exact market.wnear returns available ratio
        allocated counters buys) s (.ok counters') s' ∧
      ∀ token, token ≠ market.wnear → market.value s' token =
        market.value s token + ratio.getD 1 * BuyOperation.worth (· = token) buys := by
  induction buys generalizing s allocated counters with
  | nil => exact ⟨counters, s, ends_done, by simp⟩
  | cons buy buys ih =>
    rw [List.forall_mem_cons] at hbuys
    have hamount : _ = buy.nearValue * ratio.getD 1 * market.rate market.wnear :=
      purchaseAmount_exact hbuys.1 hratio
    have hpos : 0 < buy.nearValue * ratio.getD 1 := by
      cases ratio with
      | none => simpa using hbuys.1
      | some r => exact mul_pos hbuys.1 (hratio r rfl).1
    have hbuy : market.Leads (Rebalance.submit market.wnear buy.token _
        (buyPolicy buy.token returns)) s _ _ := leads_submit hpos
    have hnext : ∀ r, ratio = some r → 0 < r ∧ available - (allocated +
        buy.nearValue * ratio.getD 1 * market.rate market.wnear) =
          BuyOperation.worth (fun _ ↦ true) buys * r * yoctoPerNear := by
      intro r hr
      obtain ⟨hr₀, hall⟩ := hratio r hr
      refine ⟨hr₀, ?_⟩
      rw [BuyOperation.worth, worth_cons, if_pos rfl] at hall
      rw [hr, Option.getD_some, rate_wnear, ← sub_sub, hall]
      ring
    obtain ⟨counters', s', hrest, hvalue⟩ := ih _ _ (counters.count true) hbuys.2 hnext
    refine ⟨counters', s', ?_, fun token htoken ↦ ?_⟩
    · rw [Rebalance.runBuys, hamount]
      exact hbuy.bind hrest
    · rw [hvalue token htoken, value_swapped, if_neg htoken, BuyOperation.worth, worth_cons]
      simp only [decide_eq_true_eq, eq_comm (a := token)]
      split_ifs <;> ring

theorem leads_runRemainingBuys (returns : ExpectedReturns) (hbuys : ∀ x ∈ buys, 0 < x.nearValue)
    (hwnear : 0 ≤ market.value s market.wnear) :
    ∃ counters s', market.Leads (Rebalance.runRemainingBuys exact market.wnear returns buys) s
        (.ok counters) s' ∧
      ∀ token, token ≠ market.wnear → market.value s' token = market.value s token +
        share (market.value s market.wnear) (BuyOperation.worth (fun _ ↦ true) buys) *
          BuyOperation.worth (· = token) buys := by
  by_cases hempty : buys = []
  · subst hempty
    exact ⟨⟨0, 0⟩, s, ends_done, by simp⟩
  have hrequired : 0 < BuyOperation.worth (fun _ ↦ true) buys := worth_true_pos hempty hbuys
  have hread : market.Leads Rebalance.available s (.ok (s market.wnear)) s :=
    ends_ask rfl trivial ends_done
  have hyocto : (yoctoPerNear : ℚ) ≠ 0 := by norm_num [yoctoPerNear]
  have hvalue : market.value s market.wnear = s market.wnear / yoctoPerNear := by
    rw [value, rate_wnear]
  rw [Rebalance.runRemainingBuys, if_neg (by simpa using hempty)]
  by_cases hzero : s market.wnear = 0
  · refine ⟨⟨0, 0⟩, s, hread.bind ?_, fun token _ ↦ ?_⟩
    · rw [if_pos hzero]
      exact ends_done
    · rw [hvalue, hzero, zero_div, share, if_neg hrequired.not_ge, zero_div, zero_mul, add_zero]
  · have hpos : 0 < market.value s market.wnear := lt_of_le_of_ne hwnear (by
      rw [hvalue, ne_comm, div_ne_zero_iff]
      exact ⟨hzero, hyocto⟩)
    have hratio : ∀ r, (if market.value s market.wnear < BuyOperation.worth (fun _ ↦ true) buys
        then some (market.value s market.wnear / BuyOperation.worth (fun _ ↦ true) buys)
        else none) = some r → 0 < r ∧ s market.wnear - 0 =
          BuyOperation.worth (fun _ ↦ true) buys * r * yoctoPerNear := by
      intro r hr
      split_ifs at hr
      cases hr
      refine ⟨div_pos hpos hrequired, ?_⟩
      rw [mul_div_cancel₀ _ hrequired.ne', hvalue, div_mul_cancel₀ _ hyocto, sub_zero]
    obtain ⟨counters, s', hrun, hall⟩ := market.leads_runBuys s returns (s market.wnear) _ 0 ⟨0, 0⟩
      hbuys hratio
    refine ⟨counters, s', hread.bind ?_, fun token htoken ↦ ?_⟩
    · rw [if_neg hzero]
      rw [hvalue] at hrun
      exact hrun
    · rw [hall token htoken, ← share_eq]

variable (market s) in
/-- Where a rebalancing of `sells` and `buys` leads: the sales are made in full, and a purchase
falls short by its share of what neither sales nor wrapped NEAR pay. -/
theorem leads_settleMatched (returns : ExpectedReturns) {sells : List SellOperation}
    {result : MatchResult} (hresult : MayMatch sells buys result)
    (hsells : ∀ x ∈ sells, 0 < x.nearValue ∧ x.exchangeRate.rawRate = market.rate x.token)
    (hbuys : ∀ x ∈ buys, 0 < x.nearValue) (hsells' : ∀ x ∈ sells, x.token ≠ market.wnear)
    (hbuys' : ∀ x ∈ buys, x.token ≠ market.wnear) (hwnear : 0 ≤ market.value s market.wnear) :
    ∃ o s', market.Leads (Rebalance.settleMatched exact market.wnear returns result) s o s' ∧
      ∀ token, token ≠ market.wnear → market.value s' token = market.value s token -
        SellOperation.worth (· = token) sells + BuyOperation.worth (· = token) buys -
        (1 - share (market.value s market.wnear)
          (BuyOperation.worth (fun _ ↦ true) result.remainingBuys)) *
        BuyOperation.worth (· = token) result.remainingBuys := by
  obtain ⟨sells', buys', hperm, hperm', hmatched⟩ :=
    hresult.matched (fun x hx ↦ (hsells x hx).1.le) fun x hx ↦ (hbuys x hx).le
  rw [Rebalance.settleMatched]
  obtain ⟨hswaps, hrest, hrestBuys⟩ := hmatched.forall_sales
    (P := fun token rate ↦ rate.rawRate = market.rate token)
    (fun x hx ↦ hsells x (hperm.subset hx)) fun x hx ↦ hbuys x (hperm'.subset hx)
  have hsold : ∀ p, DirectSwap.sold p result.directSwaps +
      SellOperation.worth p result.remainingSells = SellOperation.worth p sells :=
    fun p ↦ hmatched.sold.trans (worth_perm hperm)
  have hbought : ∀ p, DirectSwap.bought p result.directSwaps +
      BuyOperation.worth p result.remainingBuys = BuyOperation.worth p buys :=
    fun p ↦ hmatched.bought.trans (worth_perm hperm')
  obtain ⟨c₁, s₁, h₁, hv₁⟩ := market.leads_directSwaps s ⟨0, 0⟩ hswaps
  rw [← List.append_nil result.remainingSells] at hrest
  obtain ⟨c₂, s₂, h₂, hv₂⟩ := market.leads_sells s₁ ⟨0, 0⟩ hrest
  have hvalue : market.value s₂ market.wnear = market.value s market.wnear +
      SellOperation.worth (fun _ ↦ true) result.remainingSells := by
    have hnone := hsold (· = market.wnear)
    have hnone' := hbought (· = market.wnear)
    rw [SellOperation.worth, worth_eq_zero fun x hx ↦ decide_eq_false (hsells' x hx)] at hnone
    rw [BuyOperation.worth, worth_eq_zero fun x hx ↦ decide_eq_false (hbuys' x hx)] at hnone'
    have hdirect : 0 ≤ DirectSwap.bought (· = market.wnear) result.directSwaps :=
      worth_nonneg fun x hx ↦ (hswaps x hx).1.le
    have hleft : 0 ≤ BuyOperation.worth (· = market.wnear) result.remainingBuys :=
      worth_nonneg fun x hx ↦ (hrestBuys x hx).le
    rw [hv₂, hv₁, if_pos rfl, List.append_nil]
    linarith
  have hwnear₂ : 0 ≤ market.value s₂ market.wnear := by
    rw [hvalue, ← List.append_nil result.remainingSells]
    exact add_nonneg hwnear (worth_nonneg fun x hx ↦ (hrest x hx).1.le)
  rw [← List.append_nil result.remainingBuys] at hrestBuys
  obtain ⟨c₃, s₃, h₃, hv₃⟩ := leads_runRemainingBuys returns hrestBuys hwnear₂
  let failed := c₁.failed + c₂.failed + c₃.failed
  obtain ⟨o, hlast⟩ : ∃ o, market.Leads
      (if c₁.success + c₂.success + c₃.success = 0 ∧ 0 < failed then
        .fail s!"All rebalance operations failed ({failed} failed)" else pure ()) s₃ o s₃ := by
    split_ifs
    · exact ⟨_, ends_done⟩
    · exact ⟨_, ends_done⟩
  refine ⟨o, s₃, h₁.bind (h₂.bind (h₃.bind hlast)), fun token htoken ↦ ?_⟩
  rw [hv₃ token htoken, hv₂, hv₁, if_neg htoken, hvalue, ← hsold, ← hbought]
  simp only [List.append_nil]
  -- sales that are left over leave no purchase to pay for
  rcases hmatched.one_side with hside | hside
  · rw [hside, SellOperation.worth, SellOperation.worth, worth_nil, worth_nil]
    ring_nf
  · rw [hside, BuyOperation.worth, BuyOperation.worth, worth_nil, worth_nil]
    ring

end Runs

section Plan

variable {market} {s : TokenAccount → ℚ} {tokens : List TokenAccount}
  {balances : SortedMap TokenAccount TokenAmount}

/-- The balances that were read are those of the portfolio, for `tokens` at least. -/
structure Reads (market : Market) (tokens : List TokenAccount)
    (balances : SortedMap TokenAccount TokenAmount) : Prop where
  entries_eq : ∀ token amount, balances.get token = some amount → amount = market.held token
  complete : ∀ token ∈ tokens, balances.get token = none → market.units token = 0

theorem reads_balances (hnodup : tokens.Nodup) : market.Reads tokens (market.balances tokens) := by
  rw [balances]
  split_ifs
  · refine ⟨fun token amount h ↦ ?_, fun token _ h ↦ ?_⟩
    · rw [held, h, Option.getD_some]
    · rw [units, held, h, Option.getD_none]
  · have hget : ∀ token ∈ tokens, _ = some (market.held token) := fun token htoken ↦
      SortedMap.get_foldl_insert_of_mem (m := SortedMap.empty)
        (l := tokens.map fun token ↦ (token, market.held token))
        (by simpa [Function.comp_def] using hnodup) (List.mem_map_of_mem htoken)
    refine ⟨fun token amount h ↦ ?_, fun token htoken h ↦ ?_⟩
    · rcases SortedMap.of_get_foldl_insert h with h | h
      · cases h
      · obtain ⟨_, _, heq⟩ := List.mem_map.1 h
        cases heq
        rfl
    · rw [hget token htoken] at h
      cases h

theorem valueAt_spotRate (token : TokenAccount) :
    Rebalance.valueAt exact (market.held token) (market.spotRate token) =
      market.value market.units token :=
  if_neg fun h ↦ (market.rate_pos token).ne' (of_decide_eq_true h)

theorem counted_of_units_eq_zero {token : TokenAccount} (h : market.units token = 0) :
    market.counted token = 0 := by
  rw [counted, value, h, zero_div, ite_self]

theorem counted_of_effectivelyZero {token : TokenAccount}
    (h : (market.spotRate token).isEffectivelyZero = true) : market.counted token = 0 :=
  if_pos (of_decide_eq_true h)

theorem counted_of_not_effectivelyZero {token : TokenAccount}
    (h : ¬(market.spotRate token).isEffectivelyZero = true) :
    market.counted token = market.value market.units token :=
  if_neg fun hlt ↦ h (decide_eq_true hlt)

theorem leads_latestRate (token : TokenAccount) :
    market.Leads (Rebalance.latestRate token) s (.ok (.ok (some (market.rates token)))) s :=
  ends_ask rfl trivial ends_done

theorem leads_valueOf (token : TokenAccount) :
    market.Leads (Rebalance.valueOf exact market.wnear (token, market.held token)) s
      (.ok (market.counted token)) s := by
  rw [Rebalance.valueOf]
  split_ifs with hzero hwnear
  · rw [counted_of_units_eq_zero (of_decide_eq_true hzero)]
    exact ends_done
  · have hrate : market.spotRate token = .wnear := if_pos hwnear
    rw [← hrate, valueAt_spotRate, counted_of_not_effectivelyZero]
    · exact ends_done
    · rw [hrate]
      decide
  · refine (leads_latestRate token).bind ?_
    have hrate : (market.rates token).toSpotRate = market.spotRate token := (if_neg hwnear).symm
    simp only [hrate, valueAt_spotRate]
    split_ifs with heffective
    · rw [counted_of_effectivelyZero heffective]
      exact ends_done
    · rw [counted_of_not_effectivelyZero heffective]
      exact ends_done

theorem leads_valueSum {l : List (TokenAccount × TokenAmount)} (total : ℚ)
    (hl : ∀ e ∈ l, e.2 = market.held e.1) :
    market.Leads (l.foldlM (fun total holding ↦ do
      let value ← Rebalance.valueOf exact market.wnear holding
      pure (total + value)) total) s
      (.ok (total + ((l.map Prod.fst).map market.counted).sum)) s := by
  induction l generalizing total with
  | nil =>
    rw [List.map_nil, List.map_nil, List.sum_nil, add_zero]
    exact ends_done
  | cons e l ih =>
    obtain ⟨token, amount⟩ := e
    rw [List.forall_mem_cons] at hl
    obtain rfl : amount = market.held token := hl.1
    rw [List.map_cons, List.map_cons, List.sum_cons, ← add_assoc]
    exact ((leads_valueOf token).bind ends_done).bind (ih _ hl.2)

theorem leads_totalValue (hreads : market.Reads tokens balances) :
    market.Leads (Rebalance.totalValue exact market.wnear balances) s
      (.ok (balances.keys.map market.counted).sum) s := by
  have h := leads_valueSum (s := s) 0 fun e he ↦
    hreads.entries_eq e.1 e.2 (SortedMap.get_eq_some.2 he)
  rwa [zero_add] at h

theorem held_eq (hreads : market.Reads tokens balances) {token : TokenAccount}
    (htoken : token ∈ tokens) : (balances.get token).filter (!·.isZero) =
      if market.units token = 0 then none else some (market.held token) := by
  cases h : balances.get token with
  | none => rw [if_pos (hreads.complete token htoken h), Option.filter_none]
  | some amount =>
    rw [hreads.entries_eq token amount h, Option.filter_some]
    split_ifs with hzero hunits hunits
    · simp [TokenAmount.isZero, units] at hzero hunits
      exact absurd hunits hzero
    · rfl
    · rfl
    · simp [TokenAmount.isZero, units] at hzero hunits
      exact absurd hzero hunits

theorem leads_spotRateOf {token : TokenAccount} (hwnear : token ≠ market.wnear) :
    market.Leads (Rebalance.spotRateOf token) s
      (.ok (if (market.spotRate token).isEffectivelyZero then none
        else some (market.spotRate token))) s := by
  have hrate : (market.rates token).toSpotRate = market.spotRate token := (if_neg hwnear).symm
  rw [← hrate]
  exact (leads_latestRate token).bind ends_done

theorem leads_rate (hreads : market.Reads tokens balances) {token : TokenAccount}
    (htoken : token ∈ tokens) (hwnear : token ≠ market.wnear) :
    ∃ rate, market.Leads (if ((balances.get token).filter (!·.isZero)).isSome then
        Rebalance.spotRateOf token else pure none) s (.ok rate) s ∧
      Rebalance.currentValue exact ((balances.get token).filter (!·.isZero)) rate =
        market.counted token ∧
      (rate = none ∧ market.counted token = 0 ∨ rate = some (market.spotRate token)) := by
  rw [held_eq hreads htoken]
  by_cases hunits : market.units token = 0
  · have hcounted := counted_of_units_eq_zero hunits
    rw [if_pos hunits]
    exact ⟨none, ends_done, hcounted.symm, .inl ⟨rfl, hcounted⟩⟩
  rw [if_neg hunits]
  refine ⟨_, leads_spotRateOf hwnear, ?_⟩
  split_ifs with heffective
  · have hcounted := counted_of_effectivelyZero heffective
    exact ⟨hcounted.symm, .inl ⟨rfl, hcounted⟩⟩
  · refine ⟨?_, .inr rfl⟩
    rw [counted_of_not_effectivelyZero heffective]
    exact valueAt_spotRate token

theorem leads_addDifference (hreads : market.Reads tokens balances) {total weight : ℚ}
    {token : TokenAccount} (htoken : token ∈ tokens) (htotal : 0 ≤ total) (hweight : 0 ≤ weight)
    (operations : List SellOperation × List BuyOperation) :
    market.Leads (Rebalance.addDifference exact market.wnear balances total operations
        (token, weight)) s
      (.ok (operations.1 ++ market.salesOf total [(token, weight)],
        operations.2 ++ market.purchasesOf total [(token, weight)])) s := by
  rw [Rebalance.addDifference]
  by_cases hwnear : token = market.wnear
  · simp only [hwnear, or_true, if_true, salesOf, purchasesOf, ne_eq, not_true_eq_false,
      false_and, decide_false, List.filter_cons_of_neg, Bool.false_eq_true, not_false_eq_true,
      List.filter_nil, List.map_nil, List.append_nil]
    exact ends_done
  obtain ⟨rate, hrate, hvalue, hspot⟩ := leads_rate (s := s) hreads htoken hwnear
  simp only [hwnear, not_lt.2 hweight, or_self, if_false]
  refine hrate.bind ?_
  rw [hvalue]
  change Ends _ _ (if market.gap total (token, weight) ≤ -1 then _
    else if 1 ≤ market.gap total (token, weight) then _ else _) _ _ _
  split_ifs with hsell hbuy
  · rcases hspot with ⟨-, hcounted⟩ | rfl
    · have hnonneg : 0 ≤ market.gap total (token, weight) := by
        rw [gap, hcounted, sub_zero]
        exact mul_nonneg htotal hweight
      linarith
    · have hbuy : ¬1 ≤ market.gap total (token, weight) := by linarith
      simp only [salesOf, purchasesOf, List.filter_singleton, ne_eq, hwnear, not_false_eq_true,
        hsell, hbuy, and_self, and_false, decide_true, decide_false, cond_true, cond_false,
        List.map_cons, List.map_nil, List.append_nil]
      exact ends_done
  · simp only [salesOf, purchasesOf, List.filter_singleton, ne_eq, hwnear, not_false_eq_true,
      hsell, hbuy, and_self, and_false, decide_true, decide_false, cond_true, cond_false,
      List.map_cons, List.map_nil, List.append_nil]
    exact ends_done
  · simp only [salesOf, purchasesOf, List.filter_singleton, hsell, hbuy, and_false, decide_false,
      cond_false, List.map_nil, List.append_nil]
    exact ends_done

theorem leads_differences (hreads : market.Reads tokens balances) {total : ℚ}
    (htotal : 0 ≤ total) {targets : List (TokenAccount × BigDecimal)}
    (htargets : ∀ x ∈ targets, x.1 ∈ tokens ∧ 0 ≤ x.2)
    (operations : List SellOperation × List BuyOperation) :
    market.Leads (targets.foldlM (Rebalance.addDifference exact market.wnear balances total)
        operations) s
      (.ok (operations.1 ++ market.salesOf total targets,
        operations.2 ++ market.purchasesOf total targets)) s := by
  induction targets generalizing operations with
  | nil =>
    simp only [salesOf, purchasesOf, List.filter_nil, List.map_nil, List.append_nil]
    exact ends_done
  | cons x targets ih =>
    rw [List.forall_mem_cons] at htargets
    have hsales : market.salesOf total (x :: targets) =
        market.salesOf total [x] ++ market.salesOf total targets := by
      rw [salesOf, ← List.singleton_append, List.filter_append, List.map_append]
      rfl
    have hpurchases : market.purchasesOf total (x :: targets) =
        market.purchasesOf total [x] ++ market.purchasesOf total targets := by
      rw [purchasesOf, ← List.singleton_append, List.filter_append, List.map_append]
      rfl
    rw [hsales, hpurchases, ← List.append_assoc, ← List.append_assoc]
    exact (leads_addDifference hreads htargets.1.1 htotal htargets.1.2 operations).bind
      (ih htargets.2 _)

theorem mem_ensureWnearIncluded {wnear token : TokenAccount} :
    token ∈ ensureWnearIncluded wnear tokens ↔ token = wnear ∨ token ∈ tokens := by
  rw [ensureWnearIncluded]
  split_ifs with h
  · exact ⟨.inr, fun ht ↦ ht.elim (fun heq ↦ heq ▸ h) id⟩
  · rw [List.mem_append, List.mem_singleton, or_comm]

theorem nodup_ensureWnearIncluded {wnear : TokenAccount} (h : tokens.Nodup) :
    (ensureWnearIncluded wnear tokens).Nodup := by
  rw [ensureWnearIncluded]
  split_ifs with hmem
  · exact h
  · exact h.append (List.nodup_singleton wnear) (List.disjoint_singleton.2 hmem)

variable {targetWeights : SortedMap TokenAccount BigDecimal}

variable (market targetWeights) in
theorem sales_spec : ∀ x ∈ market.sales targetWeights, x.token ≠ market.wnear ∧ 0 < x.nearValue ∧
    x.exchangeRate.rawRate = market.rate x.token := by
  intro x hx
  obtain ⟨y, hy, rfl⟩ := List.mem_map.1 hx
  obtain ⟨hwnear, hgap⟩ := of_decide_eq_true (List.mem_filter.1 hy).2
  exact ⟨hwnear, abs_pos_of_neg (by linarith), rfl⟩

variable (market targetWeights) in
theorem purchases_spec : ∀ x ∈ market.purchases targetWeights,
    x.token ≠ market.wnear ∧ 0 < x.nearValue := by
  intro x hx
  obtain ⟨y, hy, rfl⟩ := List.mem_map.1 hx
  obtain ⟨hwnear, hgap⟩ := of_decide_eq_true (List.mem_filter.1 hy).2
  exact ⟨hwnear, zero_lt_one.trans_le hgap⟩

/-- `s'` is what the plan leaves when its operations are matched as `result` says. -/
structure Settled (market : Market) (targetWeights : SortedMap TokenAccount BigDecimal)
    (result : MatchResult) (s' : TokenAccount → ℚ) : Prop where
  mayMatch : MayMatch (market.sales targetWeights) (market.purchases targetWeights) result
  value_eq : ∀ token, token ≠ market.wnear → market.value s' token =
    market.value market.units token - SellOperation.worth (· = token) (market.sales targetWeights) +
      BuyOperation.worth (· = token) (market.purchases targetWeights) -
      market.shortfall result.remainingBuys token

theorem settled_rebalanceBy (returns : ExpectedReturns)
    (hweights : ∀ x ∈ targetWeights.entries, 0 ≤ x.2)
    {matching : List SellOperation → List BuyOperation → MatchResult}
    (hmatching : ∀ sells buys, MayMatch sells buys (matching sells buys)) :
    market.Settled targetWeights
      (matching (market.sales targetWeights) (market.purchases targetWeights))
      (run market.answer (Rebalance.rebalanceBy exact market.wnear matching returns targetWeights)
        market.units).state := by
  have hreads : market.Reads _ (market.balances (ensureWnearIncluded market.wnear
    targetWeights.keys)) := reads_balances (nodup_ensureWnearIncluded targetWeights.keys_nodup)
  have hread : market.Leads (Rebalance.holdings (ensureWnearIncluded market.wnear
      targetWeights.keys)) market.units (.ok (market.balances _)) market.units :=
    ends_ask rfl trivial ends_done
  have htotal : 0 ≤ market.countedTotal targetWeights := by
    refine List.sum_nonneg fun v hv ↦ ?_
    obtain ⟨token, -, rfl⟩ := List.mem_map.1 hv
    exact market.counted_nonneg token
  have htargets : ∀ x ∈ targetWeights.entries,
      x.1 ∈ ensureWnearIncluded market.wnear targetWeights.keys ∧ 0 ≤ x.2 := fun x hx ↦
    ⟨mem_ensureWnearIncluded.2 (.inr (List.mem_map_of_mem hx)), hweights x hx⟩
  have hsales := market.sales_spec targetWeights
  have hpurchases := market.purchases_spec targetWeights
  obtain ⟨o, s', hsettle, hvalue⟩ := market.leads_settleMatched market.units returns
    (hmatching (market.sales targetWeights) (market.purchases targetWeights))
    (fun x hx ↦ (hsales x hx).2) (fun x hx ↦ (hpurchases x hx).2) (fun x hx ↦ (hsales x hx).1)
    (fun x hx ↦ (hpurchases x hx).1)
    (market.value_units_nonneg _)
  have hleads : market.Leads (Rebalance.rebalanceBy exact market.wnear matching returns
      targetWeights) market.units o s' := hread.bind ((leads_totalValue hreads).bind
    ((leads_differences hreads htotal htargets ([], [])).bind hsettle))
  rw [(run_of_ends hleads).2.1]
  exact ⟨hmatching _ _, hvalue⟩

theorem Settled.worth_remainingBuys_eq_zero {result : MatchResult} {s' : TokenAccount → ℚ}
    (h : market.Settled targetWeights result s') {token : TokenAccount}
    (hnone : ∀ x ∈ market.purchases targetWeights, x.token ≠ token) :
    BuyOperation.worth (· = token) result.remainingBuys = 0 :=
  h.mayMatch.worth_remainingBuys_eq_zero (fun y hy ↦ (market.sales_spec targetWeights y hy).2.1)
    (fun y hy ↦ (market.purchases_spec targetWeights y hy).2) hnone

theorem worth_sales {x : TokenAccount × BigDecimal} (hx : x ∈ targetWeights.entries)
    (hwnear : x.1 ≠ market.wnear) :
    SellOperation.worth (· = x.1) (market.sales targetWeights) =
      if market.gap (market.countedTotal targetWeights) x ≤ -1 then
        |market.gap (market.countedTotal targetWeights) x| else 0 := by
  rw [SellOperation.worth, sales, salesOf, worth_map]
  refine (worth_filter_of_mem targetWeights.keys_nodup hx _).trans ?_
  simp only [hwnear, ne_eq, not_false_eq_true, true_and, decide_eq_true_eq]

theorem worth_purchases {x : TokenAccount × BigDecimal} (hx : x ∈ targetWeights.entries)
    (hwnear : x.1 ≠ market.wnear) :
    BuyOperation.worth (· = x.1) (market.purchases targetWeights) =
      if 1 ≤ market.gap (market.countedTotal targetWeights) x then
        market.gap (market.countedTotal targetWeights) x else 0 := by
  rw [BuyOperation.worth, purchases, purchasesOf, worth_map]
  refine (worth_filter_of_mem targetWeights.keys_nodup hx _).trans ?_
  simp only [hwnear, ne_eq, not_false_eq_true, true_and, decide_eq_true_eq]

theorem moved_of_mem {x : TokenAccount × BigDecimal} (hx : x ∈ targetWeights.entries)
    (hwnear : x.1 ≠ market.wnear) :
    BuyOperation.worth (· = x.1) (market.purchases targetWeights) -
        SellOperation.worth (· = x.1) (market.sales targetWeights) =
      if 1 ≤ |market.gap (market.countedTotal targetWeights) x| then
        market.gap (market.countedTotal targetWeights) x else 0 := by
  rw [worth_sales hx hwnear, worth_purchases hx hwnear]
  generalize market.gap (market.countedTotal targetWeights) x = g
  rcases le_total 0 g with hg | hg
  · rw [abs_of_nonneg hg, if_neg (by linarith : ¬g ≤ -1), sub_zero]
  · rw [abs_of_nonpos hg, if_neg (by linarith : ¬1 ≤ g), zero_sub]
    split_ifs <;> linarith

theorem ne_of_mem_purchases {x : TokenAccount × BigDecimal} (hx : x ∈ targetWeights.entries)
    (hgap : ¬1 ≤ market.gap (market.countedTotal targetWeights) x) :
    ∀ y ∈ market.purchases targetWeights, y.token ≠ x.1 := by
  intro y hy htoken
  obtain ⟨z, hz, rfl⟩ := List.mem_map.1 hy
  obtain ⟨hmem, hz⟩ := List.mem_filter.1 hz
  have hzx := List.inj_on_of_nodup_map targetWeights.keys_nodup hmem hx htoken
  exact hgap (hzx ▸ (of_decide_eq_true hz).2)

theorem ne_of_mem_purchases_of_notMem {token : TokenAccount}
    (htoken : token ∉ targetWeights.keys) :
    ∀ x ∈ market.purchases targetWeights, x.token ≠ token := by
  intro x hx h
  obtain ⟨y, hy, rfl⟩ := List.mem_map.1 hx
  exact htoken (h ▸ List.mem_map_of_mem (List.mem_of_mem_filter hy))

variable (market) in
theorem moved_of_notMem {token : TokenAccount} (htoken : token ∉ targetWeights.keys) :
    BuyOperation.worth (· = token) (market.purchases targetWeights) -
      SellOperation.worth (· = token) (market.sales targetWeights) = 0 := by
  have hsales : ∀ x ∈ market.sales targetWeights, x.token ≠ token := by
    intro x hx h
    obtain ⟨y, hy, rfl⟩ := List.mem_map.1 hx
    exact htoken (h ▸ List.mem_map_of_mem (List.mem_of_mem_filter hy))
  rw [SellOperation.worth, BuyOperation.worth,
    worth_eq_zero fun x hx ↦ decide_eq_false (hsales x hx),
    worth_eq_zero fun x hx ↦ decide_eq_false (ne_of_mem_purchases_of_notMem htoken x hx), sub_zero]

end Plan

section Target

variable {market} {tokens : List TokenAccount} {currentWeights optimalWeights : List ℚ}
  {rebalanceThreshold : ℚ} {targetWeights : SortedMap TokenAccount BigDecimal}

theorem weightFromF64_nonneg {w : ℚ} (hw : 0 < w) : 0 ≤ weightFromF64 w := by
  have hfloor : 0 ≤ ⌊w * 10 ^ 10 + 1 / 2⌋ := Int.floor_nonneg.2 (by positivity)
  exact div_nonneg (by exact_mod_cast hfloor) (by norm_num)

theorem targetWeights_eq (h : portfolioActions tokens currentWeights optimalWeights
      rebalanceThreshold = [.rebalance targetWeights]) :
    targetWeights = (((tokens.zip optimalWeights).filter fun x ↦ 0 < x.2).map fun x ↦
      (x.1, weightFromF64 x.2)).foldl (fun m e ↦ m.insert e.1 e.2) SortedMap.empty := by
  rw [portfolioActions] at h
  split_ifs at h
  · simp only [generateRebalanceActions] at h
    split_ifs at h
    cases h
    rfl
  · cases h

theorem entries_targetWeights (hnodup : tokens.Nodup)
    (hlength : tokens.length = optimalWeights.length)
    (h : portfolioActions tokens currentWeights optimalWeights rebalanceThreshold =
      [.rebalance targetWeights]) :
    targetWeights.entries.Perm (((tokens.zip optimalWeights).filter fun x ↦ 0 < x.2).map fun x ↦
      (x.1, weightFromF64 x.2)) := by
  rw [targetWeights_eq h]
  apply SortedMap.perm_foldl_insert
  have hfst : ((tokens.zip optimalWeights).map Prod.fst).Nodup := by
    rwa [List.map_fst_zip hlength.le]
  rw [List.map_map]
  exact hfst.sublist (List.filter_sublist.map Prod.fst)

theorem weightFromF64_le (w : ℚ) : weightFromF64 w ≤ w + 1 / (2 * 10 ^ 10) := by
  have hfloor := Int.floor_le (w * 10 ^ 10 + 1 / 2)
  rw [weightFromF64, div_le_iff₀ (by norm_num)]
  linarith

section Inputs

variable (market) (selected : List (TokenAccount × ℚ))

/-- Whether the plan sees a token: its rate is not too small, and the portfolio is recorded as a
whole or the token is one of those that are read. -/
def Seen (token : TokenAccount) : Prop :=
  1 ≤ market.rate token ∧
    (market.recorded ∨ token = market.wnear ∨ ∃ x ∈ selected, 0 < x.2 ∧ x.1 = token)

instance : DecidablePred (market.Seen selected) := fun _ ↦ inferInstanceAs (Decidable (_ ∧ _))

def seenTotal : ℚ :=
  ((market.holdings.keys.filter (market.Seen selected ·)).map (market.value market.units)).sum

/-- What a token lacks of the seen total times its rounded weight. -/
def lack (x : TokenAccount × ℚ) : ℚ :=
  market.seenTotal selected * weightFromF64 x.2 - market.value market.units x.1

/-- What the share of a token is above the seen total times its rounded weight. -/
def missed (x : TokenAccount × ℚ) : ℚ :=
  market.total * x.2 - market.seenTotal selected * weightFromF64 x.2

def weighted : List (TokenAccount × ℚ) := selected.filter fun x ↦ x.1 ≠ market.wnear ∧ 0 < x.2

/-- What the tokens have too much that have one NEAR or more too much. -/
def surplus : ℚ :=
  (((market.weighted selected).filter (market.lack selected · ≤ -1)).map
    (-market.lack selected ·)).sum

def wanted (least : ℚ) : ℚ :=
  (((market.weighted selected).filter (least ≤ market.lack selected ·)).map
    (market.lack selected)).sum

def shortage : ℚ :=
  market.wanted selected 1 - market.surplus selected - market.value market.units market.wnear

/-- The weights can be attained. A token without a weight has to be worth little, for it is not
sold. What is missed of a share, be it by rounding or for what is not seen, has to stay below one
NEAR. And a shortage has to be spread over enough purchases, since the larger ones are paid by the
surplus first and the others are cut in proportion. -/
structure Attainable : Prop where
  unweighted : ∀ x ∈ selected, x.1 ≠ market.wnear → x.2 = 0 →
    market.value market.units x.1 < 1
  untraded : ∀ x ∈ market.weighted selected, |market.lack selected x| < 1 →
    |market.lack selected x + market.missed selected x| < 1
  aimed : ∀ x ∈ market.weighted selected, 1 ≤ |market.lack selected x| →
    market.missed selected x < 1
  affordable : 0 < market.shortage selected → ∀ x ∈ market.weighted selected,
    1 ≤ market.lack selected x →
      market.shortage selected * min (market.lack selected x)
          (market.wanted selected (market.lack selected x) - market.surplus selected) <
        (market.wanted selected 1 - market.surplus selected) * (1 - market.missed selected x)

end Inputs

section Seen

variable {selected : List (TokenAccount × ℚ)}

theorem counted_eq_zero {token : TokenAccount} (h : token ∉ market.holdings.keys) :
    market.counted token = 0 := by
  apply counted_of_units_eq_zero
  rw [units, held, SortedMap.get_eq_none.2 h, Option.getD_none]

theorem sum_counted {keys : List TokenAccount} (hkeys : keys.Nodup) :
    (keys.map market.counted).sum =
      ((market.holdings.keys.filter fun token ↦ 1 ≤ market.rate token ∧ token ∈ keys).map
        (market.value market.units)).sum := by
  have hnodup := market.holdings.keys_nodup
  rw [← List.sum_toFinset _ hkeys, ← List.sum_toFinset _ (hnodup.filter _), List.toFinset_filter,
    Finset.sum_filter]
  have hvalue : ∀ token ∈ market.holdings.keys.toFinset,
      (if decide (1 ≤ market.rate token ∧ token ∈ keys) = true then market.value market.units token
        else 0) = if token ∈ keys.toFinset then market.counted token else 0 := by
    intro token _
    rw [counted]
    by_cases hrate : market.rate token < 1 <;> by_cases hmem : token ∈ keys <;>
      simp [hrate, hmem, not_le.2, not_lt.1]
  rw [Finset.sum_congr rfl hvalue, ← Finset.sum_filter, Finset.filter_mem_eq_inter]
  refine (Finset.sum_subset Finset.inter_subset_right fun token htoken h ↦ ?_).symm
  apply counted_eq_zero
  intro hheld
  exact h (Finset.mem_inter.2 ⟨List.mem_toFinset.2 hheld, htoken⟩)

theorem mem_keys_balances (hnodup : tokens.Nodup) (hrecorded : ¬market.recorded)
    {token : TokenAccount} : token ∈ (market.balances tokens).keys ↔ token ∈ tokens := by
  rw [balances, if_neg hrecorded, SortedMap.keys, (SortedMap.perm_foldl_insert
    (by simpa [Function.comp_def] using hnodup)).map Prod.fst |>.mem_iff]
  simp [Function.comp_def]

theorem countedTotal_eq_seenTotal (hkeys : ∀ token, token ∈ targetWeights.keys ↔
      ∃ x ∈ selected, 0 < x.2 ∧ x.1 = token) :
    market.countedTotal targetWeights = market.seenTotal selected := by
  have hread : (ensureWnearIncluded market.wnear targetWeights.keys).Nodup :=
    nodup_ensureWnearIncluded targetWeights.keys_nodup
  rw [countedTotal, sum_counted (SortedMap.keys_nodup _), seenTotal]
  congr 2
  refine List.filter_congr fun token htoken ↦ decide_eq_decide.2 (and_congr_right fun _ ↦ ?_)
  by_cases hrecorded : market.recorded
  · simp [balances, hrecorded, htoken]
  · rw [mem_keys_balances hread hrecorded, mem_ensureWnearIncluded, hkeys]
    simp [hrecorded]

end Seen

section Bounds

variable (market) (selected : List (TokenAccount × ℚ))

theorem seenTotal_nonneg : 0 ≤ market.seenTotal selected := by
  refine List.sum_nonneg fun v hv ↦ ?_
  obtain ⟨token, -, rfl⟩ := List.mem_map.1 hv
  exact market.value_units_nonneg token

theorem seenTotal_le_total : market.seenTotal selected ≤ market.total := by
  refine (List.filter_sublist.map _).sum_le_sum fun v hv ↦ ?_
  obtain ⟨token, -, rfl⟩ := List.mem_map.1 hv
  exact market.value_units_nonneg token

theorem neg_one_lt_missed (htotal : market.total < 2 * 10 ^ 10) {x : TokenAccount × ℚ}
    (hpos : 0 < x.2) : -1 < market.missed selected x := by
  have hle := mul_le_mul_of_nonneg_right (market.seenTotal_le_total selected)
    (weightFromF64_nonneg hpos)
  have hround := mul_le_mul_of_nonneg_left (weightFromF64_le x.2)
    ((market.seenTotal_nonneg selected).trans (market.seenTotal_le_total selected))
  rw [missed]
  linarith

variable {selected} in
theorem price_pos (hshortage : 0 < market.shortage selected) :
    0 < market.wanted selected 1 - market.surplus selected := by
  have hwrapped := market.value_units_nonneg market.wnear
  rw [shortage] at hshortage
  linarith

end Bounds

/-- The map of an action for the selected tokens and their weights. Of the tokens with a weight
none is held whose rate is too small to be counted. -/
structure Planned (market : Market) (selected : List (TokenAccount × ℚ))
    (targetWeights : SortedMap TokenAccount BigDecimal) : Prop where
  nodup : (selected.map Prod.fst).Nodup
  nonneg : ∀ x ∈ selected, 0 ≤ x.2
  entries : targetWeights.entries.Perm ((selected.filter fun x ↦ 0 < x.2).map fun x ↦
    (x.1, weightFromF64 x.2))
  rates : ∀ x ∈ selected, 0 < x.2 → market.rate x.1 < 1 → market.units x.1 = 0

namespace Planned

variable {selected : List (TokenAccount × ℚ)} {x : TokenAccount × ℚ}
  (h : market.Planned selected targetWeights)

include h

theorem mem_keys (token : TokenAccount) :
    token ∈ targetWeights.keys ↔ ∃ x ∈ selected, 0 < x.2 ∧ x.1 = token := by
  rw [SortedMap.keys, (h.entries.map Prod.fst).mem_iff]
  simp only [List.map_map, List.mem_map, List.mem_filter, decide_eq_true_eq, Function.comp_apply,
    and_assoc]

theorem entries_nonneg : ∀ x ∈ targetWeights.entries, 0 ≤ x.2 := by
  intro x hx
  obtain ⟨y, hy, rfl⟩ := List.mem_map.1 (h.entries.subset hx)
  exact weightFromF64_nonneg (of_decide_eq_true (List.mem_filter.1 hy).2)

theorem mem_entries (hx : x ∈ selected) (hpos : 0 < x.2) :
    (x.1, weightFromF64 x.2) ∈ targetWeights.entries :=
  h.entries.mem_iff.2 (List.mem_map_of_mem (List.mem_filter.2 ⟨hx, decide_eq_true hpos⟩))

theorem gap_eq_lack (hx : x ∈ selected) (hpos : 0 < x.2) :
    market.gap (market.countedTotal targetWeights) (x.1, weightFromF64 x.2) =
      market.lack selected x := by
  rw [gap, lack, countedTotal_eq_seenTotal h.mem_keys, counted]
  split_ifs with hrate
  · rw [value, h.rates x hx hpos hrate, zero_div]
  · rfl

theorem perm {β : Type} (p : ℚ → Prop) [DecidablePred p] (f : TokenAccount → ℚ → β) :
    ((targetWeights.entries.filter fun x ↦ x.1 ≠ market.wnear ∧
        p (market.gap (market.countedTotal targetWeights) x)).map fun x ↦
          f x.1 (market.gap (market.countedTotal targetWeights) x)).Perm
      (((market.weighted selected).filter fun x ↦ p (market.lack selected x)).map fun x ↦
        f x.1 (market.lack selected x)) := by
  have hlack := fun x hx hpos ↦ h.gap_eq_lack (x := x) hx hpos
  refine ((h.entries.filter _).map _).trans (.of_eq ?_)
  have hfilter : (selected.filter fun x ↦ 0 < x.2).filter ((fun x ↦ decide (x.1 ≠ market.wnear ∧
      p (market.gap (market.countedTotal targetWeights) x))) ∘ fun x ↦
        (x.1, weightFromF64 x.2)) =
      (market.weighted selected).filter fun x ↦ p (market.lack selected x) := by
    rw [weighted, List.filter_filter, List.filter_filter]
    refine List.filter_congr fun x hx ↦ ?_
    by_cases hpos : 0 < x.2
    · simp [hpos, hlack x hx hpos, Bool.and_comm]
    · simp [hpos]
  rw [List.filter_map, List.map_map, hfilter]
  refine List.map_congr_left fun x hx ↦ ?_
  obtain ⟨hmem, hx⟩ := List.mem_filter.1 (List.mem_of_mem_filter hx)
  simp [hlack x hmem (of_decide_eq_true hx).2]

theorem purchases_perm : (market.purchases targetWeights).Perm
    (((market.weighted selected).filter (1 ≤ market.lack selected ·)).map fun x ↦
      ⟨x.1, market.lack selected x⟩) :=
  h.perm (1 ≤ ·) BuyOperation.mk

theorem worth_sales : SellOperation.worth (fun _ ↦ true) (market.sales targetWeights) =
    market.surplus selected := by
  refine (worth_perm (h.perm (· ≤ -1) fun token value ↦
    (⟨token, |value|, market.spotRate token⟩ : SellOperation))).trans ?_
  rw [worth_map, surplus, worth]
  refine congrArg List.sum (List.map_congr_left fun x hx ↦ ?_)
  have hlack : market.lack selected x ≤ -1 := of_decide_eq_true (List.mem_filter.1 hx).2
  rw [if_pos rfl, abs_of_nonpos (by linarith)]

theorem worth_filter_purchases {least : ℚ} (hleast : 1 ≤ least) :
    BuyOperation.worth (fun _ ↦ true)
        ((market.purchases targetWeights).filter (least ≤ ·.nearValue)) =
      market.wanted selected least := by
  refine (worth_perm (h.purchases_perm.filter _)).trans ?_
  rw [List.filter_map, worth_map, wanted, List.filter_filter, worth]
  simp only [if_true]
  congr 2
  refine List.filter_congr fun x _ ↦ ?_
  by_cases hx : least ≤ market.lack selected x
  · simp [hx, hleast.trans hx]
  · simp [hx]

theorem worth_purchases : BuyOperation.worth (fun _ ↦ true) (market.purchases targetWeights) =
    market.wanted selected 1 := by
  rw [← h.worth_filter_purchases le_rfl, List.filter_eq_self.2]
  intro x hx
  obtain ⟨y, hy, rfl⟩ := List.mem_map.1 hx
  exact decide_eq_true (of_decide_eq_true (List.mem_filter.1 hy).2).2

variable {result : MatchResult} {s' : TokenAccount → ℚ}
  (hsettled : market.Settled targetWeights result s')

include hsettled

theorem final_of_weighted (hx : x ∈ market.weighted selected) :
    market.value s' x.1 - market.total * x.2 =
      -((if 1 ≤ |market.lack selected x| then 0 else market.lack selected x) +
        market.missed selected x + market.shortfall result.remainingBuys x.1) := by
  obtain ⟨hmem, hx⟩ := List.mem_filter.1 hx
  obtain ⟨hwnear, hpos⟩ := of_decide_eq_true hx
  have hmoved := moved_of_mem (h.mem_entries hmem hpos) hwnear
  have hvalue := hsettled.value_eq x.1 hwnear
  have hshare : market.lack selected x + market.missed selected x =
      market.total * x.2 - market.value market.units x.1 := by
    rw [lack, missed]
    ring
  rw [h.gap_eq_lack hmem hpos] at hmoved
  split_ifs at hmoved ⊢ <;> linarith

theorem near_iff_of_not_purchase (hx : x ∈ market.weighted selected)
    (hbuy : ¬1 ≤ market.lack selected x) (hmissed : -1 < market.missed selected x) :
    |market.value s' x.1 - market.total * x.2| < 1 ↔
      (|market.lack selected x| < 1 →
        |market.lack selected x + market.missed selected x| < 1) ∧
      (1 ≤ |market.lack selected x| → market.missed selected x < 1) := by
  have hnone : BuyOperation.worth (· = x.1) result.remainingBuys = 0 := by
    obtain ⟨hmem, hx⟩ := List.mem_filter.1 hx
    have hpos := (of_decide_eq_true hx).2
    have hnot := ne_of_mem_purchases (h.mem_entries hmem hpos) fun hgap ↦
      hbuy (h.gap_eq_lack hmem hpos ▸ hgap)
    exact hsettled.worth_remainingBuys_eq_zero hnot
  rw [h.final_of_weighted hsettled hx, shortfall, hnone, mul_zero, add_zero, abs_neg]
  split_ifs with htraded
  · rw [zero_add, abs_lt]
    exact ⟨fun hnear ↦ ⟨fun hlt ↦ absurd htraded hlt.not_ge, fun _ ↦ hnear.2⟩,
      fun hnear ↦ ⟨hmissed, hnear.2 htraded⟩⟩
  · exact ⟨fun hnear ↦ ⟨fun _ ↦ hnear, fun hle ↦ absurd hle htraded⟩,
      fun hnear ↦ hnear.1 (not_le.1 htraded)⟩

theorem near_iff_of_zero (hx : x ∈ selected) (hwnear : x.1 ≠ market.wnear) (hzero : x.2 = 0) :
    |market.value s' x.1 - market.total * x.2| < 1 ↔ market.value market.units x.1 < 1 := by
  have hnot : x.1 ∉ targetWeights.keys := by
    rw [h.mem_keys]
    rintro ⟨y, hy, hypos, hyx⟩
    exact hypos.ne' (List.inj_on_of_nodup_map h.nodup hy hx hyx ▸ hzero)
  have hmoved := market.moved_of_notMem hnot
  have hnone := hsettled.worth_remainingBuys_eq_zero (ne_of_mem_purchases_of_notMem hnot)
  have hvalue := hsettled.value_eq x.1 hwnear
  rw [shortfall, hnone, mul_zero] at hvalue
  have hkept : market.value s' x.1 = market.value market.units x.1 := by linarith
  rw [hkept, hzero, mul_zero, sub_zero, abs_of_nonneg (market.value_units_nonneg _)]

omit hsettled

section Purchases

variable (hbuy : 1 ≤ market.lack selected x) {l m : List BuyOperation}
  (horder : Descending BuyOperation.nearValue (market.purchases targetWeights)
    (l ++ ⟨x.1, market.lack selected x⟩ :: m))

include hbuy horder

theorem worth_before_le :
    BuyOperation.worth (fun _ ↦ true) l + market.lack selected x ≤
      market.wanted selected (market.lack selected x) := by
  rw [← h.worth_filter_purchases hbuy]
  refine le_of_le_of_eq ?_ (worth_perm horder.filter_perm).symm
  have hbehind : 0 ≤ BuyOperation.worth (fun _ ↦ true)
      (m.filter (market.lack selected x ≤ ·.nearValue)) := worth_nonneg fun y hy ↦
    (zero_le_one.trans hbuy).trans (of_decide_eq_true (List.mem_filter.1 hy).2)
  rw [worth_append, worth_cons, if_pos rfl]
  linarith

variable (hrest : ∀ p, BuyOperation.worth p result.remainingBuys = BuyOperation.worth p (unmatched
  (SellOperation.worth (fun _ ↦ true) (market.sales targetWeights))
  (l ++ ⟨x.1, market.lack selected x⟩ :: m)))

include hrest

theorem shortfall_lt_iff {c : ℚ} :
    market.shortfall result.remainingBuys x.1 < c ↔
      if 0 < market.shortage selected then
        market.shortage selected * max 0 (min (market.lack selected x)
            (BuyOperation.worth (fun _ ↦ true) l + market.lack selected x -
              market.surplus selected)) <
          (market.wanted selected 1 - market.surplus selected) * c
      else 0 < c := by
  have htokens : ((market.purchases targetWeights).map (·.token)).Nodup := by
    rw [(h.purchases_perm.map BuyOperation.token).nodup_iff, List.map_map]
    exact h.nodup.sublist ((List.filter_sublist.trans List.filter_sublist).map Prod.fst)
  rw [← (horder.perm.map BuyOperation.token).nodup_iff, List.map_append, List.map_cons,
    List.nodup_middle, List.nodup_cons, List.mem_append, not_or] at htokens
  have hpos : ∀ y ∈ l ++ ⟨x.1, market.lack selected x⟩ :: m, 0 < y.nearValue :=
    fun y hy ↦ (market.purchases_spec targetWeights y (horder.perm.subset hy)).2
  have hsurplus : 0 ≤ SellOperation.worth (fun _ ↦ true) (market.sales targetWeights) :=
    worth_nonneg fun y hy ↦ (market.sales_spec targetWeights y hy).2.1.le
  have hwanted : BuyOperation.worth (fun _ ↦ true) (l ++ ⟨x.1, market.lack selected x⟩ :: m) =
      market.wanted selected 1 := (worth_perm horder.perm).trans h.worth_purchases
  rw [shortfall, hrest, hrest, worth_unmatched hsurplus hpos, hwanted, worth_unmatched_of_mem
    hsurplus (fun y hy ↦ hpos y (List.mem_append_left _ hy)) (zero_lt_one.trans_le hbuy)
    (fun y hy heq ↦ htokens.1.1 (List.mem_map.2 ⟨y, hy, heq⟩))
    (fun y hy heq ↦ htokens.1.2 (List.mem_map.2 ⟨y, hy, heq⟩)), h.worth_sales,
    share_mul_lt_iff (market.value_units_nonneg _)]
  rfl

theorem shortfall_nonneg : 0 ≤ market.shortfall result.remainingBuys x.1 := by
  rw [← not_lt, h.shortfall_lt_iff hbuy horder hrest, mul_zero]
  split_ifs with hshortage
  · exact (mul_nonneg hshortage.le (le_max_left _ _)).not_gt
  · exact lt_irrefl 0

theorem near_iff_of_purchase (hsettled : market.Settled targetWeights result s')
    (hx : x ∈ market.weighted selected) (hmissed : -1 < market.missed selected x) :
    |market.value s' x.1 - market.total * x.2| < 1 ↔
      market.missed selected x < 1 ∧ (0 < market.shortage selected →
        market.shortage selected * max 0 (min (market.lack selected x)
            (BuyOperation.worth (fun _ ↦ true) l + market.lack selected x -
              market.surplus selected)) <
          (market.wanted selected 1 - market.surplus selected) *
            (1 - market.missed selected x)) := by
  have hshort := h.shortfall_nonneg hbuy horder hrest
  have hnear : |market.missed selected x + market.shortfall result.remainingBuys x.1| < 1 ↔
      market.shortfall result.remainingBuys x.1 < 1 - market.missed selected x := by
    rw [abs_lt]
    exact ⟨fun hlt ↦ by linarith [hlt.2], fun hlt ↦ ⟨by linarith, by linarith⟩⟩
  rw [h.final_of_weighted hsettled hx, if_pos (hbuy.trans (le_abs_self _)), zero_add, abs_neg,
    hnear, h.shortfall_lt_iff hbuy horder hrest]
  split_ifs with hshortage
  · refine ⟨fun hlt ↦ ⟨?_, fun _ ↦ hlt⟩, fun hlt ↦ hlt.2 hshortage⟩
    have hleft := mul_nonneg hshortage.le (le_max_left 0 (min (market.lack selected x)
      (BuyOperation.worth (fun _ ↦ true) l + market.lack selected x - market.surplus selected)))
    have hright := pos_of_mul_pos_right (hleft.trans_lt hlt) (market.price_pos hshortage).le
    linarith
  · rw [sub_pos, and_iff_left fun hlt ↦ absurd hlt hshortage]

end Purchases

theorem mem_purchases (hx : x ∈ market.weighted selected) (hbuy : 1 ≤ market.lack selected x) :
    ⟨x.1, market.lack selected x⟩ ∈ market.purchases targetWeights :=
  h.purchases_perm.mem_iff.2
    (List.mem_map.2 ⟨x, List.mem_filter.2 ⟨hx, decide_eq_true hbuy⟩, rfl⟩)

variable (returns : ExpectedReturns)

/-- In the order where a purchase comes behind all that are as large, it is left the most of. -/
theorem affordable_of_order (hx : x ∈ market.weighted selected)
    (hbuy : 1 ≤ market.lack selected x) (hmissed : -1 < market.missed selected x)
    (hnear : ∀ matching, (∀ sells buys, MayMatch sells buys (matching sells buys)) →
      |market.value (run market.answer (Rebalance.rebalanceBy exact market.wnear matching returns
        targetWeights) market.units).state x.1 - market.total * x.2| < 1) :
    market.missed selected x < 1 ∧ (0 < market.shortage selected →
      market.shortage selected * min (market.lack selected x)
          (market.wanted selected (market.lack selected x) - market.surplus selected) <
        (market.wanted selected 1 - market.surplus selected) *
          (1 - market.missed selected x)) := by
  obtain ⟨l, m, horder, -, hbehind⟩ := Descending.exists_placed (h.mem_purchases hx hbuy)
    (fun y : BuyOperation ↦ market.lack selected x ≤ y.nearValue)
    (fun y hy ↦ of_decide_eq_true hy) fun y hy ↦ (not_le.1 (by simpa using hy)).le
  have hbefore : BuyOperation.worth (fun _ ↦ true) l + market.lack selected x =
      market.wanted selected (market.lack selected x) := by
    have hperm := horder.filter_perm
    rw [List.filter_eq_nil_iff.2 hbehind] at hperm
    rw [← h.worth_filter_purchases hbuy]
    refine Eq.trans ?_ (worth_perm hperm).symm
    rw [worth_append, worth_cons, worth_nil, if_pos rfl, add_zero]
  obtain ⟨matching, hmatching, hchosen⟩ := exists_matching horder
  have hrest : ∀ p, BuyOperation.worth p (matching (market.sales targetWeights)
      (market.purchases targetWeights)).remainingBuys = _ := fun p ↦ by
    rw [hchosen, remainingBuys_matchSorted (.insertionSort _ _) horder
      (fun y hy ↦ (market.sales_spec targetWeights y hy).2.1)
      fun y hy ↦ (market.purchases_spec targetWeights y hy).2]
  have hend := hnear matching hmatching
  rw [h.near_iff_of_purchase hbuy horder hrest (settled_rebalanceBy returns h.entries_nonneg
    hmatching) hx hmissed, hbefore] at hend
  refine ⟨hend.1, fun hshortage ↦ lt_of_le_of_lt ?_ (hend.2 hshortage)⟩
  exact mul_le_mul_of_nonneg_left (le_max_right _ _) hshortage.le

variable (htotal : market.total < 2 * 10 ^ 10)

include htotal

theorem near_of_attainable (hattainable : market.Attainable selected)
    {matching : List SellOperation → List BuyOperation → MatchResult}
    (hmatching : ∀ sells buys, MayMatch sells buys (matching sells buys))
    (hx : x ∈ selected) (hwnear : x.1 ≠ market.wnear) :
    |market.value (run market.answer (Rebalance.rebalanceBy exact market.wnear matching returns
      targetWeights) market.units).state x.1 - market.total * x.2| < 1 := by
  have hsettled := market.settled_rebalanceBy returns h.entries_nonneg hmatching
  rcases (h.nonneg x hx).eq_or_lt with hzero | hpos
  · exact (h.near_iff_of_zero hsettled hx hwnear hzero.symm).2
      (hattainable.unweighted x hx hwnear hzero.symm)
  have hweighted : x ∈ market.weighted selected :=
    List.mem_filter.2 ⟨hx, decide_eq_true ⟨hwnear, hpos⟩⟩
  have hmissed := market.neg_one_lt_missed selected htotal hpos
  by_cases hbuy : 1 ≤ market.lack selected x
  · obtain ⟨order, horder, hrest⟩ := hsettled.mayMatch.exists_remainingBuys
      (fun y hy ↦ (market.sales_spec targetWeights y hy).2.1)
      fun y hy ↦ (market.purchases_spec targetWeights y hy).2
    obtain ⟨l, m, rfl⟩ := List.append_of_mem
      (horder.perm.mem_iff.2 (h.mem_purchases hweighted hbuy))
    rw [h.near_iff_of_purchase hbuy horder hrest hsettled hweighted hmissed]
    have haimed := hattainable.aimed x hweighted (hbuy.trans (le_abs_self _))
    refine ⟨haimed, fun hshortage ↦ ?_⟩
    have hbefore := h.worth_before_le hbuy horder
    rcases max_choice 0 (min (market.lack selected x) (BuyOperation.worth (fun _ ↦ true) l +
      market.lack selected x - market.surplus selected)) with hmax | hmax
    · rw [hmax, mul_zero]
      exact mul_pos (market.price_pos hshortage) (sub_pos.2 haimed)
    · rw [hmax]
      refine lt_of_le_of_lt (mul_le_mul_of_nonneg_left ?_ hshortage.le)
        (hattainable.affordable hshortage x hweighted hbuy)
      exact min_le_min_left _ (by linarith)
  · rw [h.near_iff_of_not_purchase hsettled hweighted hbuy hmissed]
    exact ⟨hattainable.untraded x hweighted, hattainable.aimed x hweighted⟩

theorem attainable_of_near (hnear : ∀ matching,
      (∀ sells buys, MayMatch sells buys (matching sells buys)) →
      ∀ x ∈ selected, x.1 ≠ market.wnear →
        |market.value (run market.answer (Rebalance.rebalanceBy exact market.wnear matching returns
          targetWeights) market.units).state x.1 - market.total * x.2| < 1) :
    market.Attainable selected := by
  have hweighted : ∀ x ∈ market.weighted selected,
      x ∈ selected ∧ x.1 ≠ market.wnear ∧ -1 < market.missed selected x := by
    intro x hx
    obtain ⟨hmem, hx⟩ := List.mem_filter.1 hx
    obtain ⟨hwnear, hpos⟩ := of_decide_eq_true hx
    exact ⟨hmem, hwnear, market.neg_one_lt_missed selected htotal hpos⟩
  -- a token that is not bought ends at the same value in every order
  have hsettled := market.settled_rebalanceBy returns h.entries_nonneg
    mayMatch_matchRebalanceOperations
  have hend := hnear _ mayMatch_matchRebalanceOperations
  have hkept := fun x hx hbuy ↦
    (h.near_iff_of_not_purchase hsettled hx hbuy (hweighted x hx).2.2).1
      (hend x (hweighted x hx).1 (hweighted x hx).2.1)
  have hbought := fun x hx hbuy ↦ h.affordable_of_order returns hx hbuy (hweighted x hx).2.2
    fun matching hmatching ↦ hnear matching hmatching x (hweighted x hx).1 (hweighted x hx).2.1
  refine ⟨fun x hx hwnear hzero ↦ (h.near_iff_of_zero hsettled hx hwnear hzero).1
    (hend x hx hwnear), fun x hx hlack ↦ ?_, fun x hx hlack ↦ ?_,
    fun hshortage x hx hbuy ↦ (hbought x hx hbuy).2 hshortage⟩
  · exact (hkept x hx fun hle ↦ hlack.not_ge (hle.trans (le_abs_self _))).1 hlack
  · by_cases hbuy : 1 ≤ market.lack selected x
    · exact (hbought x hx hbuy).1
    · exact (hkept x hx hbuy).2 hlack

end Planned

/-- When a rebalancing at the spot rates brings every selected token to its weight, in whatever
order equal values are matched. -/
theorem reaches_target_iff (hnodup : tokens.Nodup)
    (hlength : tokens.length = optimalWeights.length) (hweights : ∀ w ∈ optimalWeights, 0 ≤ w)
    (h : portfolioActions tokens currentWeights optimalWeights rebalanceThreshold =
      [.rebalance targetWeights])
    (hrates : ∀ x ∈ tokens.zip optimalWeights, 0 < x.2 → market.rate x.1 < 1 →
      market.units x.1 = 0)
    (htotal : market.total < 2 * 10 ^ 10) (returns : ExpectedReturns) :
    (∀ matching, (∀ sells buys, MayMatch sells buys (matching sells buys)) →
      ∀ x ∈ tokens.zip optimalWeights, x.1 ≠ market.wnear →
        |market.value (run market.answer (Rebalance.rebalanceBy exact market.wnear matching returns
          targetWeights) market.units).state x.1 - market.total * x.2| < 1) ↔
    market.Attainable (tokens.zip optimalWeights) := by
  have hplanned : market.Planned (tokens.zip optimalWeights) targetWeights := by
    refine ⟨?_, fun x hx ↦ hweights x.2 (List.of_mem_zip hx).2,
      entries_targetWeights hnodup hlength h, hrates⟩
    rwa [List.map_fst_zip hlength.le]
  constructor
  · exact hplanned.attainable_of_near returns htotal
  · intro hattainable matching hmatching x hx hwnear
    exact hplanned.near_of_attainable returns htotal hattainable hmatching hx hwnear

def parity (holdings : SortedMap TokenAccount TokenAmount)
    (hholdings : ∀ e ∈ holdings.entries, 0 ≤ e.2.smallestUnits) : Market where
  wnear := ⟨"wrap.near"⟩
  holdings := holdings
  recorded := true
  rates token := ⟨token, ⟨"wrap.near"⟩, ⟨1000000, 6⟩, 0, 1, none⟩
  holdings_nonneg _ _ h := hholdings _ (SortedMap.get_eq_some.1 h)
  rates_pos token := by
    change (0 : ℚ) < 1000000
    norm_num

def sixAndHalf : Market :=
  parity ((SortedMap.empty.insert ⟨"dai.near"⟩ ⟨6000000, 6⟩).insert ⟨"usn"⟩ ⟨500000, 6⟩)
    (by decide +kernel)

theorem reaches_target_fifths :
    let tokens : List TokenAccount := [⟨"aurora"⟩, ⟨"dai.near"⟩, ⟨"usdc"⟩]
    let weights : List ℚ := [2 / 5, 1 / 5, 2 / 5]
    let targetWeights := ((SortedMap.empty.insert ⟨"aurora"⟩ (2 / 5)).insert ⟨"dai.near"⟩
      (1 / 5)).insert ⟨"usdc"⟩ (2 / 5)
    0 < sixAndHalf.shortage (tokens.zip weights) ∧
      portfolioActions tokens [0, 1, 0] weights (1 / 20) = [.rebalance targetWeights] ∧
      ∀ matching, (∀ sells buys, MayMatch sells buys (matching sells buys)) →
        ∀ x ∈ tokens.zip weights, x.1 ≠ sixAndHalf.wnear →
          |sixAndHalf.value (run sixAndHalf.answer (Rebalance.rebalanceBy exact sixAndHalf.wnear
            matching .empty targetWeights) sixAndHalf.units).state x.1 -
              sixAndHalf.total * x.2| < 1 := by
  intro tokens weights targetWeights
  have hactions : portfolioActions tokens [0, 1, 0] weights (1 / 20) =
      [.rebalance targetWeights] := by
    have hlist : (tokens.zip weights).filter (fun x ↦ 0 < x.2) = [(⟨"aurora"⟩, 2 / 5),
      (⟨"dai.near"⟩, 1 / 5), (⟨"usdc"⟩, 2 / 5)] := by decide +kernel
    have hfifth : weightFromF64 (1 / 5) = 1 / 5 := by decide +kernel
    have hfifths : weightFromF64 (2 / 5) = 2 / 5 := by decide +kernel
    rw [portfolioActions, if_pos (by decide +kernel)]
    simp only [generateRebalanceActions, hlist, List.map_cons, List.map_nil, hfifth, hfifths]
    rfl
  refine ⟨by decide +kernel, hactions, (reaches_target_iff (by decide) rfl (by decide +kernel)
    hactions (by decide +kernel) (by decide +kernel) .empty).2 ⟨?_, ?_, ?_, ?_⟩⟩
  all_goals decide +kernel

def fiveNear : Market :=
  parity (SortedMap.empty.insert ⟨"dai.near"⟩ ⟨5000000, 6⟩) (by decide +kernel)

/-- A token without a weight is kept, and the one with all the weight is not bought. -/
theorem unweighted_token_kept :
    let targetWeights := SortedMap.empty.insert ⟨"aurora"⟩ 1
    needsRebalancing [0, 1] [1, 0] (1 / 20) = true ∧
      portfolioActions [⟨"aurora"⟩, ⟨"dai.near"⟩] [0, 1] [1, 0] (1 / 20) =
        [.rebalance targetWeights] ∧
      ¬∀ x ∈ [⟨"aurora"⟩, ⟨"dai.near"⟩].zip [1, 0], x.1 ≠ fiveNear.wnear →
        |fiveNear.value (run fiveNear.answer (Rebalance.rebalance exact fiveNear.wnear .empty
          targetWeights) fiveNear.units).state x.1 - fiveNear.total * x.2| < 1 := by
  intro targetWeights
  refine ⟨by decide +kernel, ?_, by decide +kernel⟩
  have hlist : ([(⟨"aurora"⟩ : TokenAccount), ⟨"dai.near"⟩].zip [(1 : ℚ), 0]).filter
      (fun x ↦ 0 < x.2) = [(⟨"aurora"⟩, 1)] := by decide +kernel
  have hweight : weightFromF64 1 = 1 := by decide +kernel
  rw [portfolioActions, if_pos (by decide +kernel)]
  simp only [generateRebalanceActions, hlist, List.map_cons, List.map_nil, hweight]
  rfl

end Target

end Market

end Zaciraci.Trade
