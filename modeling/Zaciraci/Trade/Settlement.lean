import Zaciraci.Trade.Rebalance

namespace Zaciraci.Trade

open Lib

def DirectSwap.sell (swap : DirectSwap) : SellOperation :=
  ⟨swap.sellToken, swap.nearValue, swap.sellExchangeRate⟩

def DirectSwap.buy (swap : DirectSwap) : BuyOperation := ⟨swap.buyToken, swap.nearValue⟩

section Results

variable {α : Type} {p : TokenAccount → Bool} {token : α → TokenAccount}
  {nearValue : α → BigDecimal}

def succeeded (results : List (α × Bool)) : List α := (results.filter fun x ↦ x.2).map Prod.fst

def failed (results : List (α × Bool)) : List α := (results.filter fun x ↦ !x.2).map Prod.fst

theorem worth_succeeded_add (results : List (α × Bool)) :
    worth p token nearValue (succeeded results) + worth p token nearValue (failed results) =
      worth p token nearValue (results.map Prod.fst) := by
  induction results with
  | nil => exact add_zero 0
  | cons result results ih =>
    obtain ⟨x, b⟩ := result
    rw [List.map_cons, worth_cons, ← ih]
    cases b
    · change _ + worth p token nearValue (x :: failed results) = _
      rw [worth_cons]
      exact add_left_comm _ _ _
    · change worth p token nearValue (x :: succeeded results) + _ = _
      rw [worth_cons, add_assoc]
      rfl

theorem worth_relisted {β : Type} (token : α → TokenAccount) (nearValue : α → BigDecimal)
    (f : β → α) (rest : List α) (results : List (β × Bool)) :
    worth p (fun x ↦ token (f x)) (fun x ↦ nearValue (f x)) (succeeded results) +
        worth p token nearValue (rest ++ (failed results).map f) =
      worth p (fun x ↦ token (f x)) (fun x ↦ nearValue (f x)) (results.map Prod.fst) +
        worth p token nearValue rest := by
  rw [worth_append, worth_map, ← worth_succeeded_add]
  ring

theorem mem_of_mem_failed {results : List (α × Bool)} {x : α} (hx : x ∈ failed results) :
    x ∈ results.map Prod.fst := by
  obtain ⟨y, hy, rfl⟩ := List.mem_map.1 hx
  exact List.mem_map_of_mem (List.mem_of_mem_filter hy)

theorem worth_succeeded_le {results : List (α × Bool)}
    (h : ∀ x ∈ results.map Prod.fst, 0 ≤ nearValue x) :
    worth p token nearValue (succeeded results) ≤
      worth p token nearValue (results.map Prod.fst) := by
  rw [← worth_succeeded_add]
  exact le_add_of_nonneg_right (worth_nonneg fun x hx ↦ h x (mem_of_mem_failed hx))

end Results

namespace Rebalance

open Program

abbrev Trace (N : Type) := List (Exchange (RebalanceRequest N) RebalanceAnswer)

section Phases

variable {N : Type} [Zero N] [DecidableEq N] {arith : Arithmetic N} {wnear : TokenAccount}
  {returns : ExpectedReturns}

/-- What a sale exchanges: one swap, or nothing when there is no amount to send. -/
def sale (arith : Arithmetic N) (sell : SellOperation) (toToken : TokenAccount)
    (succeeded : Bool) : Trace N :=
  match arith.ofDecimal (TokenAmount.ofValue sell.nearValue sell.exchangeRate).smallestUnits with
  | none => []
  | some amount =>
    if amount = 0 then [] else [⟨.swap sell.token toToken amount .unprotected, succeeded⟩]

def directSales (arith : Arithmetic N) (direct : List (DirectSwap × Bool)) : Trace N :=
  direct.flatMap fun x ↦ sale arith x.1.sell x.1.buyToken x.2

def remainderSales (arith : Arithmetic N) (wnear : TokenAccount)
    (sold : List (SellOperation × Bool)) : Trace N :=
  sold.flatMap fun x ↦ sale arith x.1 wnear x.2

theorem always_sellValue (sell : SellOperation) (toToken : TokenAccount) :
    Always (fun τ o ↦ ∃ b, o = .ok b ∧ τ = sale arith sell toToken b ∧ (b = true → τ ≠ []))
      (sellValue arith sell.token toToken sell.nearValue sell.exchangeRate) := by
  rw [sellValue]
  simp only [sale]
  cases arith.ofDecimal (TokenAmount.ofValue sell.nearValue sell.exchangeRate).smallestUnits with
  | none => exact always_pure.2 ⟨false, rfl, rfl, nofun⟩
  | some amount =>
    simp only [submit]
    split_ifs
    · exact always_pure.2 ⟨false, rfl, rfl, nofun⟩
    · exact always_ask.2 fun b ↦ always_pure.2 ⟨b, rfl, rfl, fun _ ↦ by simp⟩

structure SwapsTried (arith : Arithmetic N) (swaps : List DirectSwap)
    (direct : List (DirectSwap × Bool)) (τ : Trace N) : Prop where
  swaps_eq : direct.map Prod.fst = swaps
  trace_eq : τ = directSales arith direct
  sent : ∀ x ∈ direct, x.2 = true → sale arith x.1.sell x.1.buyToken true ≠ []

theorem SwapsTried.cons {swap : DirectSwap} {swaps : List DirectSwap}
    {direct : List (DirectSwap × Bool)} {τ : Trace N} {b : Bool}
    (h : SwapsTried arith swaps direct τ)
    (hb : b = true → sale arith swap.sell swap.buyToken b ≠ []) :
    SwapsTried arith (swap :: swaps) ((swap, b) :: direct)
      (sale arith swap.sell swap.buyToken b ++ τ) where
  swaps_eq := congrArg (swap :: ·) h.swaps_eq
  trace_eq := congrArg (sale arith swap.sell swap.buyToken b ++ ·) h.trace_eq
  sent := by
    refine List.forall_mem_cons.2 ⟨?_, h.sent⟩
    rintro rfl
    exact hb rfl

theorem always_runDirectSwap (swap : DirectSwap) (counters : PhaseCounters)
    (sells : List SellOperation) (buys : List BuyOperation) :
    Always (fun τ o ↦ ∃ state, o = .ok state ∧ ∃ b,
        τ = sale arith swap.sell swap.buyToken b ∧ (b = true → τ ≠ []) ∧
        state.2 = (sells ++ (failed [(swap, b)]).map DirectSwap.sell,
          buys ++ (failed [(swap, b)]).map DirectSwap.buy))
      (runDirectSwap arith (counters, sells, buys) swap) := by
  refine (always_sellValue swap.sell swap.buyToken).bind_ok fun τ b hb ↦ ?_
  rw [← List.append_nil τ] at hb
  cases b
  · exact always_pure.2 ⟨_, rfl, false, hb.1, hb.2, rfl⟩
  · exact always_pure.2 ⟨_, rfl, true, hb.1, hb.2, by simp [failed]⟩

theorem always_directSwaps (swaps : List DirectSwap) (counters : PhaseCounters)
    (sells : List SellOperation) (buys : List BuyOperation) :
    Always (fun τ o ↦ ∃ state, o = .ok state ∧ ∃ direct, SwapsTried arith swaps direct τ ∧
        state.2 = (sells ++ (failed direct).map DirectSwap.sell,
          buys ++ (failed direct).map DirectSwap.buy))
      (swaps.foldlM (runDirectSwap arith) (counters, sells, buys)) := by
  induction swaps generalizing counters sells buys with
  | nil => exact always_pure.2 ⟨_, rfl, [], ⟨rfl, rfl, nofun⟩, by simp [failed]⟩
  | cons swap swaps ih =>
    rw [List.foldlM_cons]
    refine (always_runDirectSwap swap counters sells buys).bind_ok ?_
    rintro τ ⟨counters', sells', buys'⟩ ⟨b, rfl, hb, hstate⟩
    cases hstate
    refine (ih _ _ _).mono ?_
    rintro τ' o ⟨state, rfl, direct, hdirect, hlists⟩
    refine ⟨state, rfl, (swap, b) :: direct, hdirect.cons hb, ?_⟩
    rw [hlists]
    cases b <;> simp [failed]

theorem always_remainderSells (sells : List SellOperation) (counters : PhaseCounters) :
    Always (fun τ o ↦ ∃ counters', o = .ok counters' ∧ ∃ sold,
        sold.map Prod.fst = sells ∧ τ = remainderSales arith wnear sold)
      (sells.foldlM (runSell arith wnear) counters) := by
  induction sells generalizing counters with
  | nil => exact always_pure.2 ⟨counters, rfl, [], rfl, rfl⟩
  | cons sell sells ih =>
    rw [List.foldlM_cons]
    refine Always.bind_ok (?_ : Always (fun τ o ↦ ∃ c, o = .ok c ∧ ∃ b, τ = sale arith sell wnear b)
      _) ?_
    · refine (always_sellValue sell wnear).bind_ok fun τ b hb ↦ ?_
      exact always_pure.2 ⟨_, rfl, b, by rw [List.append_nil]; exact hb.1⟩
    · rintro τ c ⟨b, rfl⟩
      refine (ih c).mono ?_
      rintro τ o ⟨c', rfl, sold, rfl, rfl⟩
      exact ⟨c', rfl, (sell, b) :: sold, rfl, rfl⟩

end Phases

section Units

variable {token : TokenAccount} {rate : ExchangeRate}

/-- How many units of `token` the successful swaps of `τ` sent. -/
def unitsSold (token : TokenAccount) (τ : Trace ℕ) : ℕ :=
  (τ.map fun
    | ⟨.swap fromToken _ amount _, (succeeded : Bool)⟩ =>
      if fromToken = token ∧ succeeded then amount else 0
    | _ => 0).sum

@[simp] theorem unitsSold_nil : unitsSold token [] = 0 := rfl

theorem unitsSold_swap (fromToken toToken : TokenAccount) (amount : ℕ) (policy : SlippagePolicy)
    (b : Bool) :
    unitsSold token [⟨.swap fromToken toToken amount policy, b⟩] =
      if fromToken = token ∧ b then amount else 0 := add_zero _

theorem unitsSold_append (τ υ : Trace ℕ) :
    unitsSold token (τ ++ υ) = unitsSold token τ + unitsSold token υ := by
  simp [unitsSold]

theorem unitsSold_sale_le {sell : SellOperation} {toToken : TokenAccount} {b : Bool}
    (hvalue : 0 < sell.nearValue) (hrate : sell.token = token → sell.exchangeRate = rate) :
    (unitsSold token (sale truncated sell toToken b) : ℚ) ≤
      (if sell.token = token ∧ b then sell.nearValue else 0) * max rate.rawRate 0 := by
  have hunits : (TokenAmount.ofValue sell.nearValue sell.exchangeRate).smallestUnits =
      sell.nearValue * sell.exchangeRate.rawRate := by
    simp +contextual [TokenAmount.ofValue, ExchangeRate.isZero]
  have hnonneg : 0 ≤ (if sell.token = token ∧ b then sell.nearValue else 0) *
      max rate.rawRate 0 := by
    refine mul_nonneg ?_ (le_max_right _ _)
    split_ifs
    · exact hvalue.le
    · exact le_rfl
  rw [sale, hunits]
  cases hamount : truncated.ofDecimal (sell.nearValue * sell.exchangeRate.rawRate) with
  | none => exact hnonneg
  | some amount =>
    by_cases hzero : amount = 0
    · simp only [if_pos hzero]
      exact hnonneg
    simp only [if_neg hzero, unitsSold_swap]
    split_ifs with hsold
    · rw [hrate hsold.1] at hamount
      calc (amount : ℚ) ≤ sell.nearValue * rate.rawRate := BigDecimal.toU128_le hamount
        _ ≤ sell.nearValue * max rate.rawRate 0 :=
          mul_le_mul_of_nonneg_left (le_max_left _ _) hvalue.le
    · rw [Nat.cast_zero, zero_mul]

theorem unitsSold_sales_le {α : Type} (f : α → SellOperation) (g : α → TokenAccount)
    {results : List (α × Bool)} (h : ∀ x ∈ results.map Prod.fst, 0 < (f x).nearValue ∧
      ((f x).token = token → (f x).exchangeRate = rate)) :
    (unitsSold token (results.flatMap fun x ↦ sale truncated (f x.1) (g x.1) x.2) : ℚ) ≤
      worth (· = token) (fun x ↦ (f x).token) (fun x ↦ (f x).nearValue) (succeeded results) *
        max rate.rawRate 0 := by
  induction results with
  | nil => simp [succeeded]
  | cons result results ih =>
    obtain ⟨x, b⟩ := result
    rw [List.map_cons, List.forall_mem_cons] at h
    rw [List.flatMap_cons, unitsSold_append, Nat.cast_add]
    refine (add_le_add (unitsSold_sale_le h.1.1 h.1.2) (ih h.2)).trans_eq ?_
    rw [← add_mul]
    congr 1
    cases b
    · simp [succeeded]
    · simp [succeeded]

end Units

section Settle

variable {wnear : TokenAccount} {returns : ExpectedReturns} {sells : List SellOperation}
  {buys : List BuyOperation}

/-- How the operations were carried out: each direct swap and each sale with its result, and
the exchanges of the purchases. Values are conserved for every set of tokens. -/
structure Settled (wnear : TokenAccount) (returns : ExpectedReturns) (sells : List SellOperation)
    (buys : List BuyOperation) (direct : List (DirectSwap × Bool))
    (sold : List (SellOperation × Bool)) (purchases τ : Trace ℕ) : Prop where
  tried : SwapsTried truncated (matchRebalanceOperations sells buys).directSwaps direct
    (directSales truncated direct)
  sells_listed : sold.map Prod.fst =
    (matchRebalanceOperations sells buys).remainingSells ++ (failed direct).map DirectSwap.sell
  buys_listed : ∃ o, Exec (runRemainingBuys truncated wnear returns
    ((matchRebalanceOperations sells buys).remainingBuys ++ (failed direct).map DirectSwap.buy))
    purchases o
  trace_eq : τ = directSales truncated direct ++ remainderSales truncated wnear sold ++ purchases
  sells_conserved : ∀ p, DirectSwap.sold p (succeeded direct) +
    SellOperation.worth p (sold.map Prod.fst) = SellOperation.worth p sells
  buys_conserved : ∀ p, DirectSwap.bought p (succeeded direct) +
    BuyOperation.worth p ((matchRebalanceOperations sells buys).remainingBuys ++
      (failed direct).map DirectSwap.buy) = BuyOperation.worth p buys
  units_le : ∀ x ∈ sells,
    unitsSold x.token (directSales truncated direct ++ remainderSales truncated wnear sold) ≤
      ⌊x.nearValue * x.exchangeRate.rawRate⌋₊

section Conserved

variable (hsells : ∀ x ∈ sells, 0 < x.nearValue) (hbuys : ∀ x ∈ buys, 0 < x.nearValue)
  {direct : List (DirectSwap × Bool)}
  (hdirect : direct.map Prod.fst = (matchRebalanceOperations sells buys).directSwaps)

include hsells hbuys hdirect

theorem sells_conserved (p : TokenAccount → Bool) :
    DirectSwap.sold p (succeeded direct) + SellOperation.worth p
      ((matchRebalanceOperations sells buys).remainingSells ++
        (failed direct).map DirectSwap.sell) = SellOperation.worth p sells := by
  obtain ⟨sells', buys', hperm, -, hmatched⟩ :=
    (mayMatch_matchRebalanceOperations sells buys).matched (fun x hx ↦ (hsells x hx).le)
      fun x hx ↦ (hbuys x hx).le
  refine (worth_relisted SellOperation.token SellOperation.nearValue DirectSwap.sell _ direct).trans
    ?_
  rw [hdirect]
  exact hmatched.sold.trans (worth_perm hperm)

theorem buys_conserved (p : TokenAccount → Bool) :
    DirectSwap.bought p (succeeded direct) + BuyOperation.worth p
      ((matchRebalanceOperations sells buys).remainingBuys ++
        (failed direct).map DirectSwap.buy) = BuyOperation.worth p buys := by
  obtain ⟨sells', buys', -, hperm, hmatched⟩ :=
    (mayMatch_matchRebalanceOperations sells buys).matched (fun x hx ↦ (hsells x hx).le)
      fun x hx ↦ (hbuys x hx).le
  refine (worth_relisted BuyOperation.token BuyOperation.nearValue DirectSwap.buy _ direct).trans ?_
  rw [hdirect]
  exact hmatched.bought.trans (worth_perm hperm)

theorem units_le {sold : List (SellOperation × Bool)} (hnodup : (sells.map (·.token)).Nodup)
    (hsold : sold.map Prod.fst = (matchRebalanceOperations sells buys).remainingSells ++
      (failed direct).map DirectSwap.sell) {x : SellOperation} (hx : x ∈ sells) :
    unitsSold x.token (directSales truncated direct ++ remainderSales truncated wnear sold) ≤
      ⌊x.nearValue * x.exchangeRate.rawRate⌋₊ := by
  obtain ⟨sells', buys', hperm, hperm', hmatched⟩ :=
    (mayMatch_matchRebalanceOperations sells buys).matched (fun x hx ↦ (hsells x hx).le)
      fun x hx ↦ (hbuys x hx).le
  have hkeys : ∀ y ∈ sells', 0 < y.nearValue ∧
      (y.token = x.token → y.exchangeRate = x.exchangeRate) := by
    intro y hy
    refine ⟨hsells y (hperm.subset hy), fun h ↦ ?_⟩
    rw [List.inj_on_of_nodup_map hnodup (hperm.subset hy) hx h]
  obtain ⟨hswaps, hrest, -⟩ := hmatched.forall_sales
    (P := fun token rate ↦ token = x.token → rate = x.exchangeRate) hkeys
    fun y hy ↦ hbuys y (hperm'.subset hy)
  rw [← hdirect] at hswaps
  have hlisted : ∀ y ∈ sold.map Prod.fst, 0 < y.nearValue ∧
      (y.token = x.token → y.exchangeRate = x.exchangeRate) := by
    rw [hsold, List.forall_mem_append, List.forall_mem_map]
    exact ⟨hrest, fun d hd ↦ hswaps d (mem_of_mem_failed hd)⟩
  have hdirectUnits := unitsSold_sales_le DirectSwap.sell DirectSwap.buyToken hswaps
  have hsoldUnits := unitsSold_sales_le id (fun _ ↦ wnear) hlisted
  have hpart : SellOperation.worth (· = x.token) (succeeded sold) ≤
      SellOperation.worth (· = x.token) (sold.map Prod.fst) :=
    worth_succeeded_le fun y hy ↦ (hlisted y hy).1.le
  have htotal := sells_conserved hsells hbuys hdirect (· = x.token)
  rw [← hsold, SellOperation.worth, worth_of_mem hnodup hx] at htotal
  have hunits : (unitsSold x.token
      (directSales truncated direct ++ remainderSales truncated wnear sold) : ℚ) ≤
      x.nearValue * max x.exchangeRate.rawRate 0 := by
    rw [unitsSold_append, Nat.cast_add, ← htotal, add_mul]
    refine add_le_add hdirectUnits (hsoldUnits.trans ?_)
    exact mul_le_mul_of_nonneg_right hpart (le_max_right _ _)
  rcases le_total 0 x.exchangeRate.rawRate with hrate | hrate
  · rw [max_eq_left hrate] at hunits
    exact Nat.le_floor hunits
  · rw [max_eq_right hrate, mul_zero] at hunits
    exact (Nat.cast_le.1 (hunits.trans_eq Nat.cast_zero.symm)).trans (Nat.zero_le _)

end Conserved

theorem always_settle (hnodup : (sells.map (·.token)).Nodup)
    (hsells : ∀ x ∈ sells, 0 < x.nearValue) (hbuys : ∀ x ∈ buys, 0 < x.nearValue) :
    Always (fun τ _ ↦ ∃ direct sold purchases,
        Settled wnear returns sells buys direct sold purchases τ)
      (settle truncated wnear returns sells buys) := by
  refine Always.bind_ok (always_directSwaps _ _ _ _) ?_
  rintro τ₁ ⟨counters, fallbackSells, fallbackBuys⟩ ⟨direct, htried, hlists⟩
  cases hlists
  refine Always.bind_ok (always_remainderSells _ _) ?_
  rintro τ₂ counters' ⟨sold, hsold, rfl⟩
  have hsettled : ∀ τ₃ o, Exec (runRemainingBuys truncated wnear returns
      ((matchRebalanceOperations sells buys).remainingBuys ++ (failed direct).map DirectSwap.buy))
      τ₃ o → ∃ direct' sold' purchases, Settled wnear returns sells buys direct' sold' purchases
        (τ₁ ++ (remainderSales truncated wnear sold ++ τ₃)) := by
    intro τ₃ o hbought
    refine ⟨direct, sold, τ₃, ?_, hsold, ⟨o, hbought⟩, ?_, ?_, ?_, ?_⟩
    · exact htried.trace_eq ▸ htried
    · rw [htried.trace_eq, List.append_assoc]
    · rw [hsold]
      exact sells_conserved hsells hbuys htried.swaps_eq
    · exact buys_conserved hsells hbuys htried.swaps_eq
    · exact fun x hx ↦ units_le hsells hbuys htried.swaps_eq hnodup hsold hx
  refine Always.bind (fun τ o h ↦ h) (fun τ₃ counters'' h ↦ ?_) (fun τ₃ e h ↦ hsettled τ₃ _ h)
    fun τ₃ m h ↦ hsettled τ₃ _ h
  rw [← List.append_nil τ₃] at h
  exact Always.ite (always_fail.2 (hsettled _ _ h)) (always_pure.2 (hsettled _ _ h))

/-- However the swaps come out, what the direct swaps moved and what is left for wrapped NEAR
make up the operations, and no token is sold beyond its operation. -/
theorem settle_conserves (hnodup : (sells.map (·.token)).Nodup)
    (hsells : ∀ x ∈ sells, 0 < x.nearValue) (hbuys : ∀ x ∈ buys, 0 < x.nearValue) {τ : Trace ℕ}
    {o : Outcome String Unit} (h : Exec (settle truncated wnear returns sells buys) τ o) :
    ∃ direct sold purchases, Settled wnear returns sells buys direct sold purchases τ :=
  always_settle hnodup hsells hbuys τ o h

def wrappingOnly (wnear : TokenAccount) :
    (q : RebalanceRequest ℕ) → Unit → RebalanceAnswer q × Unit
  | .holdings _, s => (SortedMap.empty, s)
  | .latestRate _, s => (Except.ok none, s)
  | .swap _ toToken _ _, s => (decide (toToken = wnear), s)
  | .available, s => (yoctoPerNear, s)

theorem settle_conserves_wrappingOnly :
    let sells : List SellOperation := [⟨⟨"usdt.near"⟩, 5, ⟨3 / 2, 6⟩⟩]
    let buys : List BuyOperation := [⟨⟨"dai.near"⟩, 7 / 3⟩, ⟨⟨"aurora"⟩, 2⟩]
    let report := run (wrappingOnly ⟨"wrap.near"⟩)
      (settle truncated ⟨"wrap.near"⟩ .empty sells buys) ()
    unitsSold ⟨"usdt.near"⟩ report.trace = 7 ∧
      ∃ direct sold purchases,
        Settled ⟨"wrap.near"⟩ .empty sells buys direct sold purchases report.trace :=
  ⟨by decide +kernel, settle_conserves (by decide) (by decide) (by decide +kernel)
    (runs_run (wrappingOnly ⟨"wrap.near"⟩) (settle truncated ⟨"wrap.near"⟩ .empty
      [⟨⟨"usdt.near"⟩, 5, ⟨3 / 2, 6⟩⟩] [⟨⟨"dai.near"⟩, 7 / 3⟩, ⟨⟨"aurora"⟩, 2⟩]) ()).exec⟩

end Settle

end Rebalance

end Zaciraci.Trade
