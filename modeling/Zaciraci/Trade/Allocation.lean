import Mathlib.Algebra.BigOperators.Ring.List
import Zaciraci.Lib.Shares
import Zaciraci.Trade.Settlement

namespace Zaciraci.Trade

open Lib Program

namespace Rebalance

/-- Amounts are `u128`, but quotients are not cut. -/
def exactQuotients : Arithmetic ℕ := { truncated with div := (· / ·) }

def swapRequests {N : Type} (τ : Trace N) : List (TokenAccount × TokenAccount × N) :=
  τ.filterMap fun
    | ⟨.swap fromToken toToken amount _, _⟩ => some (fromToken, toToken, amount)
    | _ => none

section Amounts

variable {N : Type} [Zero N] (arith : Arithmetic N) (wnear : TokenAccount)

def purchaseAmounts (available : N) (ratio : Option BigDecimal) : N → List BuyOperation → List N
  | _, [] => []
  | allocated, buy :: buys =>
    let amount := purchaseAmount arith available allocated ratio buys.isEmpty buy.nearValue
    amount :: purchaseAmounts available ratio (arith.add allocated amount) buys

theorem length_purchaseAmounts (available : N) (ratio : Option BigDecimal) (allocated : N)
    (buys : List BuyOperation) :
    (purchaseAmounts arith available ratio allocated buys).length = buys.length := by
  induction buys generalizing allocated with
  | nil => rfl
  | cons buy buys ih => exact congrArg (· + 1) (ih _)

variable [DecidableEq N]

def purchases (buys : List BuyOperation) (amounts : List N) :
    List (TokenAccount × TokenAccount × N) :=
  ((buys.zip amounts).filter fun p ↦ p.2 ≠ 0).map fun p ↦ (wnear, p.1.token, p.2)

theorem always_runBuys (returns : ExpectedReturns) (available : N) (ratio : Option BigDecimal)
    (allocated : N) (counters : PhaseCounters) (buys : List BuyOperation) :
    Always (fun τ _ ↦ swapRequests τ =
        purchases wnear buys (purchaseAmounts arith available ratio allocated buys))
      (runBuys arith wnear returns available ratio allocated counters buys) := by
  induction buys generalizing allocated counters with
  | nil => exact always_pure.2 rfl
  | cons buy buys ih =>
    rw [runBuys, purchaseAmounts]
    generalize purchaseAmount arith available allocated ratio buys.isEmpty buy.nearValue = amount
    rw [submit]
    split_ifs with hzero
    · refine (ih _ _).mono fun τ o hτ ↦ hτ.trans ?_
      simp [purchases, hzero]
    · refine always_perform.2 fun b ↦ (ih _ _).mono fun τ o hτ ↦ ?_
      change (wnear, buy.token, amount) :: swapRequests τ = _
      rw [hτ]
      simp [purchases, hzero]

end Amounts

section Scaled

variable {available : ℕ} {r : BigDecimal}

def scaled (r : BigDecimal) (buy : BuyOperation) : ℕ :=
  yoctoToU128 (buy.nearValue * r * yoctoPerNear)

theorem purchaseAmounts_scaled (allocated : ℕ) (buys : List BuyOperation) :
    purchaseAmounts exactQuotients available (some r) allocated buys =
      handOut (u128Bound - 1) available (scaled r) allocated buys := by
  induction buys generalizing allocated with
  | nil => rfl
  | cons buy buys ih =>
    cases buys with
    | nil => rfl
    | cons next buys => exact congrArg _ (ih _)

theorem purchaseAmounts_unscaled (allocated : ℕ) (buys : List BuyOperation) :
    purchaseAmounts exactQuotients available none allocated buys =
      buys.map fun buy ↦ yoctoToU128 (buy.nearValue * yoctoPerNear) := by
  induction buys generalizing allocated with
  | nil => rfl
  | cons buy buys ih => exact congrArg _ (ih _)

end Scaled

section Assigned

variable {available : ℕ} {buys : List BuyOperation}

/-- By how much the purchases have to be cut down, where they are worth more than there is. -/
def purchaseRatio {N : Type} (arith : Arithmetic N) (available : N) (buys : List BuyOperation) :
    Option BigDecimal :=
  let availableValue := arith.div (arith.toDecimal available) yoctoPerNear
  let totalValue := (buys.map BuyOperation.nearValue).sum
  if availableValue < totalValue then some (arith.div availableValue totalValue) else none

def assigned {N : Type} [Zero N] (arith : Arithmetic N) (available : N)
    (buys : List BuyOperation) : List N :=
  purchaseAmounts arith available (purchaseRatio arith available buys) 0 buys

theorem always_runRemainingBuys (wnear : TokenAccount) (returns : ExpectedReturns)
    (hbuys : buys ≠ []) :
    Always (fun τ _ ↦ ∃ (available : ℕ) (σ : Trace ℕ), τ = ⟨.available, available⟩ :: σ ∧
        (0 < available →
          swapRequests σ = purchases wnear buys (assigned exactQuotients available buys)))
      (runRemainingBuys exactQuotients wnear returns buys) := by
  rw [runRemainingBuys, if_neg (by simpa using hbuys)]
  refine always_perform.2 fun (available : ℕ) ↦ ?_
  change Always _ (if available = 0 then pure ⟨0, 0⟩ else runBuys exactQuotients wnear
    returns available (purchaseRatio exactQuotients available buys) 0 ⟨0, 0⟩ buys)
  split_ifs with hzero
  · exact always_pure.2 ⟨available, [], rfl, fun hpos ↦ absurd hzero (Nat.ne_of_gt hpos)⟩
  · exact (always_runBuys _ _ _ _ _ _ _ _).mono fun σ _ hσ ↦ ⟨available, σ, rfl, fun _ ↦ hσ⟩

theorem purchaseRatio_eq (available : ℕ) (buys : List BuyOperation) :
    purchaseRatio exactQuotients available buys =
      if (available : ℚ) < (buys.map BuyOperation.nearValue).sum * yoctoPerNear then
        some (available / yoctoPerNear / (buys.map BuyOperation.nearValue).sum) else none := by
  have hpos : (0 : ℚ) < yoctoPerNear := by norm_num [yoctoPerNear]
  change (if (available : ℚ) / yoctoPerNear < _ then _ else none) = _
  rw [if_congr (div_lt_iff₀ hpos) rfl rfl]
  rfl

theorem scaled_eq {buy : BuyOperation} {total : ℚ} (hnonneg : 0 ≤ buy.nearValue)
    (htotal : 0 < total) (hle : buy.nearValue ≤ total) (havailable : available < u128Bound) :
    scaled (available / yoctoPerNear / total) buy = ⌊buy.nearValue * available / total⌋₊ := by
  have hpos : (0 : ℚ) < yoctoPerNear := by norm_num [yoctoPerNear]
  have hshare : buy.nearValue * (available / yoctoPerNear / total) * yoctoPerNear =
      buy.nearValue * available / total := by field_simp
  have hfits : buy.nearValue * available / total < u128Bound :=
    calc buy.nearValue * available / total ≤ total * available / total := by gcongr
      _ = available := mul_div_cancel_left₀ _ htotal.ne'
      _ < u128Bound := by exact_mod_cast havailable
  rw [scaled, hshare, yoctoToU128, BigDecimal.toU128_of_lt (by positivity) hfits,
    Option.getD_some]

theorem sum_shares (available : ℕ) {init : List BuyOperation} {last : BuyOperation} {total : ℚ}
    (hnonneg : ∀ buy ∈ init ++ [last], 0 ≤ buy.nearValue) (htotal : 0 < total)
    (hsum : ((init ++ [last]).map BuyOperation.nearValue).sum = total) :
    let share := fun buy : BuyOperation ↦ ⌊buy.nearValue * available / total⌋₊
    (init.map share).sum + share last ≤ available ∧
      available ≤ (init.map share).sum + share last + init.length := by
  intro share
  have hwhole : (init.map fun buy ↦ buy.nearValue * available / total).sum +
      last.nearValue * available / total = available := by
    have hvalues : (init.map BuyOperation.nearValue).sum + last.nearValue = total := by
      simpa using hsum
    simp only [mul_div_assoc]
    rw [List.sum_map_mul_right, ← add_mul, hvalues, mul_div_cancel₀ _ htotal.ne']
  have hexact (buy) (hbuy : buy ∈ init ++ [last]) :
      0 ≤ buy.nearValue * available / total := by
    have hvalue := hnonneg buy hbuy
    positivity
  have henough := sum_floor_add_floor_le
    (List.forall_mem_map.2 fun buy hbuy ↦ hexact buy (List.mem_append_left _ hbuy))
    (hexact last (by simp)) hwhole
  have hdust := whole_le_sum_floor_add hwhole
  rw [List.map_map] at henough hdust
  rw [List.length_map] at hdust
  exact ⟨henough, hdust⟩

theorem assigned_of_lt (hbuys : buys ≠ []) (hnonneg : ∀ buy ∈ buys, 0 ≤ buy.nearValue)
    (htotal : 0 < (buys.map BuyOperation.nearValue).sum) (havailable : available < u128Bound)
    (hlt : (available : ℚ) < (buys.map BuyOperation.nearValue).sum * yoctoPerNear) :
    let share := fun buy : BuyOperation ↦
      ⌊buy.nearValue * available / (buys.map BuyOperation.nearValue).sum⌋₊
    ∃ last, assigned exactQuotients available buys = buys.dropLast.map share ++ [last] ∧
      (assigned exactQuotients available buys).sum = available ∧
      share (buys.getLast hbuys) ≤ last ∧ last ≤ share (buys.getLast hbuys) + buys.length := by
  obtain rfl | ⟨init, last, rfl⟩ := List.eq_nil_or_concat' buys
  · exact absurd rfl hbuys
  rw [assigned, purchaseRatio_eq, if_pos hlt]
  have hle (buy) (hbuy : buy ∈ init ++ [last]) :
      buy.nearValue ≤ ((init ++ [last]).map BuyOperation.nearValue).sum :=
    List.single_le_sum (List.forall_mem_map.2 hnonneg) _ (List.mem_map_of_mem hbuy)
  generalize hsum : ((init ++ [last]).map BuyOperation.nearValue).sum = total at htotal hle ⊢
  intro share
  obtain ⟨henough, hdust⟩ := sum_shares available hnonneg htotal hsum
  change (init.map share).sum + share last ≤ available at henough
  change available ≤ (init.map share).sum + share last + _ at hdust
  have hinit : init.map (scaled (available / yoctoPerNear / total)) = init.map share :=
    List.map_congr_left fun buy hbuy ↦
      have hmem := List.mem_append_left [last] hbuy
      scaled_eq (hnonneg buy hmem) htotal (hle buy hmem) havailable
  rw [purchaseAmounts_scaled, handOut_concat init last 0 (by rw [hinit]; omega), hinit]
  refine ⟨available - (0 + (init.map share).sum), by simp, ?_, ?_, ?_⟩
  · rw [List.sum_append, List.sum_singleton]
    omega
  · rw [List.getLast_append_singleton]
    omega
  · rw [List.getLast_append_singleton, List.length_append]
    omega

theorem assigned_of_le (hnonneg : ∀ buy ∈ buys, 0 ≤ buy.nearValue)
    (havailable : available < u128Bound)
    (hle : (buys.map BuyOperation.nearValue).sum * yoctoPerNear ≤ (available : ℚ)) :
    assigned exactQuotients available buys =
      buys.map fun buy ↦ ⌊buy.nearValue * (yoctoPerNear : ℚ)⌋₊ := by
  rw [assigned, purchaseRatio_eq, if_neg hle.not_gt, purchaseAmounts_unscaled]
  refine List.map_congr_left fun buy hbuy ↦ ?_
  have hvalue : 0 ≤ buy.nearValue * (yoctoPerNear : ℚ) :=
    mul_nonneg (hnonneg buy hbuy) (Nat.cast_nonneg _)
  have hsum : buy.nearValue ≤ (buys.map BuyOperation.nearValue).sum :=
    List.single_le_sum (List.forall_mem_map.2 hnonneg) _ (List.mem_map_of_mem hbuy)
  have hfits : buy.nearValue * (yoctoPerNear : ℚ) < u128Bound :=
    calc buy.nearValue * (yoctoPerNear : ℚ)
        ≤ (buys.map BuyOperation.nearValue).sum * yoctoPerNear := by gcongr
      _ ≤ available := hle
      _ < u128Bound := by exact_mod_cast havailable
  rw [yoctoToU128, BigDecimal.toU128_of_lt hvalue hfits, Option.getD_some]

end Assigned

/-- Every run of the purchases reads the balance and never spends more than it. If they are worth
more, each but the last gets its proportion rounded down and the last one the rest, which is its
own proportion and at most one unit for each purchase; otherwise each gets its own value. -/
theorem runRemainingBuys_budget (wnear : TokenAccount) (returns : ExpectedReturns)
    (buys : List BuyOperation) (hbuys : buys ≠ []) (hpos : ∀ buy ∈ buys, 0 < buy.nearValue)
    (τ : Trace ℕ) (o : Outcome String PhaseCounters)
    (h : Exec (runRemainingBuys exactQuotients wnear returns buys) τ o) :
    ∃ (available : ℕ) (σ : Trace ℕ), τ = ⟨.available, available⟩ :: σ ∧
      (0 < available → available < u128Bound →
        let total := (buys.map BuyOperation.nearValue).sum
        let share := fun buy : BuyOperation ↦ ⌊buy.nearValue * available / total⌋₊
        ∃ amounts : List ℕ, amounts.length = buys.length ∧
          swapRequests σ = purchases wnear buys amounts ∧
          amounts.sum ≤ available ∧
          (available < total * yoctoPerNear → amounts.sum = available ∧
            ∃ last, amounts = buys.dropLast.map share ++ [last] ∧
              share (buys.getLast hbuys) ≤ last ∧
              last ≤ share (buys.getLast hbuys) + buys.length) ∧
          (total * yoctoPerNear ≤ available →
            amounts = buys.map fun buy ↦ ⌊buy.nearValue * (yoctoPerNear : ℚ)⌋₊)) := by
  obtain ⟨available, σ, rfl, hsent⟩ := always_runRemainingBuys wnear returns hbuys τ o h
  refine ⟨available, σ, rfl, ?_⟩
  intro havailable hbound total share
  have hnonneg : ∀ buy ∈ buys, 0 ≤ buy.nearValue := fun buy hbuy ↦ (hpos buy hbuy).le
  have htotal : 0 < total := List.sum_pos _ (List.forall_mem_map.2 hpos) (by simpa using hbuys)
  refine ⟨assigned exactQuotients available buys, length_purchaseAmounts .., hsent havailable, ?_⟩
  by_cases hlt : (available : ℚ) < total * yoctoPerNear
  · obtain ⟨last, heq, hsum, hle, hge⟩ := assigned_of_lt hbuys hnonneg htotal hbound hlt
    exact ⟨hsum.le, fun _ ↦ ⟨hsum, last, heq, hle, hge⟩, fun hle ↦ absurd hlt hle.not_gt⟩
  · have heq := assigned_of_le hnonneg hbound (not_lt.1 hlt)
    refine ⟨?_, fun h ↦ absurd h hlt, fun _ ↦ heq⟩
    have hvalues : ∀ x ∈ buys.map fun buy ↦ buy.nearValue * (yoctoPerNear : ℚ), 0 ≤ x :=
      List.forall_mem_map.2 fun buy hbuy ↦ mul_nonneg (hnonneg buy hbuy) (Nat.cast_nonneg _)
    have hfloor := sum_floor_le hvalues
    rw [List.map_map, List.sum_map_mul_right] at hfloor
    rw [heq]
    exact_mod_cast hfloor.trans (not_lt.1 hlt)

def tenUnits : (q : RebalanceRequest ℕ) → Unit → RebalanceAnswer q × Unit
  | .holdings _, s => (SortedMap.empty, s)
  | .latestRate _, s => (Except.ok none, s)
  | .swap _ _ _ _, s => (true, s)
  | .available, s => ((10 : ℕ), s)

theorem runRemainingBuys_budget_thirds :
    let buys : List BuyOperation := [⟨⟨"dai.near"⟩, 1⟩, ⟨⟨"aurora"⟩, 2⟩]
    let report := run tenUnits (runRemainingBuys exactQuotients ⟨"wrap.near"⟩ .empty buys) ()
    swapRequests report.trace =
        [(⟨"wrap.near"⟩, ⟨"dai.near"⟩, 3), (⟨"wrap.near"⟩, ⟨"aurora"⟩, 7)] ∧
      ∃ (σ : Trace ℕ) (amounts : List ℕ),
        report.trace = ⟨.available, (10 : ℕ)⟩ :: σ ∧
        swapRequests σ = purchases ⟨"wrap.near"⟩ buys amounts ∧ amounts.sum = 10 := by
  intro buys report
  have hexec := (runs_run tenUnits
    (runRemainingBuys exactQuotients ⟨"wrap.near"⟩ .empty buys) ()).exec
  obtain ⟨available, σ, htrace, hbudget⟩ := runRemainingBuys_budget _ _ buys (by decide)
    (by decide +kernel) report.trace _ hexec
  have hread : report.trace.head? = some ⟨.available, (10 : ℕ)⟩ := rfl
  rw [htrace] at hread
  cases hread
  obtain ⟨amounts, -, hsent, -, hscaled, -⟩ := hbudget (by decide) (by decide)
  exact ⟨by decide +kernel, σ, amounts, htrace, hsent, (hscaled (by decide +kernel)).1⟩

end Rebalance

section AddPositions

/-- The weights of new positions in basis points, with the division the weights use. -/
def weightsBps (div : BigDecimal → BigDecimal → BigDecimal)
    (addPositions : List (ℕ × BigDecimal)) : List (ℕ × ℕ) :=
  let totalWeight := (addPositions.map Prod.snd).sum
  addPositions.map fun position ↦ (position.1,
    if totalWeight = 0 then 0
    else (BigDecimal.toU128 (div position.2 totalWeight * 10000)).getD 0)

def allocateAddPositionAmountsWith (div : BigDecimal → BigDecimal → BigDecimal)
    (addPositions : List (ℕ × BigDecimal)) (balance : ℕ) : List (ℕ × ℕ) :=
  let weights := weightsBps div addPositions
  allocateFrom balance (weights.map Prod.snd).sum 0 weights

theorem allocateAddPositionAmountsWith_div :
    allocateAddPositionAmountsWith BigDecimal.div = allocateAddPositionAmounts := rfl

/-- The loop of the allocation, where an overflow of `u128` gives no result. -/
def checkedAllocateFrom (balance totalBps : ℕ) : ℕ → List (ℕ × ℕ) → Option (List (ℕ × ℕ))
  | _, [] => some []
  | allocated, [(idx, _)] => some [(idx, balance - allocated)]
  | allocated, (idx, bps) :: rest => do
    let amount ← (if 0 < totalBps then do
      let whole ← checkedMul (balance / totalBps) bps
      let part ← checkedMul (balance % totalBps) bps
      checkedAdd whole (part / totalBps) else some 0)
    let allocations ← checkedAllocateFrom balance totalBps (saturatingAdd allocated amount) rest
    some ((idx, amount) :: allocations)

def checkedAllocateAddPositionAmountsWith (div : BigDecimal → BigDecimal → BigDecimal)
    (addPositions : List (ℕ × BigDecimal)) (balance : ℕ) : Option (List (ℕ × ℕ)) := do
  let weights := weightsBps div addPositions
  let totalBps ← (weights.map Prod.snd).foldlM checkedAdd 0
  checkedAllocateFrom balance totalBps 0 weights

variable {balance totalBps : ℕ}

def bpsShare (balance totalBps bps : ℕ) : ℕ := if totalBps = 0 then 0 else balance * bps / totalBps

theorem bpsShare_eq (balance totalBps bps : ℕ) :
    (if 0 < totalBps then balance / totalBps * bps + balance % totalBps * bps / totalBps else 0) =
      bpsShare balance totalBps bps := by
  rw [bpsShare]
  split_ifs with hpos hzero
  · omega
  · exact div_mul_add_mod_mul_div balance bps hpos
  · rfl
  · omega

theorem sum_bpsShare_le (balance : ℕ) {weights : List ℕ} (h : weights.sum ≤ totalBps) :
    (weights.map (bpsShare balance totalBps)).sum ≤ balance := by
  obtain rfl | hpos := Nat.eq_zero_or_pos totalBps
  · have hshare : bpsShare balance 0 = fun _ ↦ 0 := rfl
    simp [hshare]
  · have hshare : bpsShare balance totalBps = fun bps ↦ balance * bps / totalBps :=
      funext fun _ ↦ if_neg hpos.ne'
    calc (weights.map (bpsShare balance totalBps)).sum
        = (weights.map fun bps ↦ balance * bps / totalBps).sum := by rw [hshare]
      _ ≤ balance * weights.sum / totalBps := sum_div_le balance totalBps weights
      _ ≤ balance * totalBps / totalBps := by gcongr
      _ = balance := Nat.mul_div_cancel balance hpos

theorem allocateFrom_eq_zip (allocated : ℕ) (weights : List (ℕ × ℕ)) :
    allocateFrom balance totalBps allocated weights =
      (weights.map Prod.fst).zip (handOut (u128Bound - 1) balance
        (fun w ↦ bpsShare balance totalBps w.2) allocated weights) := by
  induction weights generalizing allocated with
  | nil => rfl
  | cons w weights ih =>
    cases weights with
    | nil => rfl
    | cons next weights =>
      rw [allocateFrom, bpsShare_eq, ih]
      · rfl
      · simp

theorem allocateFrom_concat {init : List (ℕ × ℕ)} {last : ℕ × ℕ} (hbalance : balance < u128Bound)
    (h : ((init ++ [last]).map Prod.snd).sum ≤ totalBps) :
    let allocations := allocateFrom balance totalBps 0 (init ++ [last])
    allocations.map Prod.fst = (init ++ [last]).map Prod.fst ∧
      (allocations.map Prod.snd).dropLast =
        init.map (fun w ↦ bpsShare balance totalBps w.2) ∧
      (allocations.map Prod.snd).sum = balance := by
  have hinit : (init.map fun w ↦ bpsShare balance totalBps w.2).sum ≤ balance := by
    have hle : (init.map Prod.snd).sum ≤ totalBps := by
      rw [List.map_append, List.sum_append] at h
      omega
    have hshares := sum_bpsShare_le balance hle
    rwa [List.map_map] at hshares
  intro allocations
  have hamounts : allocations.map Prod.snd = handOut (u128Bound - 1) balance
      (fun w ↦ bpsShare balance totalBps w.2) 0 (init ++ [last]) := by
    rw [show allocations = _ from allocateFrom_eq_zip 0 (init ++ [last])]
    exact List.map_snd_zip (by simp)
  refine ⟨?_, ?_, ?_⟩
  · rw [show allocations = _ from allocateFrom_eq_zip 0 (init ++ [last])]
    exact List.map_fst_zip (by simp)
  · rw [hamounts, handOut_concat init last 0 (by omega), List.dropLast_concat]
  · rw [hamounts]
    exact sum_handOut init last (by omega)

theorem foldlM_checkedAdd (l : List ℕ) (a : ℕ) (h : a + l.sum < u128Bound) :
    l.foldlM checkedAdd a = some (a + l.sum) := by
  induction l generalizing a with
  | nil => rfl
  | cons b l ih =>
    rw [List.sum_cons, ← Nat.add_assoc] at h ⊢
    rw [List.foldlM_cons, checkedAdd_of_lt (by omega), Option.bind_eq_bind, Option.bind_some,
      ih _ h]

theorem checkedAmount_eq {bps : ℕ} (hbalance : balance < u128Bound) (htotal : totalBps ≤ 10000)
    (h : bps ≤ totalBps) :
    (if 0 < totalBps then do
      let whole ← checkedMul (balance / totalBps) bps
      let part ← checkedMul (balance % totalBps) bps
      checkedAdd whole (part / totalBps) else some 0) =
      some (bpsShare balance totalBps bps) := by
  rw [← bpsShare_eq]
  split_ifs with hpos
  · have hsum : balance / totalBps * bps + balance % totalBps * bps / totalBps < u128Bound :=
      calc balance / totalBps * bps + balance % totalBps * bps / totalBps
          = balance * bps / totalBps := div_mul_add_mod_mul_div balance bps hpos
        _ ≤ balance * totalBps / totalBps := by gcongr
        _ = balance := Nat.mul_div_cancel balance hpos
        _ < u128Bound := hbalance
    have hwhole := (Nat.le_add_right _ _).trans_lt hsum
    have hpart : balance % totalBps * bps ≤ 10000 * 10000 :=
      Nat.mul_le_mul ((Nat.mod_lt _ hpos).le.trans htotal) (h.trans htotal)
    have hbound : 10000 * 10000 < u128Bound := by decide
    rw [checkedMul_of_lt hwhole, checkedMul_of_lt (hpart.trans_lt hbound)]
    exact checkedAdd_of_lt hsum
  · rfl

theorem checkedAllocateFrom_eq (hbalance : balance < u128Bound) (htotal : totalBps ≤ 10000)
    (allocated : ℕ) (weights : List (ℕ × ℕ)) (h : ∀ w ∈ weights, w.2 ≤ totalBps) :
    checkedAllocateFrom balance totalBps allocated weights =
      some (allocateFrom balance totalBps allocated weights) := by
  induction weights generalizing allocated with
  | nil => rfl
  | cons w weights ih =>
    rw [List.forall_mem_cons] at h
    cases weights with
    | nil => rfl
    | cons next weights =>
      rw [checkedAllocateFrom, checkedAmount_eq hbalance htotal h.1, allocateFrom, bpsShare_eq]
      · rw [Option.bind_eq_bind, Option.bind_some, ih _ h.2]
        rfl
      all_goals simp

section Exact

variable {positions : List (ℕ × BigDecimal)}

def exactBps (positions : List (ℕ × BigDecimal)) (position : ℕ × BigDecimal) : ℕ :=
  ⌊10000 * position.2 / (positions.map Prod.snd).sum⌋₊

theorem weightsBps_eq (hnonneg : ∀ p ∈ positions, 0 ≤ p.2)
    (htotal : 0 < (positions.map Prod.snd).sum) :
    weightsBps (· / ·) positions = positions.map fun p ↦ (p.1, exactBps positions p) := by
  refine List.map_congr_left fun p hp ↦ ?_
  have hle : p.2 ≤ (positions.map Prod.snd).sum :=
    List.single_le_sum (List.forall_mem_map.2 hnonneg) _ (List.mem_map_of_mem hp)
  have hshare : p.2 / (positions.map Prod.snd).sum * 10000 =
      10000 * p.2 / (positions.map Prod.snd).sum := by ring
  have hpart : p.2 / (positions.map Prod.snd).sum ≤ 1 := div_le_one_of_le₀ hle htotal.le
  have hbound : (10000 : ℚ) < u128Bound := by norm_num [u128Bound]
  rw [if_neg htotal.ne', BigDecimal.toU128_of_lt
    (mul_nonneg (div_nonneg (hnonneg p hp) htotal.le) (by norm_num)) (by linarith), hshare]
  rfl

theorem sum_exactBps_le (hnonneg : ∀ p ∈ positions, 0 ≤ p.2)
    (htotal : 0 < (positions.map Prod.snd).sum) :
    (positions.map (exactBps positions)).sum ≤ 10000 := by
  have hfloor := sum_floor_le (List.forall_mem_map.2 fun p (hp : p ∈ positions) ↦
    div_nonneg (mul_nonneg (by norm_num : (0 : ℚ) ≤ 10000) (hnonneg p hp)) htotal.le)
  have hsum : (positions.map fun p ↦ 10000 * p.2 / (positions.map Prod.snd).sum).sum =
      (10000 : ℕ) := by
    simp only [mul_div_right_comm]
    rw [List.sum_map_mul_left, div_mul_cancel₀ _ htotal.ne', Nat.cast_ofNat]
  rw [hsum, List.map_map] at hfloor
  exact_mod_cast hfloor

/-- Nothing overflows, the positions stay in order, each but the last gets its basis points of the
balance rounded down, and together they get all of it. -/
theorem allocateAddPositionAmounts_exact (positions : List (ℕ × BigDecimal)) (balance : U128)
    (hne : positions ≠ []) (hnonneg : ∀ p ∈ positions, 0 ≤ p.2)
    (htotal : 0 < (positions.map Prod.snd).sum) :
    let totalBps := (positions.map (exactBps positions)).sum
    let allocations := allocateAddPositionAmountsWith (· / ·) positions balance.toNat
    checkedAllocateAddPositionAmountsWith (· / ·) positions balance.toNat = some allocations ∧
      allocations.map Prod.fst = positions.map Prod.fst ∧
      (allocations.map Prod.snd).dropLast = positions.dropLast.map (fun p ↦
        if totalBps = 0 then 0 else balance.toNat * exactBps positions p / totalBps) ∧
      (allocations.map Prod.snd).sum = balance.toNat := by
  intro totalBps allocations
  have hbps : totalBps ≤ 10000 := sum_exactBps_le hnonneg htotal
  have hsnd : (weightsBps (· / ·) positions).map Prod.snd =
      positions.map (exactBps positions) := by
    rw [weightsBps_eq hnonneg htotal, List.map_map]
    rfl
  have hallocations : allocations =
      allocateFrom balance.toNat totalBps 0 (weightsBps (· / ·) positions) := by
    rw [show totalBps = _ from congrArg List.sum hsnd.symm]
    rfl
  constructor
  · have hle (w) (hw : w ∈ weightsBps (· / ·) positions) : w.2 ≤ totalBps :=
      List.single_le_sum (fun _ _ ↦ Nat.zero_le _) _ (hsnd ▸ List.mem_map_of_mem hw)
    have hsum := foldlM_checkedAdd (positions.map (exactBps positions)) 0
      (by rw [u128Bound]; omega)
    rw [checkedAllocateAddPositionAmountsWith, hsnd, hsum, Option.bind_eq_bind,
      Option.bind_some, Nat.zero_add, checkedAllocateFrom_eq balance.isLt hbps 0 _ hle,
      hallocations]
  · have hweights := weightsBps_eq hnonneg htotal
    rw [hallocations]
    obtain hnil | ⟨init, last, hconcat⟩ :=
      List.eq_nil_or_concat' (weightsBps (· / ·) positions)
    · rw [hnil, eq_comm, List.map_eq_nil_iff] at hweights
      exact absurd hweights hne
    have hinit : init = positions.dropLast.map fun p ↦ (p.1, exactBps positions p) := by
      rw [List.map_dropLast, ← hweights, hconcat, List.dropLast_concat]
    rw [hconcat] at hsnd ⊢
    obtain ⟨hfst, hshares, hsum⟩ := allocateFrom_concat balance.isLt
      (congrArg List.sum hsnd).le
    refine ⟨hfst.trans ?_, hshares.trans ?_, hsum⟩
    · rw [← hconcat, hweights, List.map_map]
      rfl
    · rw [hinit, List.map_map]
      rfl

theorem allocateAddPositionAmounts_exact_thirds :
    let positions : List (ℕ × BigDecimal) := [(0, 1 / 2), (3, 1 / 3), (5, 1 / 6)]
    let allocations := allocateAddPositionAmountsWith (· / ·) positions 100
    allocations = [(0, 50), (3, 33), (5, 17)] ∧
      checkedAllocateAddPositionAmountsWith (· / ·) positions 100 = some allocations ∧
      (allocations.map Prod.snd).sum = 100 := by
  intro positions allocations
  obtain ⟨hchecked, -, -, hsum⟩ := allocateAddPositionAmounts_exact positions 100#128 (by decide)
    (by decide +kernel) (by decide +kernel)
  exact ⟨by decide +kernel, hchecked, hsum⟩

end Exact

end AddPositions

end Zaciraci.Trade
