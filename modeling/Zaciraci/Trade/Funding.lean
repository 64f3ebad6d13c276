import Zaciraci.Trade.SwapFrame

namespace Zaciraci.Trade

open Lib Program Storage

def withdrawnSum (τ : List TradeExchange) : ℕ := ((withdrawals τ).map Prod.snd).sum

def Request.Still : Request → Prop
  | .chain _ (.exec tx) => ∀ token amount, tx.call ≠ .withdraw token amount
  | .chain _ (.transferNativeToken ..) => False
  | _ => True

theorem withdrawals_of_still {τ : List TradeExchange} (h : ∀ e ∈ τ, e.request.Still) :
    withdrawals τ = [] := by
  rw [withdrawals, List.filterMap_eq_nil_iff]
  intro e he
  have hstill := h e he
  split
  · next token amount _ _ _ => exact (hstill token amount rfl).elim
  · rfl

namespace Ledger

/-- The chain of `answer` that carries out transfers of NEAR to others as well. -/
def settle (seconds : UInt64) : (q : Request) → Ledger → Answer q × Ledger
  | .chain _ (.transferNativeToken signer receiver amount), l =>
    if signer = trader ∧ receiver ≠ trader ∧ amount ≤ l.native.toNat then
      (.succeeded "transfer" (.ok 0),
        { l with native := BitVec.ofNat 128 (l.native.toNat - amount) })
    else (.refused "", l)
  | q, l => answer seconds q l

theorem honest_settle (seconds : UInt64) (q : Request) (l : Ledger) :
    honest (wnearToken true) trader q l.funds (settle seconds q l).1
      (settle seconds q l).2.funds := by
  cases q with
  | chain client q =>
    cases q with
    | transferNativeToken signer receiver amount =>
      rw [settle]
      split_ifs with hok
      · obtain ⟨rfl, hreceiver, hle⟩ := hok
        have hlt : l.native.toNat - amount < 2 ^ 128 := (Nat.sub_le _ _).trans_lt l.native.isLt
        refine ⟨fun _ ↦ hle, ?_⟩
        rw [transferred, if_neg (Ne.symm hreceiver), if_pos rfl, funds, BitVec.toNat_ofNat,
          Nat.mod_eq_of_lt hlt]
        rfl
      · exact rfl
    | _ => exact honest_answer seconds _ l
  | _ => exact honest_answer seconds _ l

def harvesting : ConfigAccess :=
  { Simulate.simulationConfig with harvestAccountId := .ok "harvest.near" }

def harvested (deposit native : U128) (amount required : ℕ) :
    Program.Report Request Answer String Unit Ledger :=
  (Balances.harvest .given ⟨trader⟩ (wnearToken true) amount required harvesting).run
    (settle 1700000000) (opening deposit native)

theorem harvested_runs (deposit native : U128) (amount required : ℕ) :
    Runs (honest (wnearToken true) trader)
      (Balances.harvest .given ⟨trader⟩ (wnearToken true) amount required harvesting)
      (opening deposit native).funds (harvested deposit native amount required).trace
      (harvested deposit native amount required).outcome
      (harvested deposit native amount required).state.funds :=
  runs_of_run funds (honest_settle 1700000000) _ (opening deposit native)

def started (deposit native : U128) : Program.Report Request Answer String ℕ Ledger :=
  (Balances.start true .given ⟨trader⟩ (wnearToken true) (some 1) harvesting).run
    (settle 0) (opening deposit native)

theorem started_runs (deposit native : U128) {b : ℕ}
    (h : (started deposit native).outcome = .ok b) :
    Runs (honest (wnearToken true) trader)
      (Balances.start true .given ⟨trader⟩ (wnearToken true) (some 1) harvesting)
      (opening deposit native).funds (started deposit native).trace (.ok b)
      (started deposit native).state.funds :=
  h ▸ runs_of_run funds (honest_settle 0) _ (opening deposit native)

end Ledger

section Harvest

variable {wnear : TokenAccount} {client : Client} {wallet : Wallet} {cfg : ConfigAccess}
  {s : Funds} {amount upper nativeBalance : ℕ}

theorem still_getNativeAmount {account : AccountId} :
    (getNativeAmount client account).Uses Request.Still :=
  (uses_perform trivial).bind fun _ ↦ (uses_ofExcept _).bind fun _ ↦ trivial

variable {o : Outcome String Unit} {s' : Funds} {τ : List TradeExchange}

theorem SendsSurplus.native_of_sent {total : ℕ}
    (h : SendsSurplus wallet cfg (min total (u128Bound - 1)) upper s τ o s')
    (hnative : s.native = total) (hsent : transfers τ ≠ []) :
    ∃ target, HarvestTarget cfg target ∧ upper < min total (u128Bound - 1) ∧
      s'.native = if target = wallet.accountId then total
        else total - (min total (u128Bound - 1) - upper) := by
  subst hnative
  cases h with
  | idle hnone => exact (hsent hnone).elim
  | stopped hnone => exact (hsent hnone).elim
  | sent hupper _ htarget _ _ _ hleft => exact ⟨_, htarget, hupper, hleft⟩

theorem Harvested.native_of_sent (h : Harvested wnear wallet cfg amount upper s τ o s')
    (hsent : transfers τ ≠ []) :
    ∃ target, HarvestTarget cfg target ∧ upper < min (s.native + withdrawnSum τ) (u128Bound - 1) ∧
      s'.native = if target = wallet.accountId then s.native + withdrawnSum τ
        else s.native + withdrawnSum τ -
          (min (s.native + withdrawnSum τ) (u128Bound - 1) - upper) := by
  cases h with
  | failed _ hnone => exact (hsent hnone.2).elim
  | withdrew _ hw ht _ hsends =>
    rw [transfers_append, ht, List.nil_append] at hsent
    rw [withdrawnSum, hw, List.map_singleton, List.sum_singleton]
    exact hsends.native_of_sent rfl hsent
  | kept _ _ hw ht hsends =>
    rw [transfers_append, ht, List.nil_append] at hsent
    rw [withdrawnSum, hw, List.map_nil, List.sum_nil]
    exact hsends.native_of_sent rfl hsent

theorem Harvested.deposits_eq (h : Harvested wnear wallet cfg amount upper s τ o s') :
    s'.deposits wnear = s.deposits wnear - withdrawnSum τ := by
  cases h with
  | failed _ hnone => simp [withdrawnSum, hnone.1]
  | withdrew _ hw _ _ hsends =>
    rw [withdrawnSum, hw, List.map_singleton, List.sum_singleton, hsends.kept.1]
    exact Function.update_self ..
  | kept _ _ hw _ hsends =>
    rw [withdrawnSum, hw, List.map_nil, List.sum_nil, hsends.kept.1, Nat.sub_zero]

theorem Harvested.withdrawals_cases (h : Harvested wnear wallet cfg amount upper s τ o s') :
    withdrawals τ = [] ∧ (Accepted τ → ¬ HarvestDue cfg s τ) ∨
      withdrawals τ = [(wnear, amount)] ∧ amount ≤ s.deposits wnear ∧ HarvestDue cfg s τ := by
  cases h with
  | failed hfailed hnone => exact .inl ⟨hnone.1, fun haccepted ↦ (hfailed haccepted).elim⟩
  | withdrew hdue hw _ hle _ => exact .inr ⟨hw, hle, hdue⟩
  | kept hdue _ hw _ _ => exact .inl ⟨hw, fun _ ↦ hdue⟩

/-- A harvest that sends something leaves what was required times the multiplier, and the reserve
of the account plays no part in that. -/
theorem harvest_reserve_iff (wnear : TokenAccount) (client : Client) (wallet : Wallet)
    (cfg : ConfigAccess) (amount required : ℕ) (s s' : Funds) (τ : List TradeExchange)
    (o : Outcome String Unit)
    (hrun : Runs (honest wnear wallet.accountId)
      (Balances.harvest client wallet wnear amount required cfg) s τ o s')
    (hsent : transfers τ ≠ []) :
    nearToYocto cfg.tradeAccountReserve ≤ s'.native ↔
      HarvestTarget cfg wallet.accountId ∧
        nearToYocto cfg.tradeAccountReserve ≤ s.native + withdrawnSum τ ∨
      ¬ HarvestTarget cfg wallet.accountId ∧
        nearToYocto cfg.tradeAccountReserve ≤ Balances.multiplyByBalanceMultiplier required cfg +
          (s.native + withdrawnSum τ - (2 ^ 128 - 1)) := by
  obtain ⟨target, htarget, hupper, hleft⟩ := (ensures_harvest τ o s' hrun).native_of_sent hsent
  by_cases hown : target = wallet.accountId
  · rw [if_pos hown] at hleft
    rw [hown] at htarget
    simp only [hleft, htarget, true_and, not_true_eq_false, false_and, or_false]
  · have hother : ¬ HarvestTarget cfg wallet.accountId := by
      rintro ⟨id, hid, hparse⟩
      obtain ⟨id', hid', hparse'⟩ := htarget
      obtain rfl : id' = id := Except.ok.inj (hid'.symm.trans hid)
      exact hown (Except.ok.inj (hparse'.symm.trans hparse))
    rw [if_neg hown] at hleft
    simp only [hother, false_and, false_or, not_false_eq_true, true_and]
    have hbound : u128Bound - 1 = 2 ^ 128 - 1 := rfl
    rw [hbound] at hupper hleft
    have hexact : s'.native = Balances.multiplyByBalanceMultiplier required cfg +
        (s.native + withdrawnSum τ - (2 ^ 128 - 1)) := by omega
    rw [hexact]

open Ledger in
/-- A harvest for one NEAR keeps 128 NEAR. -/
theorem harvest_reserve_oneNear :
    transfers (harvested (10 ^ 27) (2 * 10 ^ 25) (872 * 10 ^ 24) (10 ^ 24)).trace ≠ [] ∧
    nearToYocto harvesting.tradeAccountReserve ≤
      (harvested (10 ^ 27) (2 * 10 ^ 25) (872 * 10 ^ 24) (10 ^ 24)).state.funds.native := by
  have hsent : transfers (harvested (10 ^ 27) (2 * 10 ^ 25) (872 * 10 ^ 24) (10 ^ 24)).trace ≠
      [] := by decide +kernel
  refine ⟨hsent, (harvest_reserve_iff _ _ _ _ _ _ _ _ _ _ (harvested_runs _ _ _ _) hsent).2
    (.inr ⟨?_, ?_⟩)⟩
  · rintro ⟨id, hid, hparse⟩
    obtain rfl : "harvest.near" = id := Except.ok.inj hid
    revert hparse
    decide +kernel
  · decide +kernel

open Ledger in
/-- A harvest for one yoctoNEAR leaves 128 yoctoNEAR of more than twenty NEAR. -/
theorem harvest_spends_reserve :
    Runs (honest (wnearToken true) trader)
      (Balances.harvest .given ⟨trader⟩ (wnearToken true) 872 1 harvesting)
      (opening 1000 (2 * 10 ^ 25)).funds (harvested 1000 (2 * 10 ^ 25) 872 1).trace (.ok ())
      (harvested 1000 (2 * 10 ^ 25) 872 1).state.funds ∧
    transfers (harvested 1000 (2 * 10 ^ 25) 872 1).trace =
      [("harvest.near", 2 * 10 ^ 25 + 744)] ∧
    (harvested 1000 (2 * 10 ^ 25) 872 1).state.funds.native = 128 ∧
    nearToYocto harvesting.tradeAccountReserve = 10 ^ 25 := by
  have hok : (harvested 1000 (2 * 10 ^ 25) 872 1).outcome = .ok () := by decide +kernel
  refine ⟨hok ▸ harvested_runs _ _ _ _, ?_, ?_, ?_⟩ <;> decide +kernel

theorem still_wnearBalanceOf {account : AccountId} :
    (wnearBalanceOf client account).Uses Request.Still :=
  (uses_perform trivial).bind fun _ ↦ (uses_ofExcept _).bind fun _ ↦ trivial

theorem still_wrap : (wrap client wallet amount).Uses Request.Still :=
  ((uses_perform fun _ _ ↦ by simp).bind fun _ ↦ uses_ofExcept _).bind fun _ ↦ trivial

theorem still_deposit {token : TokenAccount} :
    (deposit client wallet token amount).Uses Request.Still :=
  ((uses_perform fun _ _ ↦ by simp).bind fun _ ↦ uses_ofExcept _).bind fun _ ↦ trivial

theorem still_refill {isMainnet : Bool} {wanted : ℕ} :
    (Balances.refill isMainnet client wallet wanted cfg).Uses Request.Still := by
  refine still_wnearBalanceOf.bind fun wrapped ↦ Uses.bind (Uses.ite ?_ trivial) fun _ ↦
    still_deposit.when
  exact still_getNativeAmount.bind fun native ↦ still_wrap.when.bind fun _ ↦ trivial

/-- The balance that `start` reports is there unless its harvest has withdrawn from it. Where
nothing fails, that depends on the balances and the clock alone. -/
theorem start_reports_iff (isMainnet : Bool) (client : Client) (wallet : Wallet)
    (cfg : ConfigAccess) (required : Option ℕ) (s s' : Funds) (τ : List TradeExchange) (b : ℕ)
    (hrun : Runs (honest (wnearToken isMainnet) wallet.accountId)
      (Balances.start isMainnet client wallet (wnearToken isMainnet) required cfg) s τ (.ok b) s') :
    (b ≤ s'.deposits (wnearToken isMainnet) ↔ withdrawals τ = []) ∧
    (Accepted τ → (withdrawals τ ≠ [] ↔
      required.getD Balances.defaultRequiredBalance ≤ s.deposits (wnearToken isMainnet) ∧
      Balances.multiplyByBalanceMultiplier (required.getD Balances.defaultRequiredBalance) cfg <
        s.deposits (wnearToken isMainnet) ∧
      HarvestDue cfg s τ)) := by
  obtain ⟨deposited, τ₁, τ₂, s₁, h₁, hrest, rfl⟩ := hrun.of_bind_ok
  obtain ⟨rfl, hw₁, hclock, hdeposited⟩ := ensures_balanceOfStartToken _ _ _ h₁
  obtain ⟨rfl, -⟩ := hdeposited deposited rfl
  have hdue : HarvestDue cfg s₁ (τ₁ ++ τ₂) ↔ HarvestDue cfg s₁ τ₂ := by
    simp [HarvestDue, hclock]
  rw [withdrawals_append, hw₁, List.nil_append, hdue]
  split_ifs at hrest with hshort
  · obtain ⟨_, τ₃, τ₄, s₂, h₃, h₄, rfl⟩ := hrest.of_bind_ok
    obtain ⟨rfl, hw₄, -, hb⟩ := ensures_balanceOfStartToken _ _ _ h₄
    obtain ⟨rfl, -⟩ := hb b rfl
    have hw₃ := withdrawals_of_still (still_refill.always _ _ h₃.exec)
    simp [hw₃, hw₄, hshort]
  · have hle := not_lt.1 hshort
    obtain ⟨rfl, hharvest⟩ := of_start_enough hrest
    split_ifs at hharvest with hupper
    · obtain ⟨o, -, hharvest⟩ := hharvest
      rw [hharvest.deposits_eq]
      rcases hharvest.withdrawals_cases with ⟨hnone, hdue⟩ | ⟨hsome, hamount, hd⟩
      · have hsum : withdrawnSum τ₂ = 0 := by simp [withdrawnSum, hnone]
        refine ⟨by simp [hsum, hnone], fun h ↦ ⟨fun hne ↦ (hne hnone).elim, ?_⟩⟩
        exact fun hcond ↦ (hdue (accepted_append.1 h).2 hcond.2.2).elim
      · have hsum : withdrawnSum τ₂ = s₁.deposits (wnearToken isMainnet) -
            Balances.multiplyByBalanceMultiplier
              (required.getD Balances.defaultRequiredBalance) cfg := by
          simp [withdrawnSum, hsome]
        have hne : withdrawals τ₂ ≠ [] := by simp [hsome]
        refine ⟨⟨fun h ↦ by omega, fun h ↦ (hne h).elim⟩, fun _ ↦ iff_of_true hne ⟨hle, hupper, hd⟩⟩
    · obtain ⟨hnone, rfl⟩ := hharvest
      simp [hnone, hupper]

open Ledger in
/-- An account that keeps its reserve has what `start` reports. -/
theorem start_reports_kept :
    (started 1000 (10 ^ 25)).outcome = .ok 1000 ∧
    1000 ≤ (started 1000 (10 ^ 25)).state.funds.deposits (wnearToken true) := by
  have hok : (started 1000 (10 ^ 25)).outcome = .ok 1000 := by decide +kernel
  refine ⟨hok, (start_reports_iff _ _ _ _ _ _ _ _ _ (started_runs _ _ hok)).1.2 ?_⟩
  decide +kernel

open Ledger in
/-- Below its reserve it has withdrawn 872 of the 1000 that are reported. -/
theorem start_reports_withdrawn :
    Runs (honest (wnearToken true) trader)
      (Balances.start true .given ⟨trader⟩ (wnearToken true) (some 1) harvesting)
      (opening 1000 0).funds (started 1000 0).trace (.ok 1000) (started 1000 0).state.funds ∧
    (started 1000 0).state.funds.deposits (wnearToken true) = 128 :=
  ⟨started_runs _ _ (by decide +kernel), by decide +kernel⟩

end Harvest

def Fulfilled : (q : Request) → Answer q → Prop
  | .chain _ (.getDeposits _), reply => ∃ deposits, reply = .ok deposits
  | .chain _ (.wnearBalanceOf _), reply => ∃ amount, reply = .ok amount
  | .chain _ (.nativeAmount _), reply => ∃ amount, reply = .ok amount
  | .chain _ (.exec _), reply => ∃ id output, reply = .succeeded id output
  | _, _ => True

def reliable (wnear : TokenAccount) (account : AccountId) : Environment Request Answer Funds :=
  fun q s a s' ↦ honest wnear account q s a s' ∧ Fulfilled q a

section Deposit

variable {wnear : TokenAccount} {client : Client} {wallet : Wallet} {cfg : ConfigAccess}
  {s : Funds} {amount wanted : ℕ} {isMainnet : Bool}

def Funds.wrapping (s : Funds) (amount : ℕ) : Funds :=
  { s with native := s.native - amount, wrapped := s.wrapped + amount }

def Funds.depositing (s : Funds) (wnear : TokenAccount) (amount : ℕ) : Funds :=
  { s with deposits := credit s.deposits wnear amount, wrapped := s.wrapped - amount }

/-- How much of what is missing the reserve lets the account wrap. -/
def wrappable (cfg : ConfigAccess) (s : Funds) (wanted : ℕ) : ℕ :=
  min (wanted - s.wrapped) (s.native - nearToYocto cfg.tradeAccountReserve)

def Funds.Listed (s : Funds) : Prop :=
  ∃ deposits, ∀ token, (depositOf deposits token).toNat = s.deposits token

theorem toNat_ofNat_of_lt {n : ℕ} (h : n < 2 ^ 128) : (BitVec.ofNat 128 n).toNat = n := by
  rw [BitVec.toNat_ofNat, Nat.mod_eq_of_lt h]

theorem yields_balanceOfStartToken {token : TokenAccount} (h : s.Listed) :
    Yields (reliable wnear wallet.accountId) (Balances.balanceOfStartToken client wallet token) s
      (.ok (s.deposits token)) s := by
  refine yields_ask ?_ ?_
  · obtain ⟨deposits, hlist⟩ := h
    exact ⟨.ok deposits, s, ⟨rfl, fun _ _ h ↦ Except.ok.inj h ▸ hlist⟩, deposits, rfl⟩
  · rintro reply s₁ ⟨⟨rfl, hdeposits⟩, deposits, rfl⟩
    rw [← hdeposits rfl deposits rfl token]
    exact yields_done

theorem yields_wnearBalanceOf (h : s.wrapped < 2 ^ 128) :
    Yields (reliable wnear wallet.accountId) (wnearBalanceOf client wallet.accountId) s
      (.ok s.wrapped) s := by
  refine yields_ask ⟨.ok (BitVec.ofNat 128 s.wrapped), s, ⟨rfl, ?_⟩, _, rfl⟩ ?_
  · exact fun _ _ heq ↦ Except.ok.inj heq ▸ toNat_ofNat_of_lt h
  · rintro reply s₁ ⟨⟨rfl, hbalance⟩, balance, rfl⟩
    rw [← hbalance rfl balance rfl]
    exact yields_done

theorem yields_getNativeAmount (h : s.native < 2 ^ 128) :
    Yields (reliable wnear wallet.accountId) (getNativeAmount client wallet.accountId) s
      (.ok s.native) s := by
  refine yields_ask ⟨.ok (BitVec.ofNat 128 s.native), s, ⟨rfl, ?_⟩, _, rfl⟩ ?_
  · exact fun _ _ heq ↦ Except.ok.inj heq ▸ toNat_ofNat_of_lt h
  · rintro reply s₁ ⟨⟨rfl, hbalance⟩, balance, rfl⟩
    rw [← hbalance rfl balance rfl]
    exact yields_done

theorem yields_execute {call : Call} {attached : ℕ} {label : String} {t : Funds}
    (hserves : Serves wnear s attached t call)
    (hunique : ∀ t', Serves wnear s attached t' call → t' = t) :
    Yields (reliable wnear wallet.accountId)
      (do let _ ← execute client ⟨wallet.signer, call, attached⟩ label) s (.ok ()) t := by
  refine yields_ask ⟨.succeeded "" (.ok 0), t, (if_pos rfl).mpr hserves, _, _, rfl⟩ ?_
  rintro reply s₁ ⟨hserves', id, output, rfl⟩
  obtain rfl := hunique s₁ ((if_pos rfl).mp hserves')
  exact yields_done

theorem yields_wrap (h : amount ≤ s.native) :
    Yields (reliable wnear wallet.accountId) (wrap client wallet amount) s (.ok ())
      (s.wrapping amount) :=
  yields_execute ⟨h, rfl⟩ fun _ ht ↦ ht.2

theorem yields_deposit (h : amount ≤ s.wrapped) :
    Yields (reliable wnear wallet.accountId) (deposit client wallet wnear amount) s (.ok ())
      (s.depositing wnear amount) := by
  have hwrapped : (if wnear = wnear then s.wrapped - amount else s.wrapped) = s.wrapped - amount :=
    if_pos rfl
  exact yields_execute ⟨fun _ ↦ h, by rw [hwrapped]; rfl⟩ fun _ ht ↦ by rw [ht.2, hwrapped]; rfl

theorem yields_wrapMissing (h : s.native < 2 ^ 128) :
    Yields (reliable wnear wallet.accountId)
      (Balances.wrapMissing client wallet wanted s.wrapped cfg) s
      (.ok (wrappable cfg s wanted)) (s.wrapping (wrappable cfg s wanted)) := by
  rw [Balances.wrapMissing]
  split_ifs with hmissing
  · refine (yields_getNativeAmount h).bind ?_
    have hamount : (if s.native - nearToYocto cfg.tradeAccountReserve < wanted - s.wrapped then
        s.native - nearToYocto cfg.tradeAccountReserve else wanted - s.wrapped) =
          wrappable cfg s wanted := by
      rw [wrappable]
      split_ifs <;> omega
    dsimp only
    rw [hamount, Program.when]
    refine Yields.bind (a := ()) ?_ yields_done
    split_ifs with hpos
    · exact yields_wrap (by rw [wrappable]; omega)
    · rw [Nat.eq_zero_of_not_pos hpos]
      exact yields_done
  · have hzero : wrappable cfg s wanted = 0 := by
      rw [wrappable]
      omega
    rw [hzero]
    exact yields_done

theorem yields_depositWrapNearToRef (isMainnet : Bool) (client : Client) (wallet : Wallet)
    (cfg : ConfigAccess) (hlisted : s.Listed) (hnative : s.native < 2 ^ 128)
    (hwrapped : s.wrapped < 2 ^ 128) (hamount : amount < 2 ^ 128) :
    let m := wrappable cfg s (amount - s.deposits (wnearToken isMainnet))
    Yields (reliable (wnearToken isMainnet) wallet.accountId)
      (Balances.depositWrapNearToRef isMainnet client wallet amount cfg) s
      (if s.deposits (wnearToken isMainnet) < amount ∧ s.wrapped + m = 0 then
        .err "No wrap.near balance available to deposit" else .ok ())
      (if amount ≤ s.deposits (wnearToken isMainnet) then s
        else (s.wrapping m).depositing (wnearToken isMainnet)
          (min (amount - s.deposits (wnearToken isMainnet)) (s.wrapped + m))) := by
  intro m
  refine (yields_balanceOfStartToken hlisted).bind ?_
  by_cases henough : amount ≤ s.deposits (wnearToken isMainnet)
  · rw [if_pos henough, if_pos henough, if_neg fun h ↦ henough.not_gt h.1]
    exact yields_done
  · rw [if_neg henough, if_neg henough]
    dsimp only
    refine (yields_wnearBalanceOf hwrapped).bind ((yields_wrapMissing hnative).bind ?_)
    have hm : (s.wrapping m).wrapped < 2 ^ 128 := by
      have hle : (s.wrapping m).wrapped ≤ max s.wrapped amount := by
        simp only [Funds.wrapping, m, wrappable]
        omega
      omega
    refine (yields_wnearBalanceOf hm).bind ?_
    have hleft : (s.wrapping m).wrapped = s.wrapped + m := rfl
    rw [hleft]
    by_cases hzero : s.wrapped + m = 0
    · have hnone : (s.wrapping m).depositing (wnearToken isMainnet)
          (min (amount - s.deposits (wnearToken isMainnet)) (s.wrapped + m)) = s.wrapping m := by
        rw [hzero, Nat.min_zero, Funds.depositing, credit, Nat.add_zero, Function.update_eq_self]
        rfl
      rw [if_pos hzero, if_pos ⟨not_le.1 henough, hzero⟩, hnone]
      exact yields_done
    · rw [if_neg hzero, if_neg fun h ↦ hzero h.2]
      exact yields_deposit (Nat.min_le_right _ _)

def Request.KeepsNative : Request → Prop
  | .chain _ (.exec tx) => ∃ token amount, tx.call = .ftTransferCall token amount
  | .chain _ (.transferNativeToken ..) => False
  | _ => True

theorem native_of_keepsNative {account : AccountId} {q : Request} {s s' : Funds} {a : Answer q}
    (hq : q.KeepsNative) (h : honest wnear account q s a s') : s'.native = s.native := by
  cases q with
  | chain client q =>
    cases q with
    | exec tx =>
      obtain ⟨token, amount, hcall⟩ := hq
      cases a with
      | succeeded id output =>
        simp only [honest, hcall] at h
        split_ifs at h with hsigner
        · rw [h.2]
        · rw [h]
      | _ => rw [show s' = s from h]
    | transferNativeToken _ _ _ => exact hq.elim
    | getDeposits _ => rw [h.1]
    | nativeAmount _ => rw [h.1]
    | wnearBalanceOf _ => rw [h.1]
    | _ => rw [show s' = s from h]
  | setLastHarvest _ _ => rw [show s' = _ from h]
  | lastHarvest _ => rw [h.1]
  | db _ => rw [h.1]
  | _ => rw [show s' = s from h]

theorem stays_of_keepsNative {α : Type} {p : TradeProgram α} {least : ℕ}
    (huses : p.Uses Request.KeepsNative) (hs : least ≤ s.native) :
    Stays (honest wnear wallet.accountId) (fun t ↦ least ≤ t.native) p s :=
  stays_of_uses huses (fun _ _ _ _ hq h hle ↦ hle.trans_eq (native_of_keepsNative hq h).symm) hs

theorem stays_wrap {least : ℕ} (hs : least + amount ≤ s.native) :
    Stays (honest wnear wallet.accountId) (fun t ↦ least ≤ t.native)
      (wrap client wallet amount) s := by
  refine ⟨by omega, fun reply s₁ henv ↦ ?_⟩
  cases reply with
  | succeeded id output =>
    have hserves : Serves wnear s amount s₁ .nearDeposit := (if_pos rfl).mp henv
    have hnative : s₁.native = s.native - amount := by rw [hserves.2]
    change least ≤ s₁.native
    omega
  | _ =>
    obtain rfl := show s₁ = s from henv
    change least ≤ s₁.native
    omega

theorem stays_wrapMissing {wrapped : ℕ} : Stays (honest wnear wallet.accountId)
    (fun t ↦ min s.native (nearToYocto cfg.tradeAccountReserve) ≤ t.native)
    (Balances.wrapMissing client wallet wanted wrapped cfg) s := by
  have hs : min s.native (nearToYocto cfg.tradeAccountReserve) ≤ s.native := Nat.min_le_left _ _
  rw [Balances.wrapMissing]
  split_ifs with hmissing
  · refine Stays.bind (stays_of_keepsNative ?_ hs) ?_
    · exact (uses_perform trivial).bind fun _ ↦ (uses_ofExcept _).bind fun _ ↦ trivial
    · intro τ native s₁ hread _
      obtain ⟨rfl, -, -, hnative | ⟨⟨_, herr⟩, -⟩⟩ := ensures_getNativeAmount τ _ s₁ hread
      swap
      · cases herr
      obtain rfl := Outcome.ok.inj hnative
      have hamount : (if s₁.native - nearToYocto cfg.tradeAccountReserve < wanted - wrapped then
          s₁.native - nearToYocto cfg.tradeAccountReserve else wanted - wrapped) ≤
            s₁.native - nearToYocto cfg.tradeAccountReserve := by
        split_ifs <;> omega
      dsimp only
      generalize (if s₁.native - nearToYocto cfg.tradeAccountReserve < wanted - wrapped then
        s₁.native - nearToYocto cfg.tradeAccountReserve else wanted - wrapped) = amount at hamount ⊢
      refine Stays.bind (f := fun _ ↦ pure amount) ?_ fun _ _ _ _ h ↦ h
      rw [Program.when]
      split_ifs
      · exact stays_wrap (by omega)
      · exact hs
  · exact hs

/-- The account is never taken below its reserve by a deposit, whatever fails. -/
theorem stays_depositWrapNearToRef : Stays (honest wnear wallet.accountId)
    (fun t ↦ min s.native (nearToYocto cfg.tradeAccountReserve) ≤ t.native)
    (Balances.depositWrapNearToRef isMainnet client wallet amount cfg) s := by
  have hs : min s.native (nearToYocto cfg.tradeAccountReserve) ≤ s.native := Nat.min_le_left _ _
  have hread : (wnearBalanceOf client wallet.accountId).Uses Request.KeepsNative :=
    (uses_perform trivial).bind fun _ ↦ (uses_ofExcept _).bind fun _ ↦ trivial
  refine Stays.bind (stays_of_keepsNative ?_ hs) fun τ deposited s₁ h₁ _ ↦ ?_
  · exact ((uses_perform trivial).bind fun _ ↦ uses_ofExcept _).bind fun _ ↦ trivial
  obtain ⟨rfl, -⟩ := ensures_balanceOfStartToken τ _ s₁ h₁
  split_ifs
  · exact hs
  dsimp only
  refine Stays.bind (stays_of_keepsNative hread hs) fun υ wrapped s₂ h₂ hs₂ ↦ ?_
  have hsame : s₂.native = s₁.native :=
    h₂.preserves (I := fun t ↦ t.native = s₁.native) hread
      (fun _ _ _ _ hq h hn ↦ (native_of_keepsNative hq h).trans hn) rfl
  refine Stays.bind (hsame ▸ stays_wrapMissing) fun ω _ s₃ _ hs₃ ↦ ?_
  refine stays_of_keepsNative (hread.bind fun final ↦ Uses.ite trivial ?_) hs₃
  exact ((uses_perform ⟨_, _, rfl⟩).bind fun _ ↦ uses_ofExcept _).bind fun _ ↦ trivial

theorem total_depositing {m : ℕ} {t : Funds} (hm : m ≤ s.native) (hx : amount ≤ s.wrapped + m)
    (ht : t = (s.wrapping m).depositing wnear amount) :
    t.native + t.wrapped + t.deposits wnear = s.native + s.wrapped + s.deposits wnear := by
  have hdeposits : t.deposits wnear = s.deposits wnear + amount := by
    rw [ht]
    exact Function.update_self ..
  have hnative : t.native = s.native - m := by rw [ht]; rfl
  have hwrapped : t.wrapped = s.wrapped + m - amount := by rw [ht]; rfl
  omega

/-- The funds after a deposit, in all orders of the amounts. -/
theorem depositWrapNearToRef_spec (isMainnet : Bool) (client : Client) (wallet : Wallet)
    (cfg : ConfigAccess) (amount : U128) (l : Ledger) :
    let program := Balances.depositWrapNearToRef isMainnet client wallet amount.toNat cfg
    let wnear := wnearToken isMainnet
    let target := amount.toNat
    let deposited := (depositOf l.deposits wnear).toNat
    let wrapped := l.wrapped.toNat
    let native := l.native.toNat
    let reserve := nearToYocto cfg.tradeAccountReserve
    (∃ τ o s', Runs (reliable wnear wallet.accountId) program l.funds τ o s') ∧
    (∀ τ o s', Runs (reliable wnear wallet.accountId) program l.funds τ o s' →
      (target ≤ deposited → o = .ok () ∧ s' = l.funds) ∧
      (deposited < target → 0 < wrapped + (native - reserve) →
        o = .ok () ∧ s'.deposits wnear = min target (deposited + wrapped + (native - reserve)) ∧
        s'.native = native - min (target - deposited - wrapped) (native - reserve) ∧
        s'.native + s'.wrapped + s'.deposits wnear = native + wrapped + deposited) ∧
      (deposited < target → wrapped + (native - reserve) = 0 →
        (∃ e, o = .err e) ∧ s' = l.funds)) ∧
    Stays (honest wnear wallet.accountId) (fun s ↦ min native reserve ≤ s.native) program
      l.funds := by
  intro program wnear target deposited wrapped native reserve
  have hlisted : l.funds.Listed := ⟨l.deposits, fun _ ↦ rfl⟩
  obtain ⟨⟨τ, hτ⟩, hall⟩ := yields_depositWrapNearToRef isMainnet client wallet cfg hlisted
    l.native.isLt l.wrapped.isLt amount.isLt
  have hstays : Stays (honest wnear wallet.accountId)
      (fun s ↦ min l.funds.native reserve ≤ s.native) program l.funds := stays_depositWrapNearToRef
  refine ⟨⟨τ, _, _, hτ⟩, fun υ o s' hrun ↦ ?_, hstays⟩
  obtain ⟨ho, hs'⟩ := hall υ o s' hrun
  have hm : wrappable cfg l.funds (amount.toNat - l.funds.deposits (wnearToken isMainnet)) =
    min (target - deposited - wrapped) (native - reserve) := rfl
  have hd : l.funds.deposits (wnearToken isMainnet) = deposited := rfl
  have hw : l.funds.wrapped = wrapped := rfl
  have hn : l.funds.native = native := rfl
  rw [hm, hd, hw] at ho hs'
  refine ⟨fun henough ↦ ?_, fun hshort hpos ↦ ?_, fun hshort hzero ↦ ?_⟩
  · rw [if_neg fun h ↦ henough.not_gt h.1] at ho
    rw [if_pos henough] at hs'
    exact ⟨ho, hs'⟩
  · rw [if_neg fun h ↦ by omega] at ho
    rw [if_neg hshort.not_ge] at hs'
    refine ⟨ho, ?_, by rw [hs']; rfl, ?_⟩
    · have hdeposits : s'.deposits wnear = deposited + min (target - deposited)
          (wrapped + min (target - deposited - wrapped) (native - reserve)) := by
        rw [hs']
        exact Function.update_self ..
      omega
    · exact total_depositing (by omega) (Nat.min_le_right _ _) hs'
  · have hnothing : min (target - deposited - wrapped) (native - reserve) = 0 ∧ wrapped = 0 := by
      omega
    rw [if_pos ⟨hshort, by omega⟩] at ho
    rw [if_neg hshort.not_ge, hnothing.1, hnothing.2, Nat.add_zero, Nat.min_zero] at hs'
    refine ⟨⟨_, ho⟩, hs'.trans ?_⟩
    rw [Funds.depositing, credit, Nat.add_zero, Function.update_eq_self]
    rfl

end Deposit

end Zaciraci.Trade
