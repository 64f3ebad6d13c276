import Zaciraci.Simulate.Client

namespace Zaciraci.Trade

open Lib Program Dex Zaciraci.Path Persistence Storage

/-- What belongs to one account, and when its balances were last harvested. `deposits` is what it
holds in the exchange. -/
@[ext]
structure Funds where
  deposits : TokenAccount → ℕ
  native : ℕ
  wrapped : ℕ
  lastHarvest : HarvestClock → UInt64

def debit (deposits : TokenAccount → ℕ) (token : TokenAccount) (amount : ℕ) : TokenAccount → ℕ :=
  Function.update deposits token (deposits token - amount)

def credit (deposits : TokenAccount → ℕ) (token : TokenAccount) (amount : ℕ) : TokenAccount → ℕ :=
  Function.update deposits token (deposits token + amount)

/-- The actions of a swap, each with its own amount or with what the one before it paid out. What
a pool pays is only known to be no less than the minimum. -/
inductive Swapped : (TokenAccount → ℕ) → Option ℕ → List SwapAction → (TokenAccount → ℕ) → Prop
  | nil {d : TokenAccount → ℕ} {previous : Option ℕ} : Swapped d previous [] d
  | cons {d d' : TokenAccount → ℕ} {previous : Option ℕ} {action : SwapAction}
      {actions : List SwapAction} {amountIn out : ℕ} :
      action.amountIn.or previous = some amountIn → amountIn ≤ d action.tokenIn →
      action.minAmountOut ≤ out →
      Swapped (credit (debit d action.tokenIn amountIn) action.tokenOut out) (some out) actions
        d' →
      Swapped d previous (action :: actions) d'

/-- What an honest contract does for the signer of a call that succeeds. Gas, single yoctoNEAR and
storage deposits are left out. A withdrawal of wrapped NEAR from the exchange is paid out in
NEAR. -/
def Serves (wnear : TokenAccount) (s : Funds) (attached : ℕ) (s' : Funds) : Call → Prop
  | .storage _ => s' = s
  | .nearDeposit => attached ≤ s.native ∧
    s' = { s with native := s.native - attached, wrapped := s.wrapped + attached }
  | .nearWithdraw amount => amount ≤ s.wrapped ∧
    s' = { s with native := s.native + amount, wrapped := s.wrapped - amount }
  | .ftTransferCall token amount => (token = wnear → amount ≤ s.wrapped) ∧
    s' = { s with
      deposits := credit s.deposits token amount
      wrapped := if token = wnear then s.wrapped - amount else s.wrapped }
  | .withdraw token amount => amount ≤ s.deposits token ∧
    s' = { s with
      deposits := debit s.deposits token amount
      native := if token = wnear then s.native + amount else s.native }
  | .swap actions => ∃ d, Swapped s.deposits none actions d ∧ s' = { s with deposits := d }

def transferred (account signer receiver : AccountId) (amount native : ℕ) : ℕ :=
  if signer = receiver then native
  else if signer = account then native - amount
  else if receiver = account then native + amount
  else native

/-- The chain tells the truth about `account` and does what it says it did. Any request may fail,
and then moves nothing. Queries are answered by some database. -/
def honest (wnear : TokenAccount) (account : AccountId) : Environment Request Answer Funds
  | .chain _ (.getDeposits owner), s, a, s' => s' = s ∧
    (owner = account → ∀ deposits, a = .ok deposits →
      ∀ token, (depositOf deposits token).toNat = s.deposits token)
  | .chain _ (.nativeAmount owner), s, a, s' => s' = s ∧
    (owner = account → ∀ amount, a = .ok amount → amount.toNat = s.native)
  | .chain _ (.wnearBalanceOf owner), s, a, s' => s' = s ∧
    (owner = account → ∀ amount, a = .ok amount → amount.toNat = s.wrapped)
  | .chain _ (.exec tx), s, .succeeded .., s' =>
    if tx.signer = account then Serves wnear s tx.deposit s' tx.call else s' = s
  | .chain _ (.transferNativeToken signer receiver amount), s, .succeeded .., s' =>
    (signer = account → amount ≤ s.native) ∧
      s' = { s with native := transferred account signer receiver amount s.native }
  | .lastHarvest clock, s, a, s' => s' = s ∧ a = s.lastHarvest clock
  | .setLastHarvest clock seconds, s, _, s' =>
    s' = { s with lastHarvest := Function.update s.lastHarvest clock seconds }
  | .db q, s, a, s' =>
    s' = s ∧ ∀ reply, a = .ok reply → ∃ db : Database, (db.answer q).1 = .ok reply
  | _, s, _, s' => s' = s

def clockReadings (τ : List TradeExchange) : List UInt64 :=
  τ.filterMap fun
    | ⟨.unixSeconds, seconds⟩ => some seconds
    | _ => none

/-- No transaction failed and no balance could not be read. -/
def Accepted (τ : List TradeExchange) : Prop :=
  ∀ e ∈ τ, match e with
    | ⟨.chain _ (.nativeAmount _), reply⟩ => ∃ amount, reply = .ok amount
    | ⟨.chain _ (.exec _), reply⟩ => ∃ id output, reply = .succeeded id output
    | ⟨.chain _ (.transferNativeToken ..), reply⟩ => ∃ id output, reply = .succeeded id output
    | _ => True

def Request.Idle : Request → Prop
  | .chain _ (.exec tx) => ∃ method, tx.call = .storage method
  | .chain _ (.transferNativeToken ..) | .setLastHarvest .. | .unixSeconds => False
  | _ => True

theorem honest_idle {wnear : TokenAccount} {account : AccountId} {q : Request} {s s' : Funds}
    {a : Answer q} (hq : q.Idle) (h : honest wnear account q s a s') : s' = s := by
  cases q with
  | chain client q =>
    cases q with
    | exec tx =>
      obtain ⟨method, hmethod⟩ := hq
      cases a with
      | succeeded id output =>
        simp only [honest, hmethod] at h
        split_ifs at h <;> exact h
      | _ => exact h
    | transferNativeToken _ _ _ => exact hq.elim
    | getDeposits _ => exact h.1
    | nativeAmount _ => exact h.1
    | wnearBalanceOf _ => exact h.1
    | _ => exact h
  | setLastHarvest _ _ => exact hq.elim
  | unixSeconds => exact hq.elim
  | lastHarvest _ => exact h.1
  | db _ => exact h.1
  | _ => exact h

@[simp] theorem clockReadings_nil : clockReadings [] = [] := rfl

@[simp] theorem clockReadings_append (τ υ : List TradeExchange) :
    clockReadings (τ ++ υ) = clockReadings τ ++ clockReadings υ := List.filterMap_append

theorem clockReadings_of_idle {τ : List TradeExchange} (h : ∀ e ∈ τ, e.request.Idle) :
    clockReadings τ = [] := by
  rw [clockReadings, List.filterMap_eq_nil_iff]
  intro e he
  have hidle := h e he
  obtain ⟨q, a⟩ := e
  cases q with
  | unixSeconds => exact hidle.elim
  | _ => rfl

theorem accepted_append {τ υ : List TradeExchange} :
    Accepted (τ ++ υ) ↔ Accepted τ ∧ Accepted υ := List.forall_mem_append

def withdrawals (τ : List TradeExchange) : List (TokenAccount × ℕ) :=
  τ.filterMap fun
    | ⟨.chain _ (.exec ⟨_, .withdraw token amount, _⟩), .succeeded ..⟩ => some (token, amount)
    | _ => none

@[simp] theorem withdrawals_append (τ υ : List TradeExchange) :
    withdrawals (τ ++ υ) = withdrawals τ ++ withdrawals υ := List.filterMap_append

def Unmoved (τ : List TradeExchange) : Prop := withdrawals τ = [] ∧ transfers τ = []

section Swapped

variable {d d' : TokenAccount → ℕ} {previous : Option ℕ} {actions : List SwapAction}
  {a t : TokenAccount} {tokens : List TokenAccount}

theorem Swapped.eq_of_not_mem (h : Swapped d previous actions d') (hf : Follows a tokens actions)
    (ha : a ≠ t) (ht : t ∉ tokens) : d' t = d t := by
  induction h generalizing a tokens with
  | nil => rfl
  | cons _ _ _ _ ih =>
    cases tokens with
    | nil => exact hf.elim
    | cons b tokens =>
      obtain ⟨rfl, rfl, hrest⟩ := hf
      rw [List.mem_cons, not_or] at ht
      rw [ih hrest (Ne.symm ht.1) ht.2, credit, Function.update_of_ne ht.1, debit,
        Function.update_of_ne (Ne.symm ha)]

theorem Swapped.start {action : SwapAction} {amount : ℕ}
    (h : Swapped d previous (action :: actions) d') (hf : Follows t tokens (action :: actions))
    (ht : t ∉ tokens) (hamount : action.amountIn = some amount) :
    amount ≤ d t ∧ d' t = d t - amount := by
  cases tokens with
  | nil => exact hf.elim
  | cons b tokens =>
    obtain ⟨rfl, rfl, hrest⟩ := hf
    rw [List.mem_cons, not_or] at ht
    cases h with
    | cons hin hle _ hnext =>
      rw [hamount, Option.some_or, Option.some.injEq] at hin
      subst hin
      refine ⟨hle, ?_⟩
      rw [hnext.eq_of_not_mem hrest (Ne.symm ht.1) ht.2, credit, Function.update_of_ne ht.1, debit,
        Function.update_self]

end Swapped

section Harvest

variable {wnear : TokenAccount} {client : Client} {wallet : Wallet} {cfg : ConfigAccess}
  {s : Funds}

def Late (cfg : ConfigAccess) (s : Funds) (now : UInt64) : Prop :=
  cfg.harvestIntervalSeconds < now - s.lastHarvest .balances

instance (cfg : ConfigAccess) (s : Funds) (now : UInt64) : Decidable (Late cfg s now) :=
  inferInstanceAs (Decidable (_ < _))

def Calm (cfg : ConfigAccess) (s : Funds) (τ : List TradeExchange) : Prop :=
  nearToYocto cfg.tradeAccountReserve ≤ s.native ∧ ∀ now ∈ clockReadings τ, ¬ Late cfg s now

/-- The account is below its reserve, or the interval is over at the first look at the clock. -/
def HarvestDue (cfg : ConfigAccess) (s : Funds) (τ : List TradeExchange) : Prop :=
  s.native < nearToYocto cfg.tradeAccountReserve ∨
    ∃ now ∈ (clockReadings τ).head?, Late cfg s now

theorem calm_append {τ υ : List TradeExchange} : Calm cfg s (τ ++ υ) ↔
    Calm cfg s τ ∧ ∀ now ∈ clockReadings υ, ¬ Late cfg s now := by
  simp only [Calm, clockReadings_append, List.forall_mem_append, and_assoc]

theorem HarvestDue.not_calm {τ : List TradeExchange} (h : HarvestDue cfg s τ) :
    ¬ Calm cfg s τ := by
  intro hcalm
  rcases h with hreserve | ⟨now, hnow, hlate⟩
  · exact hcalm.1.not_gt hreserve
  · exact hcalm.2 now (List.mem_of_mem_head? hnow) hlate

theorem ensures_isTimeToHarvest : Ensures (honest wnear wallet.accountId)
    (isTimeToHarvest .balances cfg) s fun τ o s' ↦ s' = s ∧ Unmoved τ ∧
      ∃ now, clockReadings τ = [now] ∧ o = .ok (decide (Late cfg s now)) := by
  rw [isTimeToHarvest]
  refine ensures_ask.2 fun last s₁ h₁ ↦ ensures_ask.2 fun now s₂ h₂ ↦ ensures_done.2 ?_
  obtain ⟨rfl, rfl⟩ := h₁
  exact ⟨h₂, ⟨rfl, rfl⟩, now, rfl, rfl⟩

theorem ensures_getNativeAmount : Ensures (honest wnear wallet.accountId)
    (getNativeAmount client wallet.accountId) s fun τ o s' ↦
      s' = s ∧ Unmoved τ ∧ clockReadings τ = [] ∧
        (o = .ok s.native ∨ (∃ e, o = .err e) ∧ ¬ Accepted τ) := by
  rw [getNativeAmount]
  refine ensures_ask.2 fun reply s₁ h₁ ↦ ?_
  obtain ⟨rfl, hamount⟩ := h₁
  cases reply with
  | ok amount => exact ensures_done.2 ⟨rfl, ⟨rfl, rfl⟩, rfl, .inl (by rw [hamount rfl amount rfl])⟩
  | error e =>
    refine ensures_done.2 ⟨rfl, ⟨rfl, rfl⟩, rfl, .inr ⟨⟨e, rfl⟩, fun h ↦ ?_⟩⟩
    obtain ⟨_, hreply⟩ := h _ (List.mem_singleton_self _)
    cases hreply

def Funds.withdrawn (s : Funds) (wnear : TokenAccount) (amount : ℕ) : Funds :=
  { s with deposits := debit s.deposits wnear amount, native := s.native + amount }

theorem ensures_execute {call : Call} {attached : ℕ} {label : String} :
    Ensures (honest wnear wallet.accountId) (execute client ⟨wallet.signer, call, attached⟩ label)
      s fun τ o s' ↦ clockReadings τ = [] ∧
        ((∃ r, o = .ok r) ∧ Serves wnear s attached s' call ∨
          (∃ e, o = .err e) ∧ s' = s ∧ ¬ Accepted τ) := by
  rw [execute]
  refine ensures_ask.2 fun reply s₁ h₁ ↦ ?_
  cases reply with
  | succeeded id output => exact ensures_done.2 ⟨rfl, .inl ⟨⟨_, rfl⟩, (if_pos rfl).mp h₁⟩⟩
  | _ =>
    refine ensures_done.2 ⟨rfl, .inr ⟨⟨_, rfl⟩, h₁, fun h ↦ ?_⟩⟩
    obtain ⟨_, _, hreply⟩ := h _ (List.mem_singleton_self _)
    cases hreply

theorem ensures_withdraw {amount : ℕ} {label : String} : Ensures (honest wnear wallet.accountId)
    (withdraw client wallet wnear amount label) s fun τ o s' ↦
      transfers τ = [] ∧ clockReadings τ = [] ∧
        (o = .ok () ∧ withdrawals τ = [(wnear, amount)] ∧ amount ≤ s.deposits wnear ∧
          s' = s.withdrawn wnear amount ∨
        (∃ e, o = .err e) ∧ withdrawals τ = [] ∧ s' = s ∧ ¬ Accepted τ) := by
  refine ensures_ask.2 fun reply s₁ h₁ ↦ ?_
  cases reply with
  | succeeded id output =>
    obtain ⟨hle, hs'⟩ := (if_pos rfl).mp h₁
    rw [if_pos rfl] at hs'
    exact ensures_done.2 ⟨rfl, rfl, .inl ⟨rfl, rfl, hle, hs'⟩⟩
  | _ =>
    refine ensures_done.2 ⟨rfl, rfl, .inr ⟨⟨_, rfl⟩, rfl, h₁, fun h ↦ ?_⟩⟩
    obtain ⟨_, _, hreply⟩ := h _ (List.mem_singleton_self _)
    cases hreply

theorem ensures_transfer {target : AccountId} {amount : ℕ} :
    Ensures (honest wnear wallet.accountId)
      (do let _ ← transferNativeToken client wallet target amount
          updateLastHarvest .balances) s fun τ _ s' ↦ withdrawals τ = [] ∧
        (transfers τ = [] ∧ s' = s ∧ ¬ Accepted τ ∨
          transfers τ = [(target, amount)] ∧ s'.deposits = s.deposits ∧ s'.wrapped = s.wrapped ∧
          s'.native = if target = wallet.accountId then s.native else s.native - amount) := by
  refine ensures_ask.2 fun reply s₁ h₁ ↦ ?_
  cases reply with
  | succeeded id output =>
    refine ensures_ask.2 fun now s₂ h₂ ↦ ensures_ask.2 fun _ s₃ h₃ ↦ ensures_done.2 ?_
    obtain ⟨-, rfl⟩ := h₁
    obtain rfl := show s₂ = _ from h₂
    obtain rfl := show s₃ = _ from h₃
    refine ⟨rfl, .inr ⟨rfl, rfl, rfl, ?_⟩⟩
    by_cases hown : target = wallet.accountId
    · exact (if_pos hown.symm).trans (if_pos hown).symm
    · exact ((if_neg (Ne.symm hown)).trans (if_pos rfl)).trans (if_neg hown).symm
  | _ =>
    refine ensures_done.2 ⟨rfl, .inl ⟨rfl, h₁, fun h ↦ ?_⟩⟩
    obtain ⟨_, _, hreply⟩ := h _ (List.mem_singleton_self _)
    cases hreply

def HarvestTarget (cfg : ConfigAccess) (target : AccountId) : Prop :=
  ∃ id, cfg.harvestAccountId = .ok id ∧ parseAccountId id = .ok target

/-- No account for the harvest is configured other than one that belongs to somebody else. -/
def HarvestsElsewhere (wallet : Wallet) (cfg : ConfigAccess) : Prop :=
  ∀ id target, cfg.harvestAccountId = .ok id → parseAccountId id = .ok target →
    target ≠ wallet.accountId

/-- The last part of a harvest, which takes `balance` for the native balance and sends what of it
is above `upper`, if the interval is over. -/
inductive SendsSurplus (wallet : Wallet) (cfg : ConfigAccess) (balance upper : ℕ) (s : Funds) :
    List TradeExchange → Outcome String Unit → Funds → Prop
  | idle {τ : List TradeExchange} {o : Outcome String Unit} : transfers τ = [] →
      (∀ now ∈ clockReadings τ, ¬ Late cfg s now) → SendsSurplus wallet cfg balance upper s τ o s
  | stopped {τ : List TradeExchange} {o : Outcome String Unit} : transfers τ = [] →
      (∃ now ∈ clockReadings τ, Late cfg s now) → (∃ m, o = .panicked m) ∨ ¬ Accepted τ →
      SendsSurplus wallet cfg balance upper s τ o s
  | sent {τ : List TradeExchange} {o : Outcome String Unit} {s' : Funds} {target : AccountId} :
      upper < balance → (∃ now ∈ clockReadings τ, Late cfg s now) → HarvestTarget cfg target →
      transfers τ = [(target, balance - upper)] → s'.deposits = s.deposits →
      s'.wrapped = s.wrapped → s'.native = (if target = wallet.accountId then s.native
        else s.native - (balance - upper)) →
      SendsSurplus wallet cfg balance upper s τ o s'

theorem ensures_sendsSurplus {balance upper : ℕ} : Ensures (honest wnear wallet.accountId)
      (do let surplus ← (if upper < balance then isTimeToHarvest .balances cfg else pure false)
          if surplus then
            let target ← Balances.harvestAccount cfg
            let _ ← transferNativeToken client wallet target (balance - upper)
            updateLastHarvest .balances) s fun τ o s' ↦
        withdrawals τ = [] ∧ SendsSurplus wallet cfg balance upper s τ o s' := by
  split_ifs with hupper
  swap
  · exact ensures_done.2 ⟨rfl, .idle rfl nofun⟩
  refine ensures_isTimeToHarvest.bind ?_ ?_ ?_
  · rintro τ surplus s' ⟨rfl, ⟨hw, ht⟩, now, hclock, hsurplus⟩
    obtain rfl : surplus = decide (Late cfg s' now) := Outcome.ok.inj hsurplus
    by_cases hlate : Late cfg s' now
    · have hnow : ∀ υ, ∃ now ∈ clockReadings (τ ++ υ), Late cfg s' now :=
        fun υ ↦ ⟨now, by simp [hclock], hlate⟩
      rw [decide_eq_true hlate, if_pos rfl, Balances.harvestAccount]
      split
      next id hid =>
        rw [parseHarvestAccount]
        split
        next target htarget =>
          refine ensures_transfer.mono ?_
          rintro υ o s'' ⟨hw', ⟨ht', rfl, hfailed⟩ | ⟨ht', hdeposits, hwrapped, hnative⟩⟩
          · refine ⟨by simp [hw, hw'], .stopped (by simp [ht, ht']) (hnow υ) (.inr fun h ↦ ?_)⟩
            exact hfailed (accepted_append.1 h).2
          · exact ⟨by simp [hw, hw'], .sent hupper (hnow υ) ⟨id, hid, htarget⟩ (by simp [ht, ht'])
              hdeposits hwrapped hnative⟩
        next =>
          exact ensures_done.2 ⟨by simp [hw], .stopped (by simp [ht]) (hnow _) (.inl ⟨_, rfl⟩)⟩
      next => exact ensures_done.2 ⟨by simp [hw], .stopped (by simp [ht]) (hnow _) (.inl ⟨_, rfl⟩)⟩
    · rw [decide_eq_false hlate, if_neg Bool.false_ne_true]
      exact ensures_done.2 ⟨by simp [hw], .idle (by simp [ht]) (by simp [hclock, hlate])⟩
  · rintro τ e s' ⟨-, -, _, -, herr⟩
    cases herr
  · rintro τ m s' ⟨-, -, _, -, hpanic⟩
    cases hpanic

theorem ensures_due : Ensures (honest wnear wallet.accountId)
    (if s.native < nearToYocto cfg.tradeAccountReserve then pure true
      else isTimeToHarvest .balances cfg) s fun τ o s' ↦ s' = s ∧ Unmoved τ ∧
        ∃ due, o = .ok due ∧ (due = false → Calm cfg s τ) ∧
          ∀ υ, due = true ↔ HarvestDue cfg s (τ ++ υ) := by
  split_ifs with hreserve
  · exact ensures_done.2 ⟨rfl, ⟨rfl, rfl⟩, true, rfl, nofun, fun _ ↦
      iff_of_true rfl (.inl hreserve)⟩
  · refine ensures_isTimeToHarvest.mono ?_
    rintro τ o s' ⟨rfl, hunmoved, now, hclock, rfl⟩
    refine ⟨rfl, hunmoved, _, rfl, ?_, fun υ ↦ ?_⟩
    · simp [Calm, hclock, not_lt.1 hreserve]
    · simp [HarvestDue, hreserve, hclock]

/-- All that a harvest does to the funds, `amount` of which it withdraws if it is due. -/
inductive Harvested (wnear : TokenAccount) (wallet : Wallet) (cfg : ConfigAccess)
    (amount upper : ℕ) (s : Funds) : List TradeExchange → Outcome String Unit → Funds → Prop
  | failed {τ : List TradeExchange} {o : Outcome String Unit} : ¬ Accepted τ → Unmoved τ →
      Harvested wnear wallet cfg amount upper s τ o s
  | withdrew {τ υ : List TradeExchange} {o : Outcome String Unit} {s' : Funds} :
      HarvestDue cfg s (τ ++ υ) → withdrawals (τ ++ υ) = [(wnear, amount)] → transfers τ = [] →
      amount ≤ s.deposits wnear →
      SendsSurplus wallet cfg (saturatingAdd s.native amount) upper (s.withdrawn wnear amount) υ o
        s' →
      Harvested wnear wallet cfg amount upper s (τ ++ υ) o s'
  | kept {τ υ : List TradeExchange} {o : Outcome String Unit} {s' : Funds} :
      ¬ HarvestDue cfg s (τ ++ υ) → Calm cfg s τ → withdrawals (τ ++ υ) = [] →
      transfers τ = [] → SendsSurplus wallet cfg (saturatingAdd s.native 0) upper s υ o s' →
      Harvested wnear wallet cfg amount upper s (τ ++ υ) o s'

theorem ensures_harvest {amount required : ℕ} : Ensures (honest wnear wallet.accountId)
    (Balances.harvest client wallet wnear amount required cfg) s
    (Harvested wnear wallet cfg amount (Balances.multiplyByBalanceMultiplier required cfg) s) := by
  refine ensures_getNativeAmount.bind ?_ ?_ ?_
  · rintro τ before s₁ ⟨rfl, ⟨hw, ht⟩, hclock, hbefore | ⟨⟨_, hbefore⟩, -⟩⟩
    swap
    · cases hbefore
    obtain rfl : before = s₁.native := Outcome.ok.inj hbefore
    have hdue' : ∀ υ, HarvestDue cfg s₁ (τ ++ υ) ↔ HarvestDue cfg s₁ υ := by
      intro υ
      simp [HarvestDue, hclock]
    refine ensures_due.bind ?_ ?_ ?_
    · rintro υ due s₂ ⟨rfl, ⟨hw', ht'⟩, _, hdue, hcalm, hiff⟩
      obtain rfl := Outcome.ok.inj hdue
      cases due with
      | true =>
        refine ensures_withdraw.bind ?_ ?_ ?_
        · rintro ω _ s₃ ⟨ht₃, -, ⟨-, hw₃, hle, rfl⟩ | ⟨⟨_, herr⟩, -⟩⟩
          swap
          · cases herr
          refine ensures_sendsSurplus.mono ?_
          rintro χ o s₄ ⟨hw₄, hsends⟩
          have hdue : HarvestDue cfg s₂ (τ ++ (υ ++ ω) ++ χ) := by
            rw [List.append_assoc, List.append_assoc, hdue', ← hiff]
          rw [← List.append_assoc υ, ← List.append_assoc τ]
          exact .withdrew hdue (by simp [hw, hw', hw₃, hw₄]) (by simp [ht, ht', ht₃]) hle hsends
        · rintro ω e s₃ ⟨ht₃, -, ⟨hok, -⟩ | ⟨-, hw₃, rfl, hfailed⟩⟩
          · cases hok
          · refine .failed (fun h ↦ ?_) ⟨by simp [hw, hw', hw₃], by simp [ht, ht', ht₃]⟩
            exact hfailed (accepted_append.1 (accepted_append.1 h).2).2
        · rintro ω m s₃ ⟨-, -, ⟨hok, -⟩ | ⟨⟨_, herr⟩, -⟩⟩
          · cases hok
          · cases herr
      | false =>
        refine ensures_sendsSurplus.mono ?_
        rintro χ o s₄ ⟨hw₄, hsends⟩
        have hdue : ¬ HarvestDue cfg s₂ (τ ++ υ ++ χ) := by
          rw [List.append_assoc, hdue', ← hiff]
          exact Bool.false_ne_true
        have hquiet : Calm cfg s₂ (τ ++ υ) := by
          simpa [Calm, hclock] using hcalm rfl
        rw [← List.append_assoc]
        exact .kept hdue hquiet (by simp [hw, hw', hw₄]) (by simp [ht, ht']) hsends
    · rintro υ e s₂ ⟨-, -, _, herr, -⟩
      cases herr
    · rintro υ m s₂ ⟨-, -, _, hpanic, -⟩
      cases hpanic
  · rintro τ e s₁ ⟨rfl, hunmoved, -, hok | ⟨-, hfailed⟩⟩
    · cases hok
    · exact .failed hfailed hunmoved
  · rintro τ m s₁ ⟨-, -, -, hok | ⟨⟨_, herr⟩, -⟩⟩
    · cases hok
    · cases herr

theorem SendsSurplus.kept {balance upper : ℕ} {s' : Funds} {τ : List TradeExchange}
    {o : Outcome String Unit} (h : SendsSurplus wallet cfg balance upper s τ o s') :
    s'.deposits = s.deposits ∧ s'.wrapped = s.wrapped := by
  cases h with
  | idle => exact ⟨rfl, rfl⟩
  | stopped => exact ⟨rfl, rfl⟩
  | sent _ _ _ _ hdeposits hwrapped _ => exact ⟨hdeposits, hwrapped⟩

/-- The funds before and after a step that does nothing if `idle`, and otherwise moves something
unless the chain refuses it. -/
def Disturbs (wnear : TokenAccount) (wallet : Wallet) (cfg : ConfigAccess) (idle : Prop)
    (s : Funds) (τ : List TradeExchange) (s' : Funds) : Prop :=
  idle ∧ s' = s ∨
  ¬ idle ∧ s'.wrapped = s.wrapped ∧ (HarvestsElsewhere wallet cfg → Accepted τ →
    s'.deposits wnear ≠ s.deposits wnear ∨ s'.native ≠ s.native)

theorem Harvested.disturbs {amount upper : ℕ} {τ : List TradeExchange} {o : Outcome String Unit}
    {s' : Funds} (h : Harvested wnear wallet cfg amount upper s τ o s') (hamount : 0 < amount)
    (hpanic : ∀ m, o ≠ .panicked m) : Disturbs wnear wallet cfg (Calm cfg s τ) s τ s' := by
  cases h with
  | failed hfailed =>
    by_cases hcalm : Calm cfg s τ
    · exact .inl ⟨hcalm, rfl⟩
    · exact .inr ⟨hcalm, rfl, fun _ haccepted ↦ (hfailed haccepted).elim⟩
  | withdrew hdue _ _ hle hsends =>
    obtain ⟨hdeposits, hwrapped⟩ := hsends.kept
    have hless : (s.withdrawn wnear amount).deposits wnear = s.deposits wnear - amount :=
      Function.update_self ..
    exact .inr ⟨hdue.not_calm, hwrapped, fun _ _ ↦ .inl (by rw [hdeposits]; omega)⟩
  | kept _ hcalm _ _ hsends =>
    rw [calm_append]
    cases hsends with
    | idle _ hquiet => exact .inl ⟨⟨hcalm, hquiet⟩, rfl⟩
    | stopped _ hlate hstop =>
      obtain ⟨now, hnow, hlate⟩ := hlate
      refine .inr ⟨fun h ↦ h.2 now hnow hlate, rfl, fun _ haccepted ↦ ?_⟩
      rcases hstop with ⟨m, rfl⟩ | hfailed
      · exact (hpanic m rfl).elim
      · exact (hfailed (accepted_append.1 haccepted).2).elim
    | sent hupper hlate htarget _ _ hwrapped hnative =>
      obtain ⟨now, hnow, hlate⟩ := hlate
      obtain ⟨id, hid, hparse⟩ := htarget
      refine .inr ⟨fun h ↦ h.2 now hnow hlate, hwrapped, fun helse _ ↦ .inr ?_⟩
      have hbalance : saturatingAdd s.native 0 ≤ s.native := min_le_left _ _
      rw [hnative, if_neg (helse id _ hid hparse)]
      omega

theorem ensures_balanceOfStartToken {token : TokenAccount} :
    Ensures (honest wnear wallet.accountId) (Balances.balanceOfStartToken client wallet token) s
      fun τ o s' ↦ s' = s ∧ withdrawals τ = [] ∧ clockReadings τ = [] ∧
        ∀ b, o = .ok b → b = s.deposits token ∧ b < 2 ^ 128 := by
  refine ensures_ask.2 fun reply s₁ h₁ ↦ ?_
  obtain ⟨rfl, hdeposits⟩ := h₁
  cases reply with
  | error e => exact ensures_done.2 ⟨rfl, rfl, rfl, nofun⟩
  | ok deposits =>
    refine ensures_done.2 ⟨rfl, rfl, rfl, ?_⟩
    rintro b ⟨⟩
    exact ⟨hdeposits rfl deposits rfl token, BitVec.isLt _⟩

theorem of_start_enough {isMainnet : Bool} {required b : ℕ} {s' : Funds} {τ : List TradeExchange}
    (h : Runs (honest (wnearToken isMainnet) wallet.accountId)
      (do let upper := Balances.multiplyByBalanceMultiplier required cfg
          let harvested := (Balances.harvest client wallet (wnearToken isMainnet)
            (s.deposits (wnearToken isMainnet) - upper) required cfg).attempt
          (do let _ ← harvested).when (upper < s.deposits (wnearToken isMainnet))
          pure (s.deposits (wnearToken isMainnet))) s τ (.ok b) s') :
    b = s.deposits (wnearToken isMainnet) ∧
    if Balances.multiplyByBalanceMultiplier required cfg < s.deposits (wnearToken isMainnet) then
      ∃ o, (∀ m, o ≠ .panicked m) ∧ Harvested (wnearToken isMainnet) wallet cfg
        (s.deposits (wnearToken isMainnet) - Balances.multiplyByBalanceMultiplier required cfg)
        (Balances.multiplyByBalanceMultiplier required cfg) s τ o s'
    else withdrawals τ = [] ∧ s' = s := by
  obtain ⟨_, τ₁, τ₂, s₁, h₁, h₂, rfl⟩ := h.of_bind_ok
  obtain ⟨hb, rfl, rfl⟩ := h₂.of_pure
  refine ⟨Outcome.ok.inj hb, ?_⟩
  rw [Program.when] at h₁
  rw [List.append_nil]
  split_ifs at h₁ ⊢ with hupper
  · obtain ⟨_, τ₃, τ₄, s₂, h₃, h₄, rfl⟩ := h₁.of_bind_ok
    obtain ⟨-, rfl, rfl⟩ := h₄.of_pure
    obtain ⟨o, hpanic, hharvest⟩ := h₃.of_attempt_ok
    rw [List.append_nil]
    exact ⟨o, hpanic, ensures_harvest τ₃ o s' hharvest⟩
  · obtain ⟨-, rfl, rfl⟩ := Runs.of_pure (a := ()) h₁
    exact ⟨rfl, rfl⟩

/-- The swap amount leaves nothing to harvest, or there is no reason for a harvest. -/
def HarvestIdle (wnear : TokenAccount) (cfg : ConfigAccess) (amount : ℕ) (s : Funds)
    (τ : List TradeExchange) : Prop :=
  s.deposits wnear ≤ Balances.multiplyByBalanceMultiplier amount cfg ∨ Calm cfg s τ

theorem of_start {isMainnet : Bool} {amount b : ℕ} {s' : Funds} {τ : List TradeExchange}
    (hle : amount ≤ s.deposits (wnearToken isMainnet))
    (h : Runs (honest (wnearToken isMainnet) wallet.accountId)
      (Balances.start isMainnet client wallet (wnearToken isMainnet) (some amount) cfg) s τ (.ok b)
      s') :
    b = s.deposits (wnearToken isMainnet) ∧ b < 2 ^ 128 ∧
      Disturbs (wnearToken isMainnet) wallet cfg
        (HarvestIdle (wnearToken isMainnet) cfg amount s τ) s τ s' := by
  obtain ⟨deposited, τ₁, τ₂, s₁, h₁, hrest, rfl⟩ := h.of_bind_ok
  obtain ⟨rfl, -, hclock, hb⟩ := ensures_balanceOfStartToken _ _ _ h₁
  obtain ⟨rfl, hbound⟩ := hb deposited rfl
  rw [Option.getD_some, if_neg (not_lt.2 hle)] at hrest
  obtain ⟨rfl, hharvest⟩ := of_start_enough hrest
  refine ⟨rfl, hbound, ?_⟩
  split_ifs at hharvest with hsurplus
  · obtain ⟨o, hpanic, hharvest⟩ := hharvest
    have hidle : HarvestIdle (wnearToken isMainnet) cfg amount s₁ (τ₁ ++ τ₂) ↔
        Calm cfg s₁ τ₂ := by
      rw [HarvestIdle, or_iff_right (not_le.2 hsurplus), Calm, Calm, clockReadings_append, hclock,
        List.nil_append]
    rw [Disturbs, hidle]
    refine (hharvest.disturbs (Nat.sub_pos_of_lt hsurplus) hpanic).imp_right fun hmoved ↦ ?_
    exact ⟨hmoved.1, hmoved.2.1, fun helse haccepted ↦
      hmoved.2.2 helse (accepted_append.1 haccepted).2⟩
  · exact .inl ⟨.inl (not_lt.1 hsurplus), hharvest.2⟩

end Harvest

section Swap

variable {setting : Setting} {client : Client} {wallet : Wallet} {params : SwapParams}
  {cfg : ConfigAccess} {wnear : TokenAccount} {account : AccountId} {s s' : Funds}
  {τ : List TradeExchange}

theorem of_idle {α : Type} {p : TradeProgram α} {o : Outcome String α} (huses : p.Uses Request.Idle)
    (h : Runs (honest wnear account) p s τ o s') : s' = s ∧ clockReadings τ = [] := by
  obtain ⟨hs, hidle⟩ := ensures_of_uses huses (fun _ _ _ _ ↦ honest_idle) τ o s' h
  exact ⟨hs, clockReadings_of_idle hidle⟩

theorem idle_readPools : readPools.Uses Request.Idle :=
  (uses_perform trivial).bind fun _ ↦ uses_query trivial

theorem idle_getTokenDecimalsCached {token : TokenAccount} :
    (getTokenDecimalsCached client token).Uses Request.Idle := by
  refine (uses_perform trivial).bind fun cached ↦ ?_
  cases cached with
  | some decimals => trivial
  | none =>
    refine (uses_perform trivial).bind fun _ ↦ (uses_ofExcept _).bind fun _ ↦ ?_
    exact (uses_perform trivial).bind fun _ ↦ trivial

theorem idle_recordTrade {recorder : TradeRecorder} {txId : String} {a b : TokenAccount}
    {x y : TokenAmount} {z : Option TokenAmount} :
    (recorder.recordTrade txId a x b y z).Uses Request.Idle :=
  (uses_perform trivial).bind fun _ ↦ uses_withContext (uses_query trivial)

theorem idle_ensureRefStorageSetup {tokens keep : List TokenAccount} {maxTopUp : ℕ} :
    (ensureRefStorageSetup client wallet tokens keep maxTopUp).Uses Request.Idle := by
  refine Uses.embed (uses_of_forall (fun q ↦ ?_) _)
  cases q with
  | exec tx => exact ⟨tx.method, rfl⟩
  | _ => trivial

theorem of_ofOutcome {α : Type} {x : Outcome String α} {a : α}
    (h : Runs (honest wnear account) (.ofOutcome x : TradeProgram α) s τ (.ok a) s') :
    x = .ok a ∧ s' = s ∧ τ = [] := by
  cases h with
  | done => exact ⟨rfl, rfl, rfl⟩

theorem of_ofExcept {α : Type} {x : Except String α} {a : α}
    (h : Runs (honest wnear account) (.ofExcept x : TradeProgram α) s τ (.ok a) s') :
    s' = s ∧ τ = [] := by
  cases x with
  | error e => cases h
  | ok b => exact h.of_pure.2

theorem of_swapAlong {amount : ℕ} {path : TokenPath}
    (h : Runs (honest wnear wallet.accountId) (swapAlong client wallet params amount path) s τ
      (.ok ()) s') :
    clockReadings τ = [] ∧ ∃ minOut actions out,
      buildSwapActions path ⟨BitVec.ofNat 128 amount, minOut⟩ = .ok (actions, out) ∧
        Serves wnear s 1 s' (.swap actions) := by
  obtain ⟨estimated, _, _, _, h₁, hrest₁, rfl⟩ := h.of_bind_ok
  obtain ⟨rfl, rfl⟩ := of_ofExcept h₁
  obtain ⟨minOut, _, _, _, h₂, hrest₂, rfl⟩ := hrest₁.of_bind_ok
  obtain ⟨rfl, rfl⟩ := of_ofExcept h₂
  obtain ⟨⟨actions, out⟩, _, _, _, h₃, hrest₃, rfl⟩ := hrest₂.of_bind_ok
  obtain ⟨hbuild, rfl, rfl⟩ := of_ofOutcome h₃
  obtain ⟨⟨txId, output⟩, τ₁, τ₂, s₁, h₄, hrest₄, rfl⟩ := hrest₃.of_bind_ok
  obtain ⟨hclock, ⟨-, hserves⟩ | ⟨⟨_, herr⟩, -⟩⟩ := ensures_execute _ _ _ h₄
  · have huses : ∀ (fromDecimals toDecimals : ℕ), (params.recorder.recordTrade txId
        params.fromToken ⟨amount, fromDecimals⟩ params.toToken ⟨out.toNat, toDecimals⟩
        (output.toOption.map fun actual ↦ (⟨actual, toDecimals⟩ : TokenAmount))).Uses
        Request.Idle := fun _ _ ↦ idle_recordTrade
    obtain ⟨rfl, hquiet⟩ := of_idle (idle_getTokenDecimalsCached.bind fun _ ↦
      idle_getTokenDecimalsCached.bind fun _ ↦ huses _ _) hrest₄
    exact ⟨by simp [hclock, hquiet], minOut, actions, out, hbuild, hserves⟩
  · cases herr

theorem findPath_along {pools : PoolInfoList} (hpools : pools.Consistent)
    {start goal : TokenAccount} {path : TokenPath}
    (h : findPath setting pools start goal = .ok path) :
    ∃ q, start ∉ q ++ [goal] ∧ TokenPath.Along start (q ++ [goal]) path := by
  obtain ⟨⟨goals, graph⟩, hgraph, hpath⟩ := Outcome.bind_eq_ok.1 h
  rw [updatedGraph] at hgraph
  split at hgraph
  · cases hgraph
  · cases hgraph
  · next goals' graph' hupdate =>
    cases hgraph
    dsimp only at hpath
    split at hpath
    · cases hpath
    · cases hpath
    · next path' hget =>
      split at hpath
      · cases hpath
      · cases hpath
        exact TokenGraph.getPath_fresh hpools hupdate hget

theorem of_swapAlong_path {amount : ℕ} {path : TokenPath} {start : TokenAccount}
    {tokens : List TokenAccount} (hbound : amount < 2 ^ 128) (hstart : start ∉ tokens)
    (htokens : tokens ≠ []) (halong : TokenPath.Along start tokens path)
    (h : Runs (honest wnear wallet.accountId) (swapAlong client wallet params amount path) s τ
      (.ok ()) s') :
    clockReadings τ = [] ∧ amount ≤ s.deposits start ∧
      s'.deposits start = s.deposits start - amount ∧ s'.native = s.native ∧
      s'.wrapped = s.wrapped := by
  obtain ⟨hclock, minOut, actions, out, hbuild, d, hswapped, rfl⟩ := of_swapAlong h
  cases path with
  | nil =>
    cases tokens with
    | nil => exact (htokens rfl).elim
    | cons _ _ => exact halong.elim
  | cons pair path =>
    rw [buildSwapActions_cons] at hbuild
    have hfollows := buildSwapActionsFrom_follows hbuild halong
    obtain ⟨action, rest, _, rfl, -, -, hamount, -⟩ := buildSwapActionsFrom_cons hbuild
    rw [if_pos rfl, BitVec.toNat_ofNat, Nat.mod_eq_of_lt hbound] at hamount
    obtain ⟨hle, hd⟩ := hswapped.start hfollows hstart hamount
    exact ⟨hclock, hle, hd, rfl, rfl⟩

theorem of_readPools {pools : PoolInfoList}
    (h : Runs (honest wnear account) readPools s τ (.ok pools) s') :
    s' = s ∧ clockReadings τ = [] ∧ pools.Consistent := by
  obtain ⟨now, s₁, υ, -, h₁, rfl⟩ := Runs.of_ask h
  obtain ⟨reply, s₂, ω, ⟨-, hreply⟩, h₂, rfl⟩ := Runs.of_ask h₁
  obtain ⟨hs, hclock⟩ := of_idle idle_readPools h
  cases reply with
  | error e => cases h₂
  | ok pools' =>
    cases h₂
    obtain ⟨db, hdb⟩ := hreply _ rfl
    have hread : db.readFromDb none now = .ok pools := hdb
    exact ⟨hs, hclock, Database.readFromDb_consistent hread⟩

theorem of_swapWith {amount balance : ℕ} (hfrom : params.fromToken = setting.wnear)
    (hamount : params.swapAmount = some amount) (hle : amount ≤ balance)
    (hbound : balance < 2 ^ 128)
    (h : Runs (honest setting.wnear wallet.accountId)
      (do let pools ← readPools
          let path ← Program.ofOutcome (findPath setting pools params.fromToken params.toToken)
          let tokens ← .ofOutcome ((TokenPath.allTokens path).mapErr Dex.Error.message)
          ensureRefStorageSetup client wallet tokens (keepWnearOnly setting.isMainnet)
            (maxTopUpFromConfig cfg)
          swapAlong client wallet params (min (params.swapAmount.getD balance) balance) path)
      s τ (.ok ()) s') :
    clockReadings τ = [] ∧ amount ≤ s.deposits setting.wnear ∧
      s'.deposits setting.wnear = s.deposits setting.wnear - amount ∧ s'.native = s.native ∧
      s'.wrapped = s.wrapped := by
  obtain ⟨pools, τ₁, _, _, h₁, hrest₁, rfl⟩ := h.of_bind_ok
  obtain ⟨rfl, hclock₁, hpools⟩ := of_readPools h₁
  obtain ⟨path, _, _, _, h₂, hrest₂, rfl⟩ := hrest₁.of_bind_ok
  obtain ⟨hpath, rfl, rfl⟩ := of_ofOutcome h₂
  obtain ⟨tokens, _, _, _, h₃, hrest₃, rfl⟩ := hrest₂.of_bind_ok
  obtain ⟨-, rfl, rfl⟩ := of_ofOutcome h₃
  obtain ⟨_, τ₄, τ₅, _, h₄, hswap, rfl⟩ := hrest₃.of_bind_ok
  obtain ⟨rfl, hclock₄⟩ := of_idle idle_ensureRefStorageSetup h₄
  rw [hamount, Option.getD_some, min_eq_left hle] at hswap
  rw [hfrom] at hpath
  obtain ⟨q, hstart, halong⟩ := findPath_along hpools hpath
  obtain ⟨hclock₅, hframe⟩ :=
    of_swapAlong_path (hle.trans_lt hbound) hstart (by simp) halong hswap
  exact ⟨by simp [hclock₁, hclock₄, hclock₅], hframe⟩

/-- The swap takes its amount from the deposit, and nothing else has changed. -/
def SwapFrame (wnear : TokenAccount) (amount : ℕ) (s s' : Funds) : Prop :=
  s'.deposits wnear = s.deposits wnear - amount ∧ s'.native = s.native ∧ s'.wrapped = s.wrapped

/-- A purchase leaves the other funds alone if there is nothing to harvest or no reason to. If
there is, and the chain does not refuse it, it does not. -/
theorem swapFrame_iff (setting : Setting) (client : Client) (wallet : Wallet)
    (params : SwapParams) (cfg : ConfigAccess) (amount : ℕ) (s s' : Funds)
    (τ : List TradeExchange) (hfrom : params.fromToken = setting.wnear)
    (hamount : params.swapAmount = some amount) (hpos : 0 < amount)
    (hle : amount ≤ s.deposits setting.wnear)
    (hrun : Runs (honest setting.wnear wallet.accountId)
      (executeDirectSwap setting client wallet params cfg) s τ (.ok ()) s') :
    (HarvestIdle setting.wnear cfg amount s τ → SwapFrame setting.wnear amount s s') ∧
      (HarvestsElsewhere wallet cfg → Accepted τ → SwapFrame setting.wnear amount s s' →
        HarvestIdle setting.wnear cfg amount s τ) := by
  obtain ⟨balance, τ₁, τ₂, s₁, hbalance, hrest, rfl⟩ := hrun.of_bind_ok
  rw [balanceToSwap, if_pos hfrom, hfrom, hamount] at hbalance
  obtain ⟨rfl, hbound, hstart⟩ := of_start hle hbalance
  have hbalance : s.deposits (wnearToken setting.isMainnet) ≠ 0 := (hpos.trans_le hle).ne'
  rw [if_neg hbalance] at hrest
  obtain ⟨hclock, hleft, hdeposit, hnative, hwrapped⟩ := of_swapWith hfrom hamount hle hbound hrest
  have hidle : HarvestIdle setting.wnear cfg amount s (τ₁ ++ τ₂) ↔
      HarvestIdle setting.wnear cfg amount s τ₁ := by
    rw [HarvestIdle, HarvestIdle, Calm, Calm, clockReadings_append, hclock, List.append_nil]
  rw [hidle, SwapFrame, hdeposit, hnative, hwrapped]
  rcases hstart with ⟨hquiet, rfl⟩ | ⟨hquiet, hsame, hmoved⟩
  · exact ⟨fun _ ↦ ⟨rfl, rfl, rfl⟩, fun _ _ _ ↦ hquiet⟩
  · refine ⟨fun h ↦ (hquiet h).elim, fun helse haccepted hframe ↦ ?_⟩
    rcases hmoved helse (accepted_append.1 haccepted).1 with hne | hne
    · have hwnear : s₁.deposits setting.wnear = s.deposits setting.wnear := by omega
      exact (hne hwnear).elim
    · exact (hne hframe.2.1).elim

end Swap

structure Ledger where
  deposits : SortedMap TokenAccount U128
  native : U128
  wrapped : U128
  lastHarvest : HarvestClock → UInt64

namespace Ledger

def trader : AccountId := "trader.near"

def purchaseToken : TokenAccount := ⟨"a.near"⟩

def funds (l : Ledger) : Funds :=
  ⟨fun token ↦ (depositOf l.deposits token).toNat, l.native.toNat, l.wrapped.toNat,
    l.lastHarvest⟩

def take (l : Ledger) (token : TokenAccount) (amount : ℕ) : SortedMap TokenAccount U128 :=
  l.deposits.insert token (BitVec.ofNat 128 ((depositOf l.deposits token).toNat - amount))

def swapOne (l : Ledger) : List SwapAction → Sent × Ledger
  | [action] =>
    match action.amountIn with
    | some amount =>
      if amount ≤ (depositOf l.deposits action.tokenIn).toNat ∧ action.minAmountOut = 0 then
        (.succeeded "swap" (.ok 0), { l with deposits := l.take action.tokenIn amount })
      else (.refused "", l)
    | none => (.refused "", l)
  | _ => (.refused "", l)

/-- Withdrawals of wrapped NEAR and such swaps. All else is refused. -/
def exec (l : Ledger) : Call → Sent × Ledger
  | .storage _ => (.succeeded "storage" (.ok 0), l)
  | .withdraw token amount =>
    if token = wnearToken true ∧ amount ≤ (depositOf l.deposits token).toNat ∧
        l.native.toNat + amount < 2 ^ 128 then
      (.succeeded "withdraw" (.ok 0),
        { l with
          deposits := l.take token amount
          native := BitVec.ofNat 128 (l.native.toNat + amount) })
    else (.refused "", l)
  | .swap actions => l.swapOne actions
  | _ => (.refused "", l)

def market : Database :=
  ⟨[⟨TokenGraph.twoTokenPool 0 (wnearToken true) purchaseToken 100000 100000, 0⟩], [], [],
    [⟨"eval_1", 0, 0, none, 0⟩], [], []⟩

def answer (seconds : UInt64) : (q : Request) → Ledger → Answer q × Ledger
  | .chain _ (.storageBalanceOf _), l => (.ok (some ⟨10 ^ 30, 10 ^ 30⟩), l)
  | .chain _ .storageBalanceBounds, l => (.ok ⟨1, none⟩, l)
  | .chain _ (.getDeposits _), l => (.ok l.deposits, l)
  | .chain _ (.wnearBalanceOf _), l => (.ok l.wrapped, l)
  | .chain _ (.nativeAmount _), l => (.ok l.native, l)
  | .chain _ (.ftMetadata _), l => (.ok 24, l)
  | .chain _ (.ftBalanceOf _), l => (.error "", l)
  | .chain _ (.ftTotalSupply _), l => (.error "", l)
  | .chain _ (.exec tx), l => if tx.signer = trader then l.exec tx.call else (.refused "", l)
  | .chain _ (.transferNativeToken ..), l => (.refused "", l)
  | .db q, l => ((market.answer q).1, l)
  | .utcNow, l => ((0 : ℤ), l)
  | .unixSeconds, l => (seconds, l)
  | .newUuid, l => ("", l)
  | .lastHarvest clock, l => (l.lastHarvest clock, l)
  | .setLastHarvest clock seconds, l =>
    ((), { l with lastHarvest := Function.update l.lastHarvest clock seconds })
  | .newWallet, l => (none, l)
  | .newPredictionService, l => (.ok (), l)
  | .cachedDecimals _, l => (none, l)
  | .cacheDecimals .., l => ((), l)

theorem funds_take (l : Ledger) (token : TokenAccount) (amount : ℕ) :
    (fun t ↦ (depositOf (l.take token amount) t).toNat) = debit l.funds.deposits token amount := by
  funext t
  rw [debit, take, depositOf, SortedMap.get_insert]
  by_cases ht : t = token
  · subst ht
    rw [if_pos rfl, Function.update_self, Option.getD_some, BitVec.toNat_ofNat]
    exact Nat.mod_eq_of_lt ((Nat.sub_le _ _).trans_lt (BitVec.isLt _))
  · rw [if_neg ht, Function.update_of_ne ht]
    rfl

theorem swapOne_spec (l : Ledger) (actions : List SwapAction) :
    (∃ id output d, (l.swapOne actions).1 = .succeeded id output ∧
      Swapped l.funds.deposits none actions d ∧
      (l.swapOne actions).2.funds = { l.funds with deposits := d }) ∨
    l.swapOne actions = (.refused "", l) := by
  match actions with
  | [] => exact .inr rfl
  | _ :: _ :: _ => exact .inr rfl
  | [⟨poolId, tokenIn, none, tokenOut, minOut⟩] => exact .inr rfl
  | [⟨poolId, tokenIn, some amount, tokenOut, minOut⟩] =>
    simp only [swapOne]
    split_ifs with hok
    · obtain ⟨hle, rfl⟩ := hok
      have hcredit : credit (debit l.funds.deposits tokenIn amount) tokenOut 0 =
          debit l.funds.deposits tokenIn amount := Function.update_eq_self tokenOut _
      refine .inl ⟨_, _, _, rfl, .cons rfl hle (le_refl 0) .nil, ?_⟩
      rw [hcredit, funds, funds_take]
      rfl
    · exact .inr rfl

theorem exec_spec (l : Ledger) (call : Call) (attached : ℕ) :
    (∃ id output, (l.exec call).1 = .succeeded id output ∧
      Serves (wnearToken true) l.funds attached (l.exec call).2.funds call) ∨
    l.exec call = (.refused "", l) := by
  cases call with
  | storage method => exact .inl ⟨_, _, rfl, rfl⟩
  | withdraw token amount =>
    rw [exec]
    split_ifs with hok
    · obtain ⟨rfl, hle, hfits⟩ := hok
      refine .inl ⟨_, _, rfl, hle, ?_⟩
      rw [funds, funds_take, if_pos rfl, BitVec.toNat_ofNat, Nat.mod_eq_of_lt hfits]
      rfl
    · exact .inr rfl
  | swap actions =>
    rcases l.swapOne_spec actions with ⟨id, output, d, hsent, hswapped, hfunds⟩ | hrefused
    · exact .inl ⟨id, output, hsent, d, hswapped, hfunds⟩
    · exact .inr hrefused
  | _ => exact .inr rfl

theorem honest_answer (seconds : UInt64) (q : Request) (l : Ledger) :
    honest (wnearToken true) trader q l.funds (answer seconds q l).1
      (answer seconds q l).2.funds := by
  cases q with
  | chain client q =>
    cases q with
    | exec tx =>
      rw [answer]
      split_ifs with hsigner
      · rcases l.exec_spec tx.call tx.deposit with ⟨id, output, hsent, hserves⟩ | hrefused
        · rw [hsent]
          exact (if_pos hsigner).mpr hserves
        · rw [hrefused]
          exact rfl
      · exact rfl
    | getDeposits owner => exact ⟨rfl, by rintro - _ ⟨⟩ token; rfl⟩
    | nativeAmount owner => exact ⟨rfl, by rintro - _ ⟨⟩; rfl⟩
    | wnearBalanceOf owner => exact ⟨rfl, by rintro - _ ⟨⟩; rfl⟩
    | _ => rfl
  | db q => exact ⟨rfl, fun reply h ↦ ⟨market, h⟩⟩
  | lastHarvest clock => exact ⟨rfl, rfl⟩
  | _ => rfl

def opening (deposit native : U128) : Ledger :=
  ⟨(SortedMap.empty.insert (wnearToken true) deposit).insert purchaseToken 0, native, 0, fun _ ↦ 0⟩

def buyOne : SwapParams :=
  ⟨wnearToken true, purchaseToken, some 1, ⟨"", "eval_1"⟩, .unprotected⟩

def purchase (deposit native : U128) : Program.Report Request Answer String Unit Ledger :=
  (executeDirectSwap ⟨true, .lists, 10⟩ .given ⟨trader⟩ buyOne Simulate.simulationConfig).run
    (answer 0) (opening deposit native)

theorem purchase_runs (deposit native : U128) (h : (purchase deposit native).outcome = .ok ()) :
    Runs (honest (wnearToken true) trader)
      (executeDirectSwap ⟨true, .lists, 10⟩ .given ⟨trader⟩ buyOne Simulate.simulationConfig)
      (opening deposit native).funds (purchase deposit native).trace (.ok ())
      (purchase deposit native).state.funds :=
  h ▸ runs_of_run funds (honest_answer 0) _ (opening deposit native)

/-- An account that keeps its reserve. -/
theorem swapFrame_purchase :
    HarvestIdle (wnearToken true) Simulate.simulationConfig 1 (opening 1000 (10 ^ 25)).funds
      (purchase 1000 (10 ^ 25)).trace ∧
    SwapFrame (wnearToken true) 1 (opening 1000 (10 ^ 25)).funds
      (purchase 1000 (10 ^ 25)).state.funds := by
  have hrun := purchase_runs 1000 (10 ^ 25) (by decide +kernel)
  have hidle : HarvestIdle (wnearToken true) Simulate.simulationConfig 1
      (opening 1000 (10 ^ 25)).funds (purchase 1000 (10 ^ 25)).trace :=
    .inr ⟨by decide +kernel, List.forall_mem_iff_forall_getElem.2 (by decide +kernel)⟩
  exact ⟨hidle, (swapFrame_iff ⟨true, .lists, 10⟩ .given ⟨trader⟩ buyOne
    Simulate.simulationConfig 1 _ _ _ rfl rfl (by decide) (by decide +kernel) hrun).1 hidle⟩

/-- Without native balance the purchase takes 872 of the 1000 in the exchange out of it. -/
theorem purchase_withdraws :
    Runs (honest (wnearToken true) trader)
      (executeDirectSwap ⟨true, .lists, 10⟩ .given ⟨trader⟩ buyOne Simulate.simulationConfig)
      (opening 1000 0).funds (purchase 1000 0).trace (.ok ()) (purchase 1000 0).state.funds ∧
    (opening 1000 0).funds.deposits (wnearToken true) = 1000 ∧
    (purchase 1000 0).state.funds.deposits (wnearToken true) = 127 ∧
    (purchase 1000 0).state.funds.native = 872 ∧
    ¬ SwapFrame (wnearToken true) 1 (opening 1000 0).funds (purchase 1000 0).state.funds := by
  have hbefore : (opening 1000 0).funds.deposits (wnearToken true) = 1000 := by decide +kernel
  have hafter : (purchase 1000 0).state.funds.deposits (wnearToken true) = 127 := by
    decide +kernel
  refine ⟨purchase_runs 1000 0 (by decide +kernel), hbefore, hafter, by decide +kernel, ?_⟩
  rintro ⟨hdeposit, -⟩
  omega

end Ledger

end Zaciraci.Trade
