import Zaciraci.Trade.SwapFrame

namespace Zaciraci.Trade

open Lib Program Storage

def nativeReadings (τ : List TradeExchange) : List U128 :=
  τ.filterMap fun
    | ⟨.chain _ (.nativeAmount _), .ok amount⟩ => some amount
    | _ => none

def stamps (τ : List TradeExchange) : List UInt64 :=
  τ.filterMap fun
    | ⟨.setLastHarvest .trade seconds, _⟩ => some seconds
    | _ => none

def lastReadings (τ : List TradeExchange) : List UInt64 :=
  τ.filterMap fun
    | ⟨.lastHarvest .trade, seconds⟩ => some seconds
    | _ => none

def transferReplies (τ : List TradeExchange) : List Sent :=
  τ.filterMap fun
    | ⟨.chain _ (.transferNativeToken ..), reply⟩ => some reply
    | _ => none

def sentSum (τ : List TradeExchange) : ℕ := ((transfers τ).map Prod.snd).sum

@[simp] theorem nativeReadings_append (τ υ : List TradeExchange) :
    nativeReadings (τ ++ υ) = nativeReadings τ ++ nativeReadings υ := List.filterMap_append

@[simp] theorem stamps_append (τ υ : List TradeExchange) :
    stamps (τ ++ υ) = stamps τ ++ stamps υ := List.filterMap_append

@[simp] theorem transferReplies_append (τ υ : List TradeExchange) :
    transferReplies (τ ++ υ) = transferReplies τ ++ transferReplies υ := List.filterMap_append

/-- Neither reads the native balance, nor transfers, nor notes the time of a harvest. -/
def Request.Aside : Request → Prop
  | .chain _ (.nativeAmount _) | .chain _ (.transferNativeToken ..) | .setLastHarvest .. => False
  | _ => True

structure Uneventful (τ : List TradeExchange) : Prop where
  nativeReadings : nativeReadings τ = []
  transferReplies : transferReplies τ = []
  transfers : transfers τ = []
  stamps : stamps τ = []

theorem uneventful_of_aside {τ : List TradeExchange} (h : ∀ e ∈ τ, e.request.Aside) :
    Uneventful τ := by
  constructor <;>
  · refine List.filterMap_eq_nil_iff.2 fun e he ↦ ?_
    have haside := h e he
    split
    · exact haside.elim
    · rfl

section Aside

variable {client : Client} {wallet : Wallet} {cfg : ConfigAccess} {amount : ℕ} {label : String}

theorem aside_execute {tx : Transaction} : (execute client tx label).Uses Request.Aside :=
  (uses_perform trivial).bind fun _ ↦ uses_ofExcept _

theorem aside_withdraw {token : TokenAccount} :
    (withdraw client wallet token amount label).Uses Request.Aside :=
  aside_execute.bind fun _ ↦ trivial

theorem aside_unwrap : (unwrap client wallet amount label).Uses Request.Aside :=
  aside_execute.bind fun _ ↦ trivial

theorem aside_newWallet : newWallet.Uses Request.Aside := by
  refine (uses_perform trivial).bind fun wallet ↦ ?_
  cases wallet <;> trivial

theorem aside_record {periodId txId : String} {a b : TokenAccount} {x y : TokenAmount}
    {z : Option TokenAmount} :
    (do let recorder ← TradeRecorder.new periodId
        recorder.recordTrade txId a x b y z).Uses Request.Aside := by
  refine Uses.bind ((uses_perform trivial).bind fun _ ↦ trivial) fun recorder ↦ ?_
  exact (uses_perform trivial).bind fun _ ↦ uses_withContext (uses_query trivial)

end Aside

theorem always_bind_aside {α β : Type} {p : TradeProgram α} {f : α → TradeProgram β}
    {Φ : List TradeExchange → β → Prop} (hp : p.Uses Request.Aside)
    (hΦ : ∀ τ υ b, Uneventful τ → Φ υ b → Φ (τ ++ υ) b)
    (hf : ∀ a, Always (fun τ o ↦ ∀ b, o = .ok b → Φ τ b) (f a)) :
    Always (fun τ o ↦ ∀ b, o = .ok b → Φ τ b) (p >>= f) := by
  refine hp.always.bind (fun τ a hτ ↦ (hf a).mono fun υ o h b ho ↦ ?_) (fun _ _ _ ↦ nofun)
    fun _ _ _ ↦ nofun
  exact hΦ τ υ b (uneventful_of_aside hτ) (h b ho)

def Sent.Succeeded : Sent → Prop
  | .succeeded .. => True
  | _ => False

/-- What a call finds: the noted time of the last harvest, the time now, the native balance after
unwrapping, and what becomes of a transfer. -/
structure Circumstances where
  last : UInt64
  now : UInt64
  native : U128
  transfer : Sent

namespace Circumstances

structure HoldAtTransfer (found : Circumstances) (τ : List TradeExchange) : Prop where
  native : ∀ n ∈ nativeReadings τ, n = found.native
  transfer : ∀ reply ∈ transferReplies τ, reply = found.transfer

/-- A call was answered so. The time is compared at its first look at the clock. -/
structure Hold (found : Circumstances) (τ : List TradeExchange) : Prop
    extends found.HoldAtTransfer τ where
  last : ∀ last ∈ lastReadings τ, last = found.last
  now : ∀ now ∈ (clockReadings τ).head?, now = found.now

variable (found : Circumstances) (cfg : ConfigAccess)

/-- A tenth of the value above twice the initial one is worth a harvest, and its time has come. -/
structure Due (initial current : BigDecimal) : Prop where
  nonzero : initial ≠ 0
  doubled : 2 * initial < current
  enough : nearToYocto cfg.harvestMinAmount ≤ (current - 2 * initial) / 10
  elapsed : cfg.harvestIntervalSeconds < found.now - found.last

/-- The transfer succeeds, and the balance exceeds the reserve by that tenth. -/
structure Pays (initial current : BigDecimal) : Prop where
  transfer : found.transfer.Succeeded
  reserve : nearToYocto cfg.harvestReserveAmount < found.native.toNat
  covers : nearToYocto cfg.harvestReserveAmount + ⌊(current - 2 * initial) / 10⌋ ≤
    found.native.toNat

/-- What becomes of `amount` that is to go to `target`: as much of it as the balance covers
without the reserve is transferred, if there is any. -/
structure Paid (target : AccountId) (amount : ℕ) (τ : List TradeExchange) : Prop where
  sent : found.transfer.Succeeded → nearToYocto cfg.harvestReserveAmount < found.native.toNat →
    transfers τ = [(target, min amount
      (found.native.toNat - nearToYocto cfg.harvestReserveAmount))]
  unsent : ¬ (found.transfer.Succeeded ∧
    nearToYocto cfg.harvestReserveAmount < found.native.toNat) → transfers τ = []

/-- How a harvest went that returns its last argument: none was due, or it was carried out, and
then the full amount is returned whatever was sent of it. -/
inductive Returned (initial current : BigDecimal) (τ : List TradeExchange) : BigDecimal → Prop
  | skipped : ¬ found.Due cfg initial current → stamps τ = [] → transfers τ = [] →
      Returned initial current τ 0
  | executed {target : AccountId} : found.Due cfg initial current → stamps τ ≠ [] →
      parseAccountId (harvestAccountId cfg) = .ok target →
      found.Paid cfg target (yoctoToU128 (harvestAmountOf initial current)) τ →
      Returned initial current τ (harvestAmountOf initial current)

end Circumstances

section Harvest

variable {setting : Setting} {cfg : ConfigAccess} {target : AccountId} {periodId : String}

theorem always_executeHarvestTransfer {amount : BigDecimal} :
    Always (fun τ o ↦ ∀ b, o = .ok b → stamps τ = [] ∧ ∀ found : Circumstances,
        found.HoldAtTransfer τ → found.Paid cfg target (yoctoToU128 amount) τ)
      (executeHarvestTransfer setting target amount periodId cfg) := by
  have hΦ : ∀ τ υ (b : Unit), Uneventful τ →
      (stamps υ = [] ∧ ∀ found : Circumstances,
        found.HoldAtTransfer υ → found.Paid cfg target (yoctoToU128 amount) υ) →
      stamps (τ ++ υ) = [] ∧ ∀ found : Circumstances,
        found.HoldAtTransfer (τ ++ υ) → found.Paid cfg target (yoctoToU128 amount) (τ ++ υ) := by
    rintro τ υ - ⟨hnone, hunanswered, hunsent, hunstamped⟩ ⟨hstamps, hpaid⟩
    refine ⟨by simp [hunstamped, hstamps], fun found hfound ↦ ?_⟩
    obtain ⟨hsent, hunsent'⟩ := hpaid found
      ⟨by simpa [hnone] using hfound.native, by simpa [hunanswered] using hfound.transfer⟩
    exact ⟨by simpa [hunsent] using hsent, by simpa [hunsent] using hunsent'⟩
  refine always_bind_aside aside_newWallet hΦ fun wallet ↦ ?_
  refine always_bind_aside aside_withdraw hΦ fun _ ↦ always_bind_aside aside_unwrap hΦ fun _ ↦ ?_
  refine always_ask.2 fun reply ↦ ?_
  cases reply with
  | error e => exact always_done.2 nofun
  | ok n =>
    change Always _ (if _ then _ else _)
    split_ifs with hreserve
    · refine always_done.2 fun _ _ ↦ ⟨rfl, fun found hfound ↦ ⟨fun _ h ↦ ?_, fun _ ↦ rfl⟩⟩
      obtain rfl := hfound.native n (List.mem_cons_self ..)
      exact absurd hreserve h.not_ge
    refine always_ask.2 fun sent ↦ ?_
    cases sent with
    | refused message => exact always_done.2 nofun
    | failed message => exact always_done.2 nofun
    | reverted id message =>
      refine Always.mono aside_record.always fun τ _ hτ _ _ ↦ ?_
      obtain ⟨-, -, htransfers, hstamps⟩ := uneventful_of_aside hτ
      refine ⟨hstamps, fun found hfound ↦ ⟨fun h ↦ ?_, fun _ ↦ htransfers⟩⟩
      rw [← hfound.transfer _ (List.mem_cons_self ..)] at h
      exact h.elim
    | succeeded id output =>
      refine Always.mono aside_record.always fun τ _ hτ _ _ ↦ ?_
      obtain ⟨-, -, htransfers, hstamps⟩ := uneventful_of_aside hτ
      refine ⟨hstamps, fun found hfound ↦ ?_⟩
      obtain rfl := hfound.native n (List.mem_cons_self ..)
      refine ⟨fun _ _ ↦ congrArg (_ :: ·) htransfers, fun h ↦ absurd ⟨?_, not_le.1 hreserve⟩ h⟩
      rw [← hfound.transfer _ (List.mem_cons_self ..)]
      exact trivial

theorem harvestAmountOf_eq (initial current : BigDecimal) :
    harvestAmountOf initial current = (current - 2 * initial) / 10 := by
  rw [harvestAmountOf]
  ring

theorem always_checkAndExecuteHarvest {initial current : BigDecimal} :
    Always (fun τ o ↦ ∀ h, o = .ok h →
        ∀ found : Circumstances, found.Hold τ → found.Returned cfg initial current τ h)
      (checkAndExecuteHarvest setting initial current periodId cfg) := by
  have hskip (hdue : ∀ found : Circumstances, ¬ found.Due cfg initial current) :
      Always (fun τ o ↦ ∀ h, o = .ok h →
          ∀ found : Circumstances, found.Hold τ → found.Returned cfg initial current τ h)
        (pure 0 : TradeProgram BigDecimal) := by
    refine always_done.2 ?_
    rintro _ ⟨⟩ found -
    exact .skipped (hdue found) rfl rfl
  rw [checkAndExecuteHarvest]
  split_ifs with hinitial hexcess
  · exact hskip fun _ h ↦ h.nonzero hinitial
  swap
  · exact hskip fun _ h ↦ hexcess (mul_comm initial 2 ▸ h.doubled)
  rw [harvestAccount, parseHarvestAccount]
  split
  swap
  · exact always_done.2 fun _ h ↦ by cases h
  next target htarget =>
  change Always _ (if _ then _ else _)
  split_ifs with hmin
  · exact hskip fun _ h ↦ hmin.not_ge (harvestAmountOf_eq initial current ▸ h.enough)
  refine always_ask.2 fun last ↦ always_ask.2 fun now ↦ ?_
  change Always _ (if decide (cfg.harvestIntervalSeconds < now - last) then _ else _)
  -- the time is compared as it was read first
  have hclock {found : Circumstances} {τ : List TradeExchange}
      (h : found.Hold (⟨.lastHarvest .trade, last⟩ :: ⟨.unixSeconds, now⟩ :: τ)) :
      last = found.last ∧ now = found.now :=
    ⟨h.last last (List.mem_cons_self ..), h.now now rfl⟩
  split_ifs with hover
  swap
  · refine always_done.2 ?_
    rintro h ⟨⟩ found hfound
    obtain ⟨rfl, rfl⟩ := hclock hfound
    exact .skipped (fun hdue ↦ hover (decide_eq_true hdue.elapsed)) rfl rfl
  refine always_executeHarvestTransfer.bind (fun τ _ hτ ↦ ?_) (fun _ _ _ _ h ↦ by cases h)
    fun _ _ _ _ h ↦ by cases h
  refine always_ask.2 fun later ↦ always_ask.2 fun _ ↦ always_done.2 ?_
  rintro h ⟨⟩ found hfound
  obtain ⟨rfl, rfl⟩ := hclock hfound
  have hpaid := (hτ () rfl).2 found
    ⟨by simpa [nativeReadings] using hfound.native,
      by simpa [transferReplies] using hfound.transfer⟩
  have hdue : found.Due cfg initial current :=
    ⟨hinitial, mul_comm initial 2 ▸ hexcess, harvestAmountOf_eq initial current ▸ not_lt.1 hmin,
      of_decide_eq_true hover⟩
  refine .executed hdue (by simp [stamps]) htarget ⟨?_, ?_⟩
  · simpa [transfers] using hpaid.sent
  · simpa [transfers] using hpaid.unsent

theorem yoctoToU128_of_nonneg {q : BigDecimal} (h : 0 ≤ q) :
    (yoctoToU128 q : ℤ) = if BigDecimal.trunc q < 2 ^ 128 then BigDecimal.trunc q else 0 := by
  have htrunc : 0 ≤ BigDecimal.trunc q :=
    (Int.floor_nonneg.2 h).trans_eq (BigDecimal.trunc_of_nonneg h).symm
  have hbound : (u128Bound : ℤ) = 2 ^ 128 := by decide
  rw [yoctoToU128, BigDecimal.toU128, hbound, ← BigDecimal.trunc_of_nonneg h]
  by_cases hlt : BigDecimal.trunc q < 2 ^ 128
  · rw [if_pos ⟨h, hlt⟩, if_pos hlt, Option.getD_some, Int.toNat_of_nonneg htrunc]
  · rw [if_neg fun hr ↦ hlt hr.2, if_neg hlt]
    rfl

theorem yoctoToU128_le {q : BigDecimal} (h : 0 ≤ q) : (yoctoToU128 q : ℚ) ≤ q := by
  rw [yoctoToU128]
  cases hunits : BigDecimal.toU128 q with
  | none => simpa using h
  | some n => exact BigDecimal.toU128_le hunits

end Harvest

/-- What is reported was sent, and the time was noted for it, exactly if no harvest was due or the
transfer succeeds and the balance covers it. -/
theorem checkAndExecuteHarvest_reports_iff (setting : Setting) (initial current : BigDecimal)
    (periodId : String) (cfg : ConfigAccess) (found : Circumstances) (τ : List TradeExchange)
    (h : BigDecimal)
    (hexec : Exec (checkAndExecuteHarvest setting initial current periodId cfg) τ (.ok h))
    (hfound : found.Hold τ) :
    (∀ sent ∈ transfers τ, parseAccountId (harvestAccountId cfg) = .ok sent.1) ∧
    (sentSum τ : ℚ) ≤ max 0 (current - 2 * initial) / 10 ∧
    (transfers τ ≠ [] → nearToYocto cfg.harvestReserveAmount + sentSum τ ≤ found.native.toNat) ∧
    ((sentSum τ = BigDecimal.trunc h ∧ (stamps τ ≠ [] → transfers τ ≠ [])) ↔
      (found.Due cfg initial current → found.Pays cfg initial current)) := by
  have htenth : 0 ≤ max 0 (current - 2 * initial) / 10 := by positivity
  cases always_checkAndExecuteHarvest τ _ hexec h rfl found hfound with
  | skipped hdue hstamps htransfers =>
    have hsum : sentSum τ = 0 := by simp [sentSum, htransfers]
    have htrunc : BigDecimal.trunc 0 = 0 := rfl
    simp [htransfers, hstamps, hsum, htrunc, htenth, hdue]
  | executed hdue hstamps htarget hpaid =>
    simp only [hdue, hstamps, ne_eq, not_false_eq_true, true_implies]
    by_cases hsucceeds : found.transfer.Succeeded ∧
      nearToYocto cfg.harvestReserveAmount < found.native.toNat
    · obtain ⟨htransfer, hreserve⟩ := hsucceeds
      have htransfers := hpaid.sent htransfer hreserve
      have hsum : sentSum τ = min (yoctoToU128 (harvestAmountOf initial current))
          (found.native.toNat - nearToYocto cfg.harvestReserveAmount) := by
        simp [sentSum, htransfers]
      have hpos : 0 ≤ harvestAmountOf initial current := by
        rw [harvestAmountOf_eq]
        linarith [hdue.doubled]
      have hunits := yoctoToU128_of_nonneg hpos
      have hbound := found.native.isLt
      refine ⟨by simp [htransfers, htarget], ?_, fun _ ↦ by omega, ?_⟩
      · rw [max_eq_right (by linarith [hdue.doubled]), ← harvestAmountOf_eq]
        refine le_trans ?_ (yoctoToU128_le hpos)
        rw [hsum]
        exact_mod_cast Nat.min_le_left _ _
      · have hpays : found.Pays cfg initial current ↔ nearToYocto cfg.harvestReserveAmount +
            BigDecimal.trunc (harvestAmountOf initial current) ≤ found.native.toNat := by
          rw [BigDecimal.trunc_of_nonneg hpos, harvestAmountOf_eq]
          exact ⟨fun h ↦ h.covers, fun h ↦ ⟨htransfer, hreserve, h⟩⟩
        rw [hpays]
        simp only [htransfers, List.cons_ne_nil, not_false_eq_true, and_true]
        split_ifs at hunits <;> omega
    · have htransfers := hpaid.unsent hsucceeds
      have hpays : ¬ found.Pays cfg initial current := fun h ↦ hsucceeds ⟨h.transfer, h.reserve⟩
      have hsum : sentSum τ = 0 := by simp [sentSum, htransfers]
      simp [htransfers, hsum, htenth, hpays]

def paying (native : U128) (outcome : Sent) : (q : Request) → Unit → Answer q × Unit
  | .chain _ (.exec _), _ => (.succeeded "call" (.ok 0), ())
  | .chain _ (.nativeAmount _), _ => (.ok native, ())
  | .chain _ (.transferNativeToken ..), _ => (outcome, ())
  | .chain _ (.storageBalanceOf _), _ => (.error "", ())
  | .chain _ .storageBalanceBounds, _ => (.error "", ())
  | .chain _ (.getDeposits _), _ => (.error "", ())
  | .chain _ (.wnearBalanceOf _), _ => (.error "", ())
  | .chain _ (.ftMetadata _), _ => (.error "", ())
  | .chain _ (.ftBalanceOf _), _ => (.error "", ())
  | .chain _ (.ftTotalSupply _), _ => (.error "", ())
  | .db q, _ =>
    ((Persistence.Database.answer ⟨[], [], [], [⟨"eval_1", 0, 0, none, 0⟩], [], []⟩ q).1, ())
  | .utcNow, _ => ((0 : ℤ), ())
  | .unixSeconds, _ => (1700000000, ())
  | .newUuid, _ => ("", ())
  | .lastHarvest _, _ => (0, ())
  | .setLastHarvest .., _ => ((), ())
  | .newWallet, _ => (some ⟨"trader.near"⟩, ())
  | .newPredictionService, _ => (.ok (), ())
  | .cachedDecimals _, _ => (none, ())
  | .cacheDecimals .., _ => ((), ())

def tenfold (native : U128) (outcome : Sent) : Report Request Answer String BigDecimal Unit :=
  (checkAndExecuteHarvest ⟨true, .lists, 10⟩ (100 * 10 ^ 24) (1000 * 10 ^ 24) "eval_1"
    Simulate.simulationConfig).run (paying native outcome) ()

theorem tenfold_exec {native : U128} {outcome : Sent} {h : BigDecimal}
    (hok : (tenfold native outcome).outcome = .ok h) :
    Exec (checkAndExecuteHarvest ⟨true, .lists, 10⟩ (100 * 10 ^ 24) (1000 * 10 ^ 24) "eval_1"
      Simulate.simulationConfig) (tenfold native outcome).trace (.ok h) :=
  hok ▸ (runs_run (paying native outcome) _ ()).exec

def Circumstances.onPaying (native : U128) (outcome : Sent) : Circumstances :=
  ⟨0, 1700000000, native, outcome⟩

theorem hold_tenfold (native : U128) (outcome : Sent) :
    (Circumstances.onPaying native outcome).Hold (tenfold native outcome).trace := by
  have hread {β : Type} {f : TradeExchange → Option β} {x y : β}
      (hx : x ∈ (tenfold native outcome).trace.filterMap f)
      (hf : ∀ e, (paying native outcome e.request ()).1 = e.answer → f e = some x → x = y) :
      x = y := by
    obtain ⟨e, he, hsome⟩ := List.mem_filterMap.1 hx
    obtain ⟨_, _, henv⟩ := (runs_run (paying native outcome) _ ()).answered e he
    exact hf e (congrArg Prod.fst henv) hsome
  refine ⟨⟨fun n hn ↦ hread hn fun e he h ↦ ?_, fun reply hreply ↦ hread hreply fun e he h ↦ ?_⟩,
    fun last hlast ↦ hread hlast fun e he h ↦ ?_,
    fun now hnow ↦ hread (List.mem_of_mem_head? hnow) fun e he h ↦ ?_⟩
  all_goals
    split at h
    · cases h
      cases he
      rfl
    · cases h

/-- From a balance of 100 NEAR the 80 NEAR that are reported are sent. -/
theorem checkAndExecuteHarvest_reports_covered :
    (tenfold (10 ^ 26) (.succeeded "transfer" (.ok 0))).outcome = .ok (80 * 10 ^ 24) ∧
    (sentSum (tenfold (10 ^ 26) (.succeeded "transfer" (.ok 0))).trace : ℤ) =
      BigDecimal.trunc (80 * 10 ^ 24) := by
  have hok : (tenfold (10 ^ 26) (.succeeded "transfer" (.ok 0))).outcome = .ok (80 * 10 ^ 24) := by
    decide +kernel
  have hpays : (Circumstances.onPaying (10 ^ 26) (.succeeded "transfer" (.ok 0))).Pays
      Simulate.simulationConfig (100 * 10 ^ 24) (1000 * 10 ^ 24) :=
    ⟨trivial, by decide +kernel, by decide +kernel⟩
  exact ⟨hok, ((checkAndExecuteHarvest_reports_iff _ _ _ _ _ _ _ _ (tenfold_exec hok)
    (hold_tenfold _ _)).2.2.2.2 fun _ ↦ hpays).1⟩

/-- From 80.5 NEAR only 79.5 are sent, and nothing by a transfer that fails on the chain. In both
cases 80 NEAR are reported and the time is noted. -/
theorem checkAndExecuteHarvest_reports_unsent :
    Exec (checkAndExecuteHarvest ⟨true, .lists, 10⟩ (100 * 10 ^ 24) (1000 * 10 ^ 24) "eval_1"
      Simulate.simulationConfig)
      (tenfold (805 * 10 ^ 23) (.succeeded "transfer" (.ok 0))).trace (.ok (80 * 10 ^ 24)) ∧
    sentSum (tenfold (805 * 10 ^ 23) (.succeeded "transfer" (.ok 0))).trace = 795 * 10 ^ 23 ∧
    Exec (checkAndExecuteHarvest ⟨true, .lists, 10⟩ (100 * 10 ^ 24) (1000 * 10 ^ 24) "eval_1"
      Simulate.simulationConfig)
      (tenfold (10 ^ 26) (.reverted "transfer" "")).trace (.ok (80 * 10 ^ 24)) ∧
    transfers (tenfold (10 ^ 26) (.reverted "transfer" "")).trace = [] ∧
    stamps (tenfold (10 ^ 26) (.reverted "transfer" "")).trace = [1700000000] :=
  ⟨tenfold_exec (by decide +kernel), by decide +kernel, tenfold_exec (by decide +kernel),
    by decide +kernel, by decide +kernel⟩

end Zaciraci.Trade
