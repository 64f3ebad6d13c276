import Zaciraci.Trade.Harvest

namespace Zaciraci.Trade

open Lib Program Storage

/-- The process that harvests: the seconds that its clock shows, the time that it noted last, and
when it last asked for a transfer. -/
structure HarvestState where
  now : ℕ
  last : UInt64
  sent : Option ℕ
  bounded : now < 2 ^ 64

namespace HarvestState

structure Waits (s s' : HarvestState) : Prop where
  now_le : s.now ≤ s'.now
  last_eq : s'.last = s.last
  sent_eq : s'.sent = s.sent

structure Sends (s s' : HarvestState) : Prop where
  now_le : s.now ≤ s'.now
  last_eq : s'.last = s.last
  sent : s'.sent = s.sent ∨ ∃ t, s'.sent = some t ∧ s.now ≤ t ∧ t ≤ s'.now

theorem Waits.refl (s : HarvestState) : s.Waits s := ⟨le_rfl, rfl, rfl⟩

theorem Waits.trans {s s' s'' : HarvestState} (h : s.Waits s') (h' : s'.Waits s'') :
    s.Waits s'' :=
  ⟨h.now_le.trans h'.now_le, h'.last_eq.trans h.last_eq, h'.sent_eq.trans h.sent_eq⟩

theorem Sends.wait {s s' s'' : HarvestState} (h : s.Sends s') (h' : s'.Waits s'') :
    s.Sends s'' := by
  refine ⟨h.now_le.trans h'.now_le, h'.last_eq.trans h.last_eq, ?_⟩
  rw [h'.sent_eq]
  exact h.sent.imp_right fun ⟨t, ht, hle, hle'⟩ ↦ ⟨t, ht, hle, hle'.trans h'.now_le⟩

theorem Sends.time {s s' : HarvestState} (h : s.Sends s') (hsent : s.sent = none) {t : ℕ}
    (ht : s'.sent = some t) : s.now ≤ t ∧ t ≤ s'.now := by
  obtain hsame | ⟨t', ht', hle⟩ := h.sent
  · cases (hsame.trans hsent).symm.trans ht
  · cases ht'.symm.trans ht
    exact hle

end HarvestState

/-- The clock does not go back. Nobody else writes the time of the last harvest. -/
def ticking : Environment Request Answer HarvestState
  | .lastHarvest .trade, s, a, s' => s.Waits s' ∧ a = s.last
  | .setLastHarvest .trade seconds, s, _, s' =>
    s.now ≤ s'.now ∧ s'.last = seconds ∧ s'.sent = s.sent
  | .unixSeconds, s, a, s' => s.Waits s' ∧ a.toNat = s'.now
  | .chain _ (.transferNativeToken ..), s, _, s' =>
    s'.last = s.last ∧ ∃ t, s'.sent = some t ∧ s.now ≤ t ∧ t ≤ s'.now
  | _, s, _, s' => s.Waits s'

def Request.Unstamped : Request → Prop
  | .setLastHarvest .trade _ => False
  | _ => True

section Steps

variable {q : Request} {s s' s'' : HarvestState} {a : Answer q}

theorem sends_of_unstamped (hq : q.Unstamped) (h : ticking q s' a s'') (hs : s.Sends s') :
    s.Sends s'' := by
  cases q with
  | chain client q =>
    cases q with
    | transferNativeToken _ _ _ =>
      obtain ⟨hlast, t, ht, hle, hle'⟩ := h
      refine ⟨hs.now_le.trans (hle.trans hle'), hlast.trans hs.last_eq, .inr ⟨t, ht, ?_, hle'⟩⟩
      exact hs.now_le.trans hle
    | _ => exact hs.wait h
  | lastHarvest clock =>
    cases clock with
    | trade => exact hs.wait h.1
    | balances => exact hs.wait h
  | setLastHarvest clock _ =>
    cases clock with
    | trade => exact hq.elim
    | balances => exact hs.wait h
  | unixSeconds => exact hs.wait h.1
  | _ => exact hs.wait h

theorem unstamped_of_aside (hq : q.Aside) : q.Unstamped := by
  cases q with
  | setLastHarvest _ _ => exact hq.elim
  | _ => trivial

end Steps

section Call

variable {setting : Setting} {cfg : ConfigAccess} {target : AccountId} {periodId : String}
  {s : HarvestState}

theorem unstamped_executeHarvestTransfer {amount : BigDecimal} :
    (executeHarvestTransfer setting target amount periodId cfg).Uses Request.Unstamped := by
  have haside {α : Type} {p : TradeProgram α} (hp : p.Uses Request.Aside) :
      p.Uses Request.Unstamped := hp.mono fun _ ↦ unstamped_of_aside
  refine (haside aside_newWallet).bind fun wallet ↦ (haside aside_withdraw).bind fun _ ↦
    (haside aside_unwrap).bind fun _ ↦ ?_
  refine Uses.bind ((uses_perform trivial).bind fun _ ↦
    (uses_ofExcept _).bind fun _ ↦ trivial) fun native ↦ ?_
  refine Uses.ite trivial (Uses.bind ?_ fun _ ↦ haside aside_record)
  exact (uses_perform trivial).bind fun _ ↦ uses_ofExcept _

theorem ensures_executeHarvestTransfer {amount : BigDecimal} :
    Ensures ticking (executeHarvestTransfer setting target amount periodId cfg) s
      fun _ _ s' ↦ s.Sends s' := by
  intro τ o s' hr
  refine hr.preserves unstamped_executeHarvestTransfer ?_ ⟨le_rfl, rfl, .inl rfl⟩
  intro q s₁ a s₂ hq henv hs
  exact sends_of_unstamped hq henv hs

/-- The time is read after the noted one, so the difference does not wrap around. -/
theorem ensures_isTimeToHarvest_trade (hlast : s.last.toNat ≤ s.now) :
    Ensures ticking (isTimeToHarvest .trade cfg) s fun _ o s' ↦ s.Waits s' ∧
      ∃ due, o = .ok due ∧
        (due = true → s.last.toNat + cfg.harvestIntervalSeconds.toNat < s'.now) := by
  rw [isTimeToHarvest]
  refine ensures_ask.2 fun last s₁ h₁ ↦ ensures_ask.2 fun now s₂ h₂ ↦ ensures_done.2 ?_
  obtain ⟨hwait, rfl⟩ := h₁
  obtain ⟨hwait', hnow⟩ := h₂
  refine ⟨hwait.trans hwait', _, rfl, fun hdue ↦ ?_⟩
  have hle : s.last ≤ now := by
    rw [UInt64.le_iff_toNat_le, hnow]
    exact hlast.trans (hwait.now_le.trans hwait'.now_le)
  have hlt := UInt64.lt_iff_toNat_lt.1 (of_decide_eq_true hdue)
  rw [UInt64.toNat_sub_of_le _ _ hle, hnow] at hlt
  omega

structure HarvestDone (cfg : ConfigAccess) (s : HarvestState) (o : Outcome String BigDecimal)
    (s' : HarvestState) : Prop where
  now_le : s.now ≤ s'.now
  last : s.last.toNat ≤ s'.last.toNat ∧ s'.last.toNat ≤ s'.now
  late : ∀ t, s'.sent = some t → s.last.toNat + cfg.harvestIntervalSeconds.toNat < t
  noted : ∀ t h, s'.sent = some t → o = .ok h → t ≤ s'.last.toNat

theorem harvestDone_of_waits {s' : HarvestState} (hlast : s.last.toNat ≤ s.now)
    (hsent : s.sent = none) (h : s.Waits s') (o : Outcome String BigDecimal) :
    HarvestDone cfg s o s' := by
  have hnone : s'.sent = none := h.sent_eq.trans hsent
  refine ⟨h.now_le, ⟨by rw [h.last_eq], by rw [h.last_eq]; exact hlast.trans h.now_le⟩, ?_, ?_⟩
  · intro t ht
    cases hnone.symm.trans ht
  · intro t _ ht
    cases hnone.symm.trans ht

section Due

variable {s₁ s₂ s₃ s₄ : HarvestState} (hlast : s.last.toNat ≤ s.now) (hsent : s.sent = none)
  (hwait : s.Waits s₁) (hlate : s.last.toNat + cfg.harvestIntervalSeconds.toNat < s₁.now)
  (hsends : s₁.Sends s₂)

include hlast hsent hwait hlate hsends

theorem harvestDone_of_failed {o : Outcome String BigDecimal} (ho : ∀ h, o ≠ .ok h) :
    HarvestDone cfg s o s₂ := by
  refine ⟨hwait.now_le.trans hsends.now_le, ?_, fun t ht ↦ ?_, fun t h _ hok ↦ absurd hok (ho h)⟩
  · rw [hsends.last_eq, hwait.last_eq]
    exact ⟨le_rfl, hlast.trans (hwait.now_le.trans hsends.now_le)⟩
  · exact hlate.trans_le (hsends.time (hwait.sent_eq.trans hsent) ht).1

theorem harvestDone_of_noted (hwait₃ : s₂.Waits s₃) (hle₄ : s₃.now ≤ s₄.now)
    (hlast₄ : s₄.last.toNat = s₃.now) (hsent₄ : s₄.sent = s₃.sent)
    (o : Outcome String BigDecimal) : HarvestDone cfg s o s₄ := by
  have hle₃ : s.now ≤ s₃.now := hwait.now_le.trans (hsends.now_le.trans hwait₃.now_le)
  have htime {t : ℕ} (ht : s₄.sent = some t) : s₁.now ≤ t ∧ t ≤ s₂.now :=
    hsends.time (hwait.sent_eq.trans hsent) (hwait₃.sent_eq.symm.trans (hsent₄.symm.trans ht))
  refine ⟨hle₃.trans hle₄, ?_, fun t ht ↦ hlate.trans_le (htime ht).1, fun t _ ht _ ↦ ?_⟩
  · rw [hlast₄]
    exact ⟨hlast.trans hle₃, hle₄⟩
  · rw [hlast₄]
    exact (htime ht).2.trans hwait₃.now_le

end Due

theorem ensures_checkAndExecuteHarvest {initial current : BigDecimal}
    (hlast : s.last.toNat ≤ s.now) (hsent : s.sent = none) :
    Ensures ticking (checkAndExecuteHarvest setting initial current periodId cfg) s
      fun _ o s' ↦ HarvestDone cfg s o s' := by
  have hskip : Ensures ticking (pure 0 : TradeProgram BigDecimal) s
      fun _ o s' ↦ HarvestDone cfg s o s' :=
    ensures_done.2 (harvestDone_of_waits hlast hsent (.refl s) _)
  rw [checkAndExecuteHarvest]
  split_ifs with hinitial hexcess
  · exact hskip
  swap
  · exact hskip
  rw [harvestAccount, parseHarvestAccount]
  split
  swap
  · exact ensures_done.2 (harvestDone_of_waits hlast hsent (.refl s) _)
  next target htarget =>
  change Ensures _ (if _ then _ else _) _ _
  split_ifs with hmin
  · exact hskip
  refine (ensures_isTimeToHarvest_trade hlast).bind ?_ ?_ ?_
  · rintro τ due s₁ ⟨hwait, _, ⟨⟩, hdue⟩
    split_ifs with htrue
    swap
    · exact ensures_done.2 (harvestDone_of_waits hlast hsent hwait _)
    have hlate := hdue htrue
    refine ensures_executeHarvestTransfer.bind ?_ ?_ ?_
    · intro τ' _ s₂ hsends
      refine ensures_ask.2 fun now s₃ h₃ ↦ ensures_ask.2 fun _ s₄ h₄ ↦ ensures_done.2 ?_
      obtain ⟨hwait₃, hnow⟩ := h₃
      obtain ⟨hle₄, hlast₄, hsent₄⟩ := h₄
      apply harvestDone_of_noted hlast hsent hwait hlate hsends hwait₃ hle₄ _ hsent₄
      rw [hlast₄, hnow]
    · intro τ' e s₂ hsends
      exact harvestDone_of_failed hlast hsent hwait hlate hsends fun _ h ↦ by cases h
    · intro τ' m s₂ hsends
      exact harvestDone_of_failed hlast hsent hwait hlate hsends fun _ h ↦ by cases h
  · rintro τ e s₁ ⟨-, _, ⟨⟩, -⟩
  · rintro τ m s₁ ⟨-, _, ⟨⟩, -⟩

end Call

structure HarvestCall where
  setting : Setting
  initialValue : BigDecimal
  currentValue : BigDecimal
  periodId : String
  cfg : ConfigAccess

def HarvestCall.program (call : HarvestCall) : TradeProgram BigDecimal :=
  checkAndExecuteHarvest call.setting call.initialValue call.currentValue call.periodId call.cfg

/-- A call that was made, how it ended, and when it asked for a transfer if it did. -/
structure HarvestEntry where
  call : HarvestCall
  outcome : Outcome String BigDecimal
  sentAt : Option ℕ

/-- The calls that a process makes one after the other, with time between them. -/
inductive Harvests : HarvestState → List HarvestEntry → HarvestState → Prop
  | nil (s : HarvestState) : Harvests s [] s
  | cons {s s₁ s₂ s' : HarvestState} {call : HarvestCall} {τ : List TradeExchange}
      {o : Outcome String BigDecimal} {entries : List HarvestEntry} :
      s.now ≤ s₁.now → s₁.last = s.last → s₁.sent = none →
      Runs ticking call.program s₁ τ o s₂ → Harvests s₂ entries s' →
      Harvests s (⟨call, o, s₂.sent⟩ :: entries) s'

def HarvestState.fresh (now : ℕ) (h : now < 2 ^ 64) : HarvestState := ⟨now, 0, none, h⟩

section Calls

variable {s s' : HarvestState} {entries : List HarvestEntry}

theorem harvested_of_runs {s₁ s₂ : HarvestState} {call : HarvestCall} {τ : List TradeExchange}
    {o : Outcome String BigDecimal} (hlast : s.last.toNat ≤ s.now) (hle : s.now ≤ s₁.now)
    (hsame : s₁.last = s.last) (hnone : s₁.sent = none)
    (hr : Runs ticking call.program s₁ τ o s₂) : HarvestDone call.cfg s₁ o s₂ :=
  ensures_checkAndExecuteHarvest (by rw [hsame]; exact hlast.trans hle) hnone _ _ _ hr

theorem Harvests.late (h : Harvests s entries s') (hlast : s.last.toNat ≤ s.now) :
    ∀ entry ∈ entries, ∀ t, entry.sentAt = some t →
      s.last.toNat + entry.call.cfg.harvestIntervalSeconds.toNat < t := by
  induction h with
  | nil s => simp
  | @cons s s₁ s₂ s' call τ o entries hle hsame hnone hr _ ih =>
    have hcall := harvested_of_runs hlast hle hsame hnone hr
    refine List.forall_mem_cons.2 ⟨?_, fun entry hentry t ht ↦ ?_⟩
    · intro t ht
      rw [← hsame]
      exact hcall.late t ht
    · have hlater := ih hcall.last.2 entry hentry t ht
      have hnoted := hcall.last.1
      rw [hsame] at hnoted
      omega

theorem Harvests.pairwise (h : Harvests s entries s') (hlast : s.last.toNat ≤ s.now) :
    entries.Pairwise fun a b ↦ ∀ amount t t', a.outcome = .ok amount → a.sentAt = some t →
      b.sentAt = some t' → t + b.call.cfg.harvestIntervalSeconds.toNat < t' := by
  induction h with
  | nil s => exact .nil
  | @cons s s₁ s₂ s' call τ o entries hle hsame hnone hr hrest ih =>
    have hcall := harvested_of_runs hlast hle hsame hnone hr
    refine List.pairwise_cons.2 ⟨fun entry hentry amount t t' hok ht ht' ↦ ?_, ih hcall.last.2⟩
    have hnoted := hcall.noted t amount ht hok
    have hlater := hrest.late hcall.last.2 entry hentry t' ht'
    omega

end Calls

/-- From the start of the process on, the transfers of two harvests are more than an interval
apart, whatever the calls before and between them do, unless the first one's call failed. -/
theorem harvests_spaced (now : ℕ) (hnow : now < 2 ^ 64) (entries : List HarvestEntry)
    (s : HarvestState) (h : Harvests (.fresh now hnow) entries s) :
    entries.Pairwise fun a b ↦ ∀ amount t t', a.outcome = .ok amount → a.sentAt = some t →
      b.sentAt = some t' → t + b.call.cfg.harvestIntervalSeconds.toNat < t' :=
  h.pairwise (Nat.zero_le now)

def generous : (q : Request) → HarvestState → Answer q × HarvestState
  | .lastHarvest .trade, s => (s.last, s)
  | .setLastHarvest .trade seconds, s => ((), { s with last := seconds })
  | .unixSeconds, s => (UInt64.ofNat s.now, s)
  | .chain _ (.transferNativeToken ..), s =>
    (.succeeded "transfer" (.ok 0), { s with sent := some s.now })
  | q, s => ((paying (10 ^ 26) (.succeeded "transfer" (.ok 0)) q ()).1, s)

theorem ticking_generous (q : Request) (s : HarvestState) :
    ticking q s (generous q s).1 (generous q s).2 := by
  cases q with
  | chain client q =>
    cases q with
    | transferNativeToken _ _ _ => exact ⟨rfl, s.now, rfl, le_rfl, le_rfl⟩
    | _ => exact .refl s
  | lastHarvest clock =>
    cases clock with
    | trade => exact ⟨.refl s, rfl⟩
    | balances => exact .refl s
  | setLastHarvest clock seconds =>
    cases clock with
    | trade => exact ⟨le_rfl, rfl, rfl⟩
    | balances => exact .refl s
  | unixSeconds => exact ⟨.refl s, UInt64.toNat_ofNat_of_lt' s.bounded⟩
  | _ => exact .refl s

def tenfoldCall : HarvestCall :=
  ⟨⟨true, .lists, 10⟩, 100 * 10 ^ 24, 1000 * 10 ^ 24, "eval_1", Simulate.simulationConfig⟩

def afterTenDays : HarvestState := ⟨1700864000, 1700000000, none, by decide⟩

theorem harvests_spaced_tenDays : ∃ first second s,
    Harvests (.fresh 1700000000 (by decide)) [first, second] s ∧
      first.sentAt = some 1700000000 ∧ second.sentAt = some 1700864000 ∧
      1700000000 + second.call.cfg.harvestIntervalSeconds.toNat < 1700864000 := by
  let r := tenfoldCall.program.run generous (.fresh 1700000000 (by decide))
  let r' := tenfoldCall.program.run generous afterTenDays
  have hrun : Harvests (.fresh 1700000000 (by decide))
      [⟨tenfoldCall, r.outcome, r.state.sent⟩, ⟨tenfoldCall, r'.outcome, r'.state.sent⟩]
      r'.state :=
    .cons le_rfl rfl rfl (runs_of_run id ticking_generous _ _)
      (.cons (by decide +kernel) (by decide +kernel) rfl (runs_of_run id ticking_generous _ _)
        (.nil _))
  have hok : r.outcome = .ok (80 * 10 ^ 24) := by decide +kernel
  have hfirst : r.state.sent = some 1700000000 := by decide +kernel
  have hsecond : r'.state.sent = some 1700864000 := by decide +kernel
  have hspaced := harvests_spaced _ _ _ _ hrun
  refine ⟨_, _, _, hrun, hfirst, hsecond, ?_⟩
  exact (List.pairwise_cons.1 hspaced).1 _ (List.mem_singleton_self _) _ _ _ hok hfirst hsecond

end Zaciraci.Trade
