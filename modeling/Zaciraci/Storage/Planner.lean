import Zaciraci.Lib.RustStd
import Zaciraci.Lib.SortedMap
import Zaciraci.Types

namespace Zaciraci.Storage

open Lib

structure StorageBalanceBounds where
  min : ℕ
  max : Option ℕ
deriving DecidableEq

structure StorageBalance where
  total : ℕ
  available : ℕ
deriving DecidableEq

/-- The answer of `get_deposits`: every registered token with its deposited amount. -/
abbrev Deposits := SortedMap TokenAccount ℕ

def safetyMarginNumerator : ℕ := 11

def safetyMarginDenominator : ℕ := 10

def maxRegisterPerCycle : ℕ := 100

structure StorageSnapshot where
  balance : StorageBalance
  deposits : Deposits
  bounds : StorageBalanceBounds

inductive Plan
  | initialRegister (toRegister : List TokenAccount)
  | normal (toUnregister toRegister : List TokenAccount) (preUnregisterEstimate : ℕ)
deriving DecidableEq

inductive PlanError
  | arithmeticOverflow
  | tooManyTokens (requested max : ℕ)
deriving DecidableEq

def PlanError.message : PlanError → String
  | .arithmeticOverflow => "per_token arithmetic overflow"
  | .tooManyTokens requested max =>
    s!"too many tokens to register in one cycle: requested={requested} max={max}"

/-- The tokens that may be given up: registered, empty, and wanted by nobody. -/
def unregisterCandidates (deposits : Deposits) (requested keep : List TokenAccount) :
    List TokenAccount :=
  (deposits.entries.filter fun e ↦ e.2 = 0 ∧ e.1 ∉ keep ∧ e.1 ∉ requested).map Prod.fst

def plan (snapshot : StorageSnapshot) (requested keep : List TokenAccount) :
    Outcome PlanError Plan := do
  let deposits := snapshot.deposits
  if deposits.size = 0 then
    if maxRegisterPerCycle < requested.length then
      .err (.tooManyTokens requested.length maxRegisterPerCycle)
    else
      return .initialRegister requested
  else
    let available := snapshot.balance.available
    let minBound := snapshot.bounds.min
    let used ← .okOr .arithmeticOverflow (checkedSub snapshot.balance.total available)
    let usable := used - minBound
    let perTokenCalc ← divCeil usable deposits.size
    let perToken := max perTokenCalc minBound
    let toRegister := requested.filter fun token ↦ !deposits.contains token
    if maxRegisterPerCycle < toRegister.length then
      .err (.tooManyTokens toRegister.length maxRegisterPerCycle)
    else
      let neededRaw ← .okOr .arithmeticOverflow (checkedMul perToken toRegister.length)
      let withMargin ← .okOr .arithmeticOverflow (checkedMul neededRaw safetyMarginNumerator)
      let needed ← divCeil withMargin safetyMarginDenominator
      if needed ≤ available then
        return .normal [] toRegister needed
      else
        let shortage ← .expect "needed_u128 > available ensured by early-return branch above"
          (checkedSub needed available)
        let candidates := unregisterCandidates deposits requested keep
        let unregisterNeeded ← divCeil shortage perToken
        -- the quotient is a `u128`; a value past `usize` keeps every candidate
        return .normal (candidates.take (min unregisterNeeded usizeMax)) toRegister needed

/-- The cost `plan` assumes for one token when there are deposits to measure it by. -/
def perToken (snapshot : StorageSnapshot) : ℕ :=
  max ((snapshot.balance.total - snapshot.balance.available - snapshot.bounds.min) ⌈/⌉
    snapshot.deposits.size) snapshot.bounds.min

def toRegister (deposits : Deposits) (requested : List TokenAccount) : List TokenAccount :=
  requested.filter fun token ↦ !deposits.contains token

def estimate (perToken n : ℕ) : ℕ :=
  (perToken * n * safetyMarginNumerator) ⌈/⌉ safetyMarginDenominator

def toUnregister (snapshot : StorageSnapshot) (requested keep : List TokenAccount) (needed : ℕ) :
    List TokenAccount :=
  if needed ≤ snapshot.balance.available then [] else
    (unregisterCandidates snapshot.deposits requested keep).take
      (min ((needed - snapshot.balance.available) ⌈/⌉ perToken snapshot) usizeMax)

section Plan

variable {snapshot : StorageSnapshot} {requested keep u r : List TokenAccount} {n : ℕ}

theorem plan_of_empty (h : snapshot.deposits.size = 0) :
    plan snapshot requested keep =
      if maxRegisterPerCycle < requested.length then
        .err (.tooManyTokens requested.length maxRegisterPerCycle)
      else .ok (.initialRegister requested) := by
  rw [plan, if_pos h]
  rfl

theorem perToken_pos_of_shortage {a : ℕ} (h : ¬ estimate (perToken snapshot) n ≤ a) :
    0 < perToken snapshot := by
  refine Nat.pos_of_ne_zero fun h0 ↦ h ?_
  have hz : estimate (perToken snapshot) n = 0 := by simp [h0, estimate]
  omega

/-- With deposits present `plan` fails only on inconsistent or excessive amounts; neither
`expect` of the source nor a division by zero is reached. -/
theorem plan_of_nonempty (h : snapshot.deposits.size ≠ 0) :
    plan snapshot requested keep =
      if snapshot.balance.total < snapshot.balance.available then .err .arithmeticOverflow
      else if maxRegisterPerCycle < (toRegister snapshot.deposits requested).length then
        .err (.tooManyTokens (toRegister snapshot.deposits requested).length maxRegisterPerCycle)
      else if u128Bound ≤ perToken snapshot * (toRegister snapshot.deposits requested).length *
          safetyMarginNumerator then .err .arithmeticOverflow
      else
        let needed := estimate (perToken snapshot) (toRegister snapshot.deposits requested).length
        .ok (.normal (toUnregister snapshot requested keep needed)
          (toRegister snapshot.deposits requested) needed) := by
  have hsize := Nat.pos_of_ne_zero h
  simp only [plan, if_neg h]
  by_cases hle : snapshot.balance.available ≤ snapshot.balance.total
  swap
  · simp only [checkedSub, if_neg hle, if_pos (not_le.mp hle), Outcome.okOr_none, Outcome.err_bind]
  simp only [if_neg (not_lt.mpr hle), checkedSub_of_le hle, Outcome.okOr_some, Outcome.ok_bind,
    divCeil_of_pos hsize, divCeil_of_pos (show 0 < safetyMarginDenominator by decide)]
  rw [← toRegister, ← perToken]
  generalize hr : (toRegister snapshot.deposits requested).length = n
  split_ifs with hn hov
  · rfl
  · by_cases hraw : perToken snapshot * n < u128Bound
    · simp only [checkedMul_of_lt hraw, checkedMul_of_le hov, Outcome.okOr_some, Outcome.ok_bind,
        Outcome.okOr_none, Outcome.err_bind]
    · simp only [checkedMul_of_le (not_lt.mp hraw), Outcome.okOr_none, Outcome.err_bind]
  · have hmul : perToken snapshot * n * safetyMarginNumerator < u128Bound := not_le.mp hov
    have hraw : perToken snapshot * n < u128Bound :=
      lt_of_le_of_lt (Nat.le_mul_of_pos_right _ (by decide)) hmul
    simp only [checkedMul_of_lt hraw, checkedMul_of_lt hmul, Outcome.okOr_some, Outcome.ok_bind]
    rw [← estimate]
    by_cases hav : estimate (perToken snapshot) n ≤ snapshot.balance.available
    · rw [if_pos hav, toUnregister, if_pos hav]
      rfl
    · rw [if_neg hav, toUnregister, if_neg hav, checkedSub_of_le (not_le.mp hav).le,
        Outcome.expect_some, Outcome.ok_bind, divCeil_of_pos (perToken_pos_of_shortage hav)]
      rfl

theorem plan_not_panicked (m : String) : plan snapshot requested keep ≠ .panicked m := by
  by_cases h : snapshot.deposits.size = 0
  · rw [plan_of_empty h]
    split_ifs <;> exact nofun
  · rw [plan_of_nonempty h]
    split_ifs <;> exact nofun

theorem unregisterCandidates_nodup (deposits : Deposits) :
    (unregisterCandidates deposits requested keep).Nodup := by
  have h : (unregisterCandidates deposits requested keep).Sublist deposits.keys :=
    List.filter_sublist.map _
  exact deposits.keys_nodup.sublist h

theorem mem_unregisterCandidates {deposits : Deposits} {t : TokenAccount} :
    t ∈ unregisterCandidates deposits requested keep ↔
      deposits.get t = some 0 ∧ t ∉ keep ∧ t ∉ requested := by
  simp [unregisterCandidates, SortedMap.get_eq_some]

theorem plan_eq_normal (h : plan snapshot requested keep = .ok (.normal u r n)) :
    u = toUnregister snapshot requested keep n ∧ r = toRegister snapshot.deposits requested := by
  by_cases hsize : snapshot.deposits.size = 0
  · rw [plan_of_empty hsize] at h
    split_ifs at h
    cases h
  · rw [plan_of_nonempty hsize] at h
    split_ifs at h
    cases h
    exact ⟨rfl, rfl⟩

theorem plan_eq_initialRegister (h : plan snapshot requested keep = .ok (.initialRegister r)) :
    r = requested := by
  by_cases hsize : snapshot.deposits.size = 0
  · rw [plan_of_empty hsize] at h
    split_ifs at h
    cases h
    rfl
  · rw [plan_of_nonempty hsize] at h
    split_ifs at h
    cases h

theorem mem_keys_of_not_mem_toRegister {deposits : Deposits} {t : TokenAccount}
    (ht : t ∈ requested) (h : t ∉ toRegister deposits requested) : t ∈ deposits.keys := by
  by_contra hkey
  exact h (List.mem_filter.mpr ⟨ht, by simp [SortedMap.contains_eq_false.mpr hkey]⟩)

theorem toUnregister_sublist :
    (toUnregister snapshot requested keep n).Sublist
      (unregisterCandidates snapshot.deposits requested keep) := by
  rw [toUnregister]
  split_ifs
  · exact List.nil_sublist _
  · exact List.take_sublist _ _

theorem plan_normal_unwanted (h : plan snapshot requested keep = .ok (.normal u r n))
    {t : TokenAccount} (ht : t ∈ u) :
    snapshot.deposits.get t = some 0 ∧ t ∉ keep ∧ t ∉ requested := by
  rw [(plan_eq_normal h).1] at ht
  exact mem_unregisterCandidates.mp (toUnregister_sublist.mem ht)

theorem unregisterNeeded_le_usizeMax {a p : ℕ} (hn : n ≤ maxRegisterPerCycle) (hp : 0 < p) :
    (estimate p n - a) ⌈/⌉ p ≤ usizeMax := by
  have hneeded : estimate p n ≤ p * n * safetyMarginNumerator := by
    refine (ceilDiv_le_iff_le_mul (by decide)).mpr ?_
    exact Nat.le_mul_of_pos_left _ (by decide)
  have hcount : n * safetyMarginNumerator ≤ usizeMax :=
    le_trans (Nat.mul_le_mul_right _ hn) (by decide)
  refine (ceilDiv_le_iff_le_mul hp).mpr ?_
  calc estimate p n - a ≤ p * (n * safetyMarginNumerator) := by
        rw [← mul_assoc]
        exact le_trans (Nat.sub_le _ _) hneeded
    _ ≤ p * usizeMax := Nat.mul_le_mul_left p hcount

theorem toUnregister_estimate (hn : n ≤ maxRegisterPerCycle) :
    toUnregister snapshot requested keep (estimate (perToken snapshot) n) =
      if estimate (perToken snapshot) n ≤ snapshot.balance.available then []
      else (unregisterCandidates snapshot.deposits requested keep).take
        ((estimate (perToken snapshot) n - snapshot.balance.available) ⌈/⌉ perToken snapshot) := by
  rw [toUnregister]
  split_ifs with h
  · rfl
  · rw [min_eq_left (unregisterNeeded_le_usizeMax hn (perToken_pos_of_shortage h))]

theorem toRegister_eq_filter (deposits : Deposits) :
    toRegister deposits requested = requested.filter (· ∉ deposits.keys) := by
  refine List.filter_congr fun token _ ↦ ?_
  rw [Bool.eq_iff_iff, Bool.not_eq_true', SortedMap.contains_eq_false, decide_eq_true_iff]

theorem exists_plan_err_iff :
    (∃ e, plan snapshot requested keep = .err e) ↔
      snapshot.deposits.size = 0 ∧ maxRegisterPerCycle < requested.length ∨
      snapshot.deposits.size ≠ 0 ∧ (snapshot.balance.total < snapshot.balance.available ∨
        maxRegisterPerCycle < (toRegister snapshot.deposits requested).length ∨
        u128Bound ≤ perToken snapshot * (toRegister snapshot.deposits requested).length *
          safetyMarginNumerator) := by
  by_cases h : snapshot.deposits.size = 0
  · rw [plan_of_empty h]
    split_ifs with hlen <;> simp [h, hlen]
  · rw [plan_of_nonempty h]
    split_ifs with ht hlen hov <;> simp [*]

/-- Everything `plan` does, for any snapshot and any lists. -/
theorem plan_spec (snapshot : StorageSnapshot) (requested keep : List TokenAccount) :
    let deposits := snapshot.deposits
    let available := snapshot.balance.available
    let used := snapshot.balance.total - available
    let p := max snapshot.bounds.min ((used - snapshot.bounds.min) ⌈/⌉ deposits.size)
    let r := requested.filter (· ∉ deposits.keys)
    let needed := (11 * p * r.length) ⌈/⌉ 10
    let candidates := (deposits.entries.filter fun e ↦
      e.2 = 0 ∧ e.1 ∉ keep ∧ e.1 ∉ requested).map Prod.fst
    (plan snapshot requested keep = .ok (.initialRegister requested) ↔
      deposits.size = 0 ∧ requested.length ≤ 100) ∧
    (∀ result, plan snapshot requested keep = .ok result → deposits.size ≠ 0 →
      result = .normal (if needed ≤ available then []
        else candidates.take ((needed - available) ⌈/⌉ p)) r needed) ∧
    ((∃ e, plan snapshot requested keep = .err e) ↔
      deposits.size = 0 ∧ 100 < requested.length ∨
      deposits.size ≠ 0 ∧ (snapshot.balance.total < available ∨ 100 < r.length ∨
        2 ^ 128 ≤ 11 * p * r.length)) ∧
    ∀ message, plan snapshot requested keep ≠ .panicked message := by
  intro deposits available used p r needed candidates
  have hp : perToken snapshot = p := max_comm _ _
  have hr : toRegister snapshot.deposits requested = r := toRegister_eq_filter _
  have hraw : perToken snapshot * r.length * safetyMarginNumerator = 11 * p * r.length := by
    rw [hp, safetyMarginNumerator, mul_comm, mul_assoc]
  have hneeded : estimate (perToken snapshot) r.length = needed :=
    congrArg (· ⌈/⌉ 10) hraw
  refine ⟨⟨fun h ↦ ?_, fun ⟨hsize, hlen⟩ ↦ ?_⟩, fun result h hsize ↦ ?_, ?_, plan_not_panicked⟩
  · by_cases hsize : snapshot.deposits.size = 0
    · rw [plan_of_empty hsize] at h
      split_ifs at h with hlen
      exact ⟨hsize, not_lt.mp hlen⟩
    · rw [plan_of_nonempty hsize] at h
      split_ifs at h
      cases h
  · have hle : ¬ maxRegisterPerCycle < requested.length := not_lt.mpr hlen
    rw [plan_of_empty hsize, if_neg hle]
  · rw [plan_of_nonempty hsize, hr] at h
    split_ifs at h with _ hlen
    injection h with h
    rw [← h, toUnregister_estimate (not_lt.mp hlen), hneeded, hp]
    rfl
  · rw [exists_plan_err_iff, hr, hraw]
    rfl

end Plan

end Zaciraci.Storage
