import Zaciraci.Units

namespace Zaciraci.Trade.TokenCache

def minute : Time := 60 * 10 ^ 9

def maxMinutes : ℕ := 153722867280912

/-- What the back-off reads of the configuration, with a limit that `TimeDelta::minutes` takes. -/
structure BackoffConfig where
  baseMinutes : UInt64
  maxBackoffMinutes : UInt64
  in_range : maxBackoffMinutes.toNat ≤ maxMinutes

structure FailureRecord where
  failureCount : UInt32
  lastFailure : Time

/-- The saturating product of `u64`, below the limit. -/
def backoffMinutes (cfg : BackoffConfig) (failureCount : ℕ) : ℕ :=
  min (min (cfg.baseMinutes.toNat * 2 ^ min failureCount 8) (2 ^ 64 - 1))
    cfg.maxBackoffMinutes.toNat

def FailureRecord.shouldRetry (record : FailureRecord) (now : Time) (cfg : BackoffConfig) : Bool :=
  backoffMinutes cfg record.failureCount.toNat * minute ≤ now - record.lastFailure

structure Caches where
  decimals : TokenAccount → Option UInt8
  failures : TokenAccount → Option FailureRecord

namespace Caches

def empty : Caches := ⟨fun _ ↦ none, fun _ ↦ none⟩

/-- A call of `ensure_decimals_cached`: the tokens asked for, what becomes of the fetch of each, and
the order in which the fetches complete. -/
structure EnsureCall where
  tokenIds : List TokenAccount
  outcome : TokenAccount → Except String UInt8
  completion : (missing : List TokenAccount) →
    { fetched : List TokenAccount // fetched.Perm missing }

def toFetch (cfg : BackoffConfig) (now : Time) (c : Caches) (tokenIds : List TokenAccount) :
    List TokenAccount :=
  let missing := tokenIds.filter fun token ↦ (c.decimals token).isNone
  missing.filter fun token ↦
    match c.failures token with
    | some record => record.shouldRetry now cfg
    | none => true

/-- The record after one more failure. The count wraps around as in a release build. -/
def failAgain (now : Time) (record : Option FailureRecord) : FailureRecord :=
  ⟨(record.map FailureRecord.failureCount).getD 0 + 1, now⟩

def recordFetch (now : Time) (outcome : TokenAccount → Except String UInt8) (c : Caches)
    (token : TokenAccount) : Caches :=
  match outcome token with
  | .ok d =>
    { decimals := Function.update c.decimals token (some d)
      failures := Function.update c.failures token none }
  | .error _ =>
    { c with
      failures := Function.update c.failures token (some (failAgain now (c.failures token))) }

/-- The decimals of a call's result, with the caches after it. -/
def ensureDecimalsCached (cfg : BackoffConfig) (now : Time) (call : EnsureCall) (c : Caches) :
    (TokenAccount → Option UInt8) × Caches :=
  let cached := fun token ↦ if call.tokenIds.contains token then c.decimals token else none
  let fetched := (call.completion (c.toFetch cfg now call.tokenIds)).1
  (fetched.foldl (fun result token ↦
      match call.outcome token with
      | .ok d => Function.update result token (some d)
      | .error _ => result) cached,
    fetched.foldl (recordFetch now call.outcome) c)

def getTokenDecimalsCached (token : TokenAccount) (outcome : Except String UInt8) (c : Caches) :
    Except String UInt8 × Caches :=
  match c.decimals token with
  | some d => (.ok d, c)
  | none =>
    match outcome with
    | .ok d => (.ok d, { c with decimals := Function.update c.decimals token (some d) })
    | .error e => (.error e, c)

def cleanupStaleFailures (activeTokenIds : List TokenAccount) (c : Caches) : Caches :=
  { c with
    failures := fun token ↦ if activeTokenIds.contains token then c.failures token else none }

def loadFromDb (decimalsMap : Except String (TokenAccount → Option UInt8)) (c : Caches) : Caches :=
  match decimalsMap with
  | .ok decimals => { c with decimals }
  | .error _ => c

end Caches

inductive CacheEvent
  | ensure (call : Caches.EnsureCall)
  | getOne (token : TokenAccount) (outcome : Except String UInt8)
  | cleanup (activeTokenIds : List TokenAccount)
  | load (decimalsMap : Except String (TokenAccount → Option UInt8))

/-- What is seen from outside: the fetches of the calls of `ensure_decimals_cached`, each with the
time at which its call started, and the cleanups. -/
inductive Entry
  | fetched (time : Time) (token : TokenAccount) (success : Bool)
  | cleaned (activeTokenIds : List TokenAccount)

structure Monitored where
  caches : Caches
  log : List Entry

namespace Monitored

def step (cfg : BackoffConfig) (s : Monitored) (e : Time × CacheEvent) : Monitored :=
  match e.2 with
  | .ensure call =>
    let fetched := (call.completion (s.caches.toFetch cfg e.1 call.tokenIds)).1
    { caches := (s.caches.ensureDecimalsCached cfg e.1 call).2
      log :=
        (fetched.map fun token ↦ .fetched e.1 token (call.outcome token).isOk).reverse ++ s.log }
  | .getOne token outcome =>
    { s with caches := (s.caches.getTokenDecimalsCached token outcome).2 }
  | .cleanup activeTokenIds =>
    { caches := s.caches.cleanupStaleFailures activeTokenIds
      log := .cleaned activeTokenIds :: s.log }
  | .load decimalsMap => { s with caches := s.caches.loadFromDb decimalsMap }

def run (cfg : BackoffConfig) (history : List (Time × CacheEvent)) : Monitored :=
  history.foldl (step cfg) ⟨.empty, []⟩

end Monitored

section Log

variable (token : TokenAccount)

def lastFailure : List Entry → Option Time
  | [] => none
  | .fetched time token' success :: log =>
    if token' = token then if success then none else some time else lastFailure log
  | .cleaned _ :: log => lastFailure log

/-- A cleanup dropped the token after its last fetch. -/
def Forgotten : List Entry → Prop
  | [] => False
  | .fetched _ token' _ :: log => token' ≠ token ∧ Forgotten log
  | .cleaned activeTokenIds :: log => token ∉ activeTokenIds ∨ Forgotten log

/-- The failures since the last success or cleanup that dropped the token. -/
def consecutiveFailures : List Entry → ℕ
  | [] => 0
  | .fetched _ token' success :: log =>
    if token' = token then if success then 0 else consecutiveFailures log + 1
    else consecutiveFailures log
  | .cleaned activeTokenIds :: log =>
    if activeTokenIds.contains token then consecutiveFailures log else 0

instance decidableForgotten : (log : List Entry) → Decidable (Forgotten token log)
  | [] => isFalse id
  | .fetched _ token' _ :: log =>
    have := decidableForgotten log
    inferInstanceAs (Decidable (token' ≠ token ∧ Forgotten token log))
  | .cleaned activeTokenIds :: log =>
    have := decidableForgotten log
    inferInstanceAs (Decidable (token ∉ activeTokenIds ∨ Forgotten token log))

def expectedRecord (log : List Entry) : Option FailureRecord :=
  if Forgotten token log then none
  else (lastFailure token log).map (⟨.ofNat (consecutiveFailures token log), ·⟩)

end Log

section Log

variable {token : TokenAccount} {log : List Entry} {now : Time}

theorem consecutiveFailures_eq_zero (h : Forgotten token log ∨ lastFailure token log = none) :
    consecutiveFailures token log = 0 := by
  induction log with
  | nil => rfl
  | cons entry log ih =>
    cases entry with
    | fetched time token' success =>
      by_cases heq : token' = token
      · cases success <;> simp_all [consecutiveFailures, Forgotten, lastFailure]
      · simp_all [consecutiveFailures, Forgotten, lastFailure]
    | cleaned activeTokenIds =>
      by_cases hactive : token ∈ activeTokenIds
      · simp_all [consecutiveFailures, Forgotten, lastFailure]
      · simp [consecutiveFailures, hactive]

theorem count_expectedRecord :
    ((expectedRecord token log).map FailureRecord.failureCount).getD 0 =
      .ofNat (consecutiveFailures token log) := by
  unfold expectedRecord
  split_ifs with hforgotten
  · rw [consecutiveFailures_eq_zero (.inl hforgotten)]
    rfl
  · cases hlast : lastFailure token log with
    | none =>
      rw [consecutiveFailures_eq_zero (.inr hlast)]
      rfl
    | some time => rfl

theorem expectedRecord_success :
    expectedRecord token (.fetched now token true :: log) = none := by
  simp [expectedRecord, Forgotten, lastFailure]

theorem expectedRecord_failure :
    expectedRecord token (.fetched now token false :: log) =
      some (Caches.failAgain now (expectedRecord token log)) := by
  rw [Caches.failAgain, count_expectedRecord]
  simp [expectedRecord, Forgotten, lastFailure, consecutiveFailures]

theorem expectedRecord_of_ne {token' : TokenAccount} {success : Bool} (h : token' ≠ token) :
    expectedRecord token (.fetched now token' success :: log) = expectedRecord token log := by
  simp [expectedRecord, Forgotten, lastFailure, consecutiveFailures, h]

theorem expectedRecord_cleaned (activeTokenIds : List TokenAccount) :
    expectedRecord token (.cleaned activeTokenIds :: log) =
      if activeTokenIds.contains token then expectedRecord token log else none := by
  by_cases hactive : token ∈ activeTokenIds
  · simp [expectedRecord, Forgotten, lastFailure, consecutiveFailures, hactive]
  · simp [expectedRecord, Forgotten, hactive]

end Log

namespace Monitored

variable {cfg : BackoffConfig} {s : Monitored} {token : TokenAccount} {now : Time}

def Faithful (s : Monitored) : Prop :=
  ∀ token, s.caches.failures token = expectedRecord token s.log

def recordFetch (now : Time) (outcome : TokenAccount → Except String UInt8) (s : Monitored)
    (token : TokenAccount) : Monitored :=
  ⟨s.caches.recordFetch now outcome token, .fetched now token (outcome token).isOk :: s.log⟩

theorem foldl_recordFetch (now : Time) (outcome : TokenAccount → Except String UInt8)
    (fetched : List TokenAccount) (s : Monitored) :
    fetched.foldl (recordFetch now outcome) s =
      ⟨fetched.foldl (Caches.recordFetch now outcome) s.caches,
        (fetched.map fun token ↦ .fetched now token (outcome token).isOk).reverse ++ s.log⟩ := by
  induction fetched generalizing s with
  | nil => rfl
  | cons token fetched ih =>
    rw [List.foldl_cons, ih]
    simp [recordFetch]

theorem Faithful.recordFetch (h : Faithful s) (now : Time)
    (outcome : TokenAccount → Except String UInt8) (token : TokenAccount) :
    Faithful (recordFetch now outcome s token) := by
  intro token'
  unfold Monitored.recordFetch Caches.recordFetch
  by_cases heq : token = token'
  · subst heq
    cases houtcome : outcome token with
    | ok d => exact (Function.update_self ..).trans expectedRecord_success.symm
    | error e =>
      refine (Function.update_self ..).trans ?_
      rw [h token]
      exact expectedRecord_failure.symm
  · dsimp only
    rw [expectedRecord_of_ne heq, ← h token']
    cases outcome token with
    | ok d => exact Function.update_of_ne (Ne.symm heq) ..
    | error e => exact Function.update_of_ne (Ne.symm heq) ..

theorem Faithful.foldl_recordFetch (h : Faithful s) (now : Time)
    (outcome : TokenAccount → Except String UInt8) (fetched : List TokenAccount) :
    Faithful (fetched.foldl (Monitored.recordFetch now outcome) s) := by
  induction fetched generalizing s with
  | nil => exact h
  | cons token fetched ih => exact ih (h.recordFetch now outcome token)

theorem Faithful.step (h : Faithful s) (cfg : BackoffConfig) (e : Time × CacheEvent) :
    Faithful (step cfg s e) := by
  obtain ⟨now, event⟩ := e
  cases event with
  | ensure call =>
    have hfold := h.foldl_recordFetch now call.outcome
      (call.completion (s.caches.toFetch cfg now call.tokenIds)).1
    rw [Monitored.foldl_recordFetch] at hfold
    exact hfold
  | getOne token outcome =>
    intro token'
    refine Eq.trans ?_ (h token')
    simp only [Monitored.step, Caches.getTokenDecimalsCached]
    split
    · rfl
    · split <;> rfl
  | cleanup activeTokenIds =>
    intro token'
    refine Eq.trans ?_ (expectedRecord_cleaned activeTokenIds).symm
    rw [← h token']
    rfl
  | load decimalsMap =>
    intro token'
    refine Eq.trans ?_ (h token')
    cases decimalsMap <;> rfl

theorem faithful_run (cfg : BackoffConfig) (history : List (Time × CacheEvent)) :
    Faithful (run cfg history) := by
  unfold run
  refine List.foldlRecOn history (step cfg) ?_ fun s h e _ ↦ h.step cfg e
  exact fun _ ↦ rfl

end Monitored

theorem backoffMinutes_eq (cfg : BackoffConfig) (failureCount : ℕ) :
    backoffMinutes cfg failureCount =
      min (cfg.baseMinutes.toNat * 2 ^ min failureCount 8) cfg.maxBackoffMinutes.toNat := by
  have hmax := cfg.maxBackoffMinutes.toNat_lt
  rw [backoffMinutes]
  omega

namespace Caches

variable {cfg : BackoffConfig} {now : Time} {c : Caches} {token : TokenAccount} {d : UInt8}
  {outcome : TokenAccount → Except String UInt8}

theorem mem_toFetch {tokenIds : List TokenAccount} :
    token ∈ c.toFetch cfg now tokenIds ↔ token ∈ tokenIds ∧ c.decimals token = none ∧
      ∀ record, c.failures token = some record → record.shouldRetry now cfg := by
  rw [toFetch, List.mem_filter, List.mem_filter, Option.isNone_iff_eq_none, and_assoc]
  cases c.failures token <;> simp

theorem notMem_fetched (h : c.decimals token = some d) (cfg : BackoffConfig) (now : Time)
    (call : EnsureCall) : token ∉ (call.completion (c.toFetch cfg now call.tokenIds)).1 := by
  rw [(call.completion _).2.mem_iff, mem_toFetch, h]
  rintro ⟨-, ⟨⟩, -⟩

theorem decimals_recordFetch (token' : TokenAccount) (h : token' = token → outcome token = .ok d)
    (hc : token' ≠ token → c.decimals token = some d) :
    (recordFetch now outcome c token').decimals token = some d := by
  unfold recordFetch
  by_cases heq : token' = token
  · subst heq
    rw [h rfl]
    exact Function.update_self ..
  · rw [← hc heq]
    cases outcome token' with
    | ok d' => exact Function.update_of_ne (Ne.symm heq) ..
    | error e => rfl

theorem decimals_foldl (fetched : List TokenAccount) (h : token ∈ fetched → outcome token = .ok d)
    (hc : token ∉ fetched → c.decimals token = some d) :
    (fetched.foldl (recordFetch now outcome) c).decimals token = some d := by
  induction fetched using List.reverseRecOn with
  | nil => exact hc List.not_mem_nil
  | append_singleton fetched token' ih =>
    rw [List.foldl_append]
    refine decimals_recordFetch token' ?_ fun hne ↦ ih ?_ ?_
    · rintro rfl
      exact h (List.mem_append_right _ List.mem_cons_self)
    · exact fun hmem ↦ h (List.mem_append_left _ hmem)
    · intro hmem
      refine hc fun happend ↦ ?_
      rcases List.mem_append.1 happend with hleft | hright
      · exact hmem hleft
      · exact hne (List.mem_singleton.1 hright).symm

theorem result_foldl (fetched : List TokenAccount) (h : token ∉ fetched)
    (result : TokenAccount → Option UInt8) :
    fetched.foldl (fun result token ↦
      match outcome token with
      | .ok d => Function.update result token (some d)
      | .error _ => result) result token = result token := by
  induction fetched generalizing result with
  | nil => rfl
  | cons token' fetched ih =>
    rw [List.mem_cons, not_or] at h
    rw [List.foldl_cons, ih h.2]
    cases outcome token' with
    | ok d => exact Function.update_of_ne h.1 ..
    | error e => rfl

theorem ensure_of_known (h : c.decimals token = some d) (cfg : BackoffConfig) (now : Time)
    {call : EnsureCall} (hmem : token ∈ call.tokenIds) :
    token ∉ c.toFetch cfg now call.tokenIds ∧
      (c.ensureDecimalsCached cfg now call).1 token = some d := by
  have hnot := notMem_fetched h cfg now call
  refine ⟨fun hfetch ↦ hnot ((call.completion _).2.mem_iff.2 hfetch), ?_⟩
  refine (result_foldl _ hnot _).trans ?_
  rw [if_pos (List.contains_iff_mem.2 hmem), h]

end Caches

namespace Monitored

variable {cfg : BackoffConfig} {s : Monitored} {token : TokenAccount} {d : UInt8}

theorem decimals_step (h : s.caches.decimals token = some d) (e : Time × CacheEvent)
    (hload : ∀ decimalsMap, e.2 ≠ .load decimalsMap) :
    (step cfg s e).caches.decimals token = some d := by
  obtain ⟨now, event⟩ := e
  cases event with
  | ensure call =>
    have hnot := Caches.notMem_fetched h cfg now call
    exact Caches.decimals_foldl _ (fun hmem ↦ absurd hmem hnot) fun _ ↦ h
  | getOne token' outcome =>
    simp only [step, Caches.getTokenDecimalsCached]
    cases hknown : s.caches.decimals token' with
    | some d' => exact h
    | none =>
      have hne : token ≠ token' := by
        rintro rfl
        rw [h] at hknown
        cases hknown
      cases outcome with
      | ok d' => exact (Function.update_of_ne hne ..).trans h
      | error e => exact h
  | cleanup activeTokenIds => exact h
  | load decimalsMap => exact absurd rfl (hload decimalsMap)

theorem decimals_foldl (h : s.caches.decimals token = some d) (history : List (Time × CacheEvent))
    (hload : ∀ e ∈ history, ∀ decimalsMap, e.2 ≠ .load decimalsMap) :
    (history.foldl (step cfg) s).caches.decimals token = some d :=
  List.foldlRecOn (motive := fun s ↦ s.caches.decimals token = some d) history (step cfg) h
    fun _ hs e he ↦ decimals_step hs e (hload e he)

end Monitored

open Caches Monitored

/-- A token is fetched only if its decimals are not known and it is not backing off, unless a
cleanup dropped it, and what was fetched once stays in the results until the next load. -/
theorem ensure_backsOff (cfg : BackoffConfig) (history : List (Time × CacheEvent)) :
    (∀ now (call : EnsureCall) token,
      token ∈ (run cfg history).caches.toFetch cfg now call.tokenIds →
      consecutiveFailures token (run cfg history).log < 2 ^ 32 →
      (run cfg history).caches.decimals token = none ∧
      ∀ failed, lastFailure token (run cfg history).log = some failed →
        ¬ Forgotten token (run cfg history).log →
        min (cfg.baseMinutes.toNat * 2 ^ min (consecutiveFailures token (run cfg history).log) 8)
          cfg.maxBackoffMinutes.toNat * minute ≤ now - failed) ∧
    ∀ before after time (earlier : EnsureCall) token d,
      history = before ++ (time, .ensure earlier) :: after →
      (∀ e ∈ after, ∀ decimalsMap, e.2 ≠ .load decimalsMap) →
      token ∈ (run cfg before).caches.toFetch cfg time earlier.tokenIds →
      earlier.outcome token = .ok d →
      ∀ now call, token ∈ call.tokenIds →
        token ∉ (run cfg history).caches.toFetch cfg now call.tokenIds ∧
        ((run cfg history).caches.ensureDecimalsCached cfg now call).1 token = some d := by
  constructor
  · intro now call token hmem hcount
    obtain ⟨-, hnone, hretry⟩ := mem_toFetch.1 hmem
    refine ⟨hnone, fun failed hlast hforgotten ↦ ?_⟩
    have hrecord := faithful_run cfg history token
    rw [expectedRecord, if_neg hforgotten, hlast] at hrecord
    have hwait := of_decide_eq_true (hretry _ hrecord)
    rwa [UInt32.toNat_ofNat_of_lt' hcount, backoffMinutes_eq] at hwait
  · rintro before after time earlier token d rfl hload hfetch hok now call hmem
    refine ensure_of_known ?_ cfg now hmem
    rw [run, List.foldl_append, List.foldl_cons]
    refine Monitored.decimals_foldl ?_ after hload
    refine Caches.decimals_foldl _ (fun _ ↦ hok) fun hnot ↦ ?_
    exact absurd ((earlier.completion _).2.mem_iff.2 hfetch) hnot

def fiveMinutes : BackoffConfig := ⟨5, 60, by decide⟩

def oneFails : EnsureCall where
  tokenIds := [⟨"a.near"⟩, ⟨"b.near"⟩]
  outcome token := if token = ⟨"a.near"⟩ then .error "timeout" else .ok 24
  completion missing := ⟨missing, .refl missing⟩

theorem ensure_backsOff_oneFails :
    ((run fiveMinutes [(0, .ensure oneFails)]).caches.decimals ⟨"a.near"⟩ = none ∧
      min (5 * 2 ^ min 1 8) 60 * minute ≤ 10 * minute - 0) ∧
    ⟨"b.near"⟩ ∉ (run fiveMinutes [(0, .ensure oneFails)]).caches.toFetch fiveMinutes (10 * minute)
        oneFails.tokenIds ∧
      ((run fiveMinutes [(0, .ensure oneFails)]).caches.ensureDecimalsCached fiveMinutes
        (10 * minute) oneFails).1 ⟨"b.near"⟩ = some 24 := by
  obtain ⟨hfetch, hstay⟩ := ensure_backsOff fiveMinutes [(0, .ensure oneFails)]
  obtain ⟨hnone, hwait⟩ := hfetch (10 * minute) oneFails ⟨"a.near"⟩ (by decide) (by decide)
  exact ⟨⟨hnone, hwait 0 (by decide) (by decide)⟩,
    hstay [] [] 0 oneFails ⟨"b.near"⟩ 24 rfl (by simp) (by decide) (by decide) (10 * minute)
      oneFails (by decide)⟩

/-- A token that a cleanup dropped is fetched again at once, though its last fetch failed. -/
theorem ensure_after_cleanup :
    ⟨"a.near"⟩ ∈ (run fiveMinutes [(0, .ensure oneFails), (minute, .cleanup [])]).caches.toFetch
        fiveMinutes (2 * minute) oneFails.tokenIds ∧
      lastFailure ⟨"a.near"⟩
        (run fiveMinutes [(0, .ensure oneFails), (minute, .cleanup [])]).log = some 0 ∧
      ¬ min (5 * 2 ^ min (consecutiveFailures ⟨"a.near"⟩
          (run fiveMinutes [(0, .ensure oneFails), (minute, .cleanup [])]).log) 8) 60 * minute ≤
        2 * minute - 0 := by
  refine ⟨by decide, by decide, by decide⟩

end Zaciraci.Trade.TokenCache
