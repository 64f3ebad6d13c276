import Mathlib.Data.String.Basic
import Mathlib.Logic.Relation
import Zaciraci.Lib.RustStd
import Zaciraci.Lib.SortedMap
import Zaciraci.Lib.Text

namespace Zaciraci.Auth

open Lib

/-- Durations and readings of the monotonic clock count nanoseconds. -/
def fromSecs (secs : ℕ) : ℕ := secs * 10 ^ 9

def asSecs (duration : ℕ) : ℕ := duration / 10 ^ 9

def defaultTtl : ℕ := fromSecs 3600
def minJwksTtl : ℕ := fromSecs 60
def maxJwksTtl : ℕ := fromSecs (24 * 60 * 60)
def minRefreshSleep : ℕ := fromSecs 30
def minRetryBackoff : ℕ := fromSecs 30
def maxRetryBackoff : ℕ := fromSecs 600
def refreshCheckInterval : ℕ := fromSecs 30
def refreshNum : ℕ := 9
def refreshDen : ℕ := 10
def jwksHttpTimeout : ℕ := fromSecs 10
def maxJwksBodyBytes : ℕ := 1024 * 1024

def saturatingMulU64 (a b : ℕ) : ℕ := min (a * b) (2 ^ 64 - 1)

structure Jwk where
  kid : String
  alg : Option String
  n : String
  e : String

/-- A response without an error status. The body is what the capped read and the parser make
of it. -/
structure JwksResponse where
  cacheControl : Option HeaderValue
  contentLength : Option ℕ
  body : Except String (List Jwk)

def parseMaxAge (header : Option HeaderValue) : Option ℕ := do
  let value ← header.bind headerToStr
  (value.splitOn ',').findSome? fun directive ↦ do
    let rest ← stripStart "max-age=".toList (trim directive)
    let secs ← parseUnsigned (2 ^ 64) (String.ofList (trim rest))
    return fromSecs secs

structure CachedJwks (Key : Type) where
  keys : SortedMap String Key
  fetchedAt : Option ℕ
  expiresAt : Option ℕ

variable {Key : Type}

namespace CachedJwks

def default : CachedJwks Key := ⟨.empty, none, none⟩

def needsRefresh (cached : CachedJwks Key) (now : ℕ) : Bool :=
  match cached.fetchedAt, cached.expiresAt with
  | some fetched, some expires =>
    saturatingMulU64 (asSecs (expires - fetched)) refreshNum ≤
      saturatingMulU64 (asSecs (now - fetched)) refreshDen
  | _, _ => true

def get (cached : CachedJwks Key) (kid : String) : Option Key := cached.keys.get kid

def isEmpty (cached : CachedJwks Key) : Bool := cached.keys.entries.isEmpty

def clearIfExpired (cached : CachedJwks Key) (now : ℕ) : CachedJwks Key :=
  match cached.expiresAt with
  | some expires => if expires ≤ now then { cached with keys := .empty } else cached
  | none => cached

end CachedJwks

section Refresh

variable (fromRsaComponents : String → String → Option Key)

def decodeKeys (jwks : List Jwk) : SortedMap String Key :=
  jwks.foldl (fun keys jwk ↦
    if jwk.alg = some "RS256" then
      match fromRsaComponents jwk.n jwk.e with
      | some key => keys.insert jwk.kid key
      | none => keys
    else keys) .empty

def clampTtl (ttl : ℕ) : ℕ := max minJwksTtl (min ttl maxJwksTtl)

def refreshOnce (fetched : Except String JwksResponse) (now : ℕ) :
    Except String (ℕ × CachedJwks Key) := do
  let response ← fetched
  let ttl := clampTtl ((parseMaxAge response.cacheControl).getD defaultTtl)
  let declared := response.contentLength.getD 0
  if maxJwksBodyBytes < declared then
    .error s!"JWKS body Content-Length {declared} exceeds limit {maxJwksBodyBytes}"
  else
    let jwks ← response.body
    return (ttl, ⟨decodeKeys fromRsaComponents jwks, some now, some (now + ttl)⟩)

/-- Where the refresh task is: about to look at the cache, asleep, or in `refresh_once`. -/
inductive RefreshPhase
  | checking
  | sleeping (wakeAt : ℕ)
  | fetching (startedAt : ℕ)

structure RefreshTask (Key : Type) where
  now : ℕ
  cached : CachedJwks Key
  phase : RefreshPhase
  backoff : ℕ

namespace RefreshTask

/-- `new_google` followed by `spawn_refresh_task`. -/
def spawn (fetched : Except String JwksResponse) (now : ℕ) : RefreshTask Key where
  now
  cached := match refreshOnce fromRsaComponents fetched now with
    | .ok (_, snapshot) => snapshot
    | .error _ => .default
  phase := .checking
  backoff := minRetryBackoff

def check (task : RefreshTask Key) : RefreshTask Key :=
  if task.cached.needsRefresh task.now then { task with phase := .fetching task.now }
  else { task with phase := .sleeping (task.now + refreshCheckInterval) }

def finish (fetched : Except String JwksResponse) (task : RefreshTask Key) : RefreshTask Key :=
  match refreshOnce fromRsaComponents fetched task.now with
  | .ok (ttl, snapshot) =>
    let sleepFor := max (ttl * refreshNum / refreshDen) minRefreshSleep
    { task with
      cached := snapshot
      phase := .sleeping (task.now + sleepFor)
      backoff := minRetryBackoff }
  | .error _ =>
    { task with
      cached := task.cached.clearIfExpired task.now
      phase := .sleeping (task.now + task.backoff)
      backoff := min (task.backoff * 2) maxRetryBackoff }

/-- Time passes only asleep, up to the moment asked for, and in a fetch, up to its timeout. -/
inductive Step : RefreshTask Key → RefreshTask Key → Prop
  | check {task : RefreshTask Key} : task.phase = .checking → Step task task.check
  | sleep {task : RefreshTask Key} {wakeAt now : ℕ} : task.phase = .sleeping wakeAt →
      task.now ≤ now → now ≤ wakeAt → Step task { task with now }
  | wake {task : RefreshTask Key} : task.phase = .sleeping task.now →
      Step task { task with phase := .checking }
  | fetch {task : RefreshTask Key} {startedAt now : ℕ} : task.phase = .fetching startedAt →
      task.now ≤ now → now ≤ startedAt + jwksHttpTimeout → Step task { task with now }
  | finish {task : RefreshTask Key} {startedAt : ℕ} (fetched : Except String JwksResponse) :
      task.phase = .fetching startedAt → Step task (task.finish fromRsaComponents fetched)

end RefreshTask

end Refresh

/-- Keys that are still there at `t` expired no more than the longest back-off before. -/
def CachedJwks.UsableAt (cached : CachedJwks Key) (t : ℕ) : Prop :=
  ∀ kid key, cached.get kid = some key →
    ∃ expires, cached.expiresAt = some expires ∧ t ≤ expires + maxRetryBackoff

def RefreshTask.PhaseOk (task : RefreshTask Key) : Prop :=
  match task.phase with
  | .checking => task.cached.UsableAt task.now
  | .sleeping wakeAt => task.now ≤ wakeAt ∧ task.cached.UsableAt wakeAt
  | .fetching startedAt => task.now ≤ startedAt + jwksHttpTimeout ∧ task.cached.UsableAt startedAt

structure RefreshTask.OnTime (task : RefreshTask Key) : Prop where
  backoff : task.backoff ≤ maxRetryBackoff
  phase : task.PhaseOk

section Invariant

variable {fromRsaComponents : String → String → Option Key}

theorem refreshOnce_eq_ok {fetched : Except String JwksResponse} {now ttl : ℕ}
    {snapshot : CachedJwks Key}
    (h : refreshOnce fromRsaComponents fetched now = .ok (ttl, snapshot)) :
    (∃ response, fetched = .ok response ∧
      ttl = clampTtl ((parseMaxAge response.cacheControl).getD defaultTtl)) ∧
      snapshot.fetchedAt = some now ∧ snapshot.expiresAt = some (now + ttl) := by
  rw [refreshOnce] at h
  cases fetched with
  | error m => cases h
  | ok response =>
    simp only [bind, Except.bind] at h
    split at h
    · cases h
    · split at h
      · cases h
      · cases h
        exact ⟨⟨response, rfl, rfl⟩, rfl, rfl⟩

theorem sleep_le_ttl {ttl : ℕ} (h : minJwksTtl ≤ ttl) :
    max (ttl * refreshNum / refreshDen) minRefreshSleep ≤ ttl := by
  simp only [minJwksTtl, minRefreshSleep, refreshNum, refreshDen, fromSecs] at *
  omega

theorem lt_expires_of_not_needsRefresh {cached : CachedJwks Key} {now : ℕ}
    (h : cached.needsRefresh now = false) :
    ∃ expires, cached.expiresAt = some expires ∧ now < expires := by
  rw [CachedJwks.needsRefresh] at h
  split at h
  · next fetched expires _ hexpires =>
    have hlt := of_decide_eq_false h
    simp only [saturatingMulU64, asSecs, refreshNum, refreshDen] at hlt
    exact ⟨expires, hexpires, by omega⟩
  · cases h

theorem minRetryBackoff_le : minRetryBackoff ≤ maxRetryBackoff := by decide

theorem usableAt_default (t : ℕ) : (CachedJwks.default : CachedJwks Key).UsableAt t := by
  intro kid key h
  cases h

namespace RefreshTask

theorem onTime_spawn (fetched : Except String JwksResponse) (now : ℕ) :
    (spawn fromRsaComponents fetched now).OnTime := by
  refine ⟨minRetryBackoff_le, ?_⟩
  simp only [PhaseOk, spawn]
  split
  · next ttl snapshot h =>
    intro kid key _
    exact ⟨_, (refreshOnce_eq_ok h).2.2, by omega⟩
  · exact usableAt_default now

variable {task : RefreshTask Key}

theorem OnTime.check (h : task.OnTime) (hphase : task.phase = .checking) :
    task.check.OnTime := by
  have hnow : task.cached.UsableAt task.now := by simpa [PhaseOk, hphase] using h.phase
  rw [RefreshTask.check]
  split
  · exact ⟨h.backoff, Nat.le_add_right _ _, hnow⟩
  · next hrefresh =>
    refine ⟨h.backoff, Nat.le_add_right _ _, ?_⟩
    obtain ⟨expires, hexpires, hlt⟩ := lt_expires_of_not_needsRefresh (by simpa using hrefresh)
    intro kid key _
    refine ⟨expires, hexpires, ?_⟩
    simp only [refreshCheckInterval, maxRetryBackoff, fromSecs]
    omega

theorem OnTime.finish (h : task.OnTime) {startedAt : ℕ} (hphase : task.phase = .fetching startedAt)
    (fetched : Except String JwksResponse) :
    (task.finish fromRsaComponents fetched).OnTime := by
  have hstart : task.cached.UsableAt startedAt := by
    have := h.phase
    rw [PhaseOk, hphase] at this
    exact this.2
  rw [RefreshTask.finish]
  split
  · next ttl snapshot hrefresh =>
    obtain ⟨⟨response, -, httl⟩, -, hexpires⟩ := refreshOnce_eq_ok hrefresh
    have hsleep := sleep_le_ttl ((le_max_left minJwksTtl _).trans_eq httl.symm)
    refine ⟨minRetryBackoff_le, Nat.le_add_right _ _, ?_⟩
    intro kid key _
    exact ⟨_, hexpires, by omega⟩
  · refine ⟨min_le_right _ _, Nat.le_add_right _ _, ?_⟩
    intro kid key hget
    have hbackoff := h.backoff
    rw [CachedJwks.clearIfExpired] at hget ⊢
    split at hget
    · next expires hexpires =>
      split_ifs at hget ⊢ with hexpired
      · cases hget
      · exact ⟨expires, hexpires, by omega⟩
    · next hnone =>
      obtain ⟨expires, hexpires, -⟩ := hstart kid key hget
      simp [hexpires] at hnone

theorem OnTime.step {task task' : RefreshTask Key} (h : task.OnTime)
    (hstep : Step fromRsaComponents task task') : task'.OnTime := by
  have hphase := h.phase
  cases hstep with
  | check hp => exact h.check hp
  | sleep hp _ hwake =>
    simp only [PhaseOk, hp] at hphase
    refine ⟨h.backoff, ?_⟩
    simp only [PhaseOk, hp]
    exact ⟨hwake, hphase.2⟩
  | wake hp =>
    simp only [PhaseOk, hp] at hphase
    exact ⟨h.backoff, hphase.2⟩
  | fetch hp _ hend =>
    simp only [PhaseOk, hp] at hphase
    refine ⟨h.backoff, ?_⟩
    simp only [PhaseOk, hp]
    exact ⟨hend, hphase.2⟩
  | finish fetched hp => exact h.finish hp fetched

theorem OnTime.get (h : task.OnTime) {kid : String} {key : Key}
    (hget : task.cached.get kid = some key) :
    ∃ expires, task.cached.expiresAt = some expires ∧ task.now ≤ expires + fromSecs 610 := by
  have hphase := h.phase
  have hbound : maxRetryBackoff + jwksHttpTimeout = fromSecs 610 := by decide
  rw [PhaseOk] at hphase
  split at hphase
  · obtain ⟨expires, hexpires, hle⟩ := hphase kid key hget
    exact ⟨expires, hexpires, by omega⟩
  · obtain ⟨expires, hexpires, hle⟩ := hphase.2 kid key hget
    exact ⟨expires, hexpires, by omega⟩
  · obtain ⟨expires, hexpires, hle⟩ := hphase.2 kid key hget
    exact ⟨expires, hexpires, by omega⟩

theorem onTime_of_reachable {first : Except String JwksResponse} {t₀ : ℕ}
    (hrun : Relation.ReflTransGen (Step fromRsaComponents)
      (spawn fromRsaComponents first t₀) task) : task.OnTime := by
  induction hrun with
  | refl => exact onTime_spawn first t₀
  | tail _ hstep ih => exact ih.step hstep

/-- While the refresh task runs, a key outlives its snapshot by the longest back-off and one
fetch at most. -/
theorem stale_at_most_610_seconds {first : Except String JwksResponse} {t₀ : ℕ}
    {task : RefreshTask Key}
    (hrun : Relation.ReflTransGen (Step fromRsaComponents)
      (spawn fromRsaComponents first t₀) task)
    {kid : String} {key : Key} (hget : task.cached.get kid = some key) :
    ∃ expires, task.cached.expiresAt = some expires ∧ task.now ≤ expires + fromSecs 610 := by
  exact (onTime_of_reachable hrun).get hget

def hundredSeconds : JwksResponse where
  cacheControl := some ("max-age=100".toList.map fun c ↦ c.toNat.toUInt8)
  contentLength := none
  body := .ok [⟨"k", some "RS256", "n", "e"⟩]

def modulus (n _ : String) : Option String := some n

def hundredSecondsTask (secs : ℕ) (phase : RefreshPhase) (backoff : ℕ) : RefreshTask String where
  now := fromSecs secs
  cached := ⟨SortedMap.empty.insert "k" "n", some 0, some (fromSecs 100)⟩
  phase
  backoff := fromSecs backoff

theorem hundredSeconds_poll {secs : ℕ} (h : secs ∈ [0, 30, 60]) :
    Relation.ReflTransGen (Step modulus) (hundredSecondsTask secs .checking 30)
      (hundredSecondsTask (secs + 30) .checking 30) := by
  let asleep := RefreshPhase.sleeping (fromSecs (secs + 30))
  have hcheck :
      (hundredSecondsTask secs .checking 30).check = hundredSecondsTask secs asleep 30 := by
    simp only [List.mem_cons, List.not_mem_nil, or_false] at h
    obtain rfl | rfl | rfl := h <;> rfl
  have hle : fromSecs secs ≤ fromSecs (secs + 30) := Nat.mul_le_mul_right _ (by omega)
  have hsleep : Step modulus (hundredSecondsTask secs asleep 30)
      (hundredSecondsTask (secs + 30) asleep 30) := .sleep rfl hle le_rfl
  have hwake : Step modulus (hundredSecondsTask (secs + 30) asleep 30)
      (hundredSecondsTask (secs + 30) .checking 30) := .wake rfl
  exact ((Relation.ReflTransGen.single (hcheck ▸ .check rfl)).tail hsleep).tail hwake

theorem hundredSeconds_run :
    Relation.ReflTransGen (Step modulus) (spawn modulus (.ok hundredSeconds) 0)
      (hundredSecondsTask 120 (.sleeping (fromSecs 120)) 60) := by
  have hpolls := ((@hundredSeconds_poll 0 (by decide)).trans
    (hundredSeconds_poll (by decide))).trans (hundredSeconds_poll (by decide))
  have hcheck : Step modulus (hundredSecondsTask 90 .checking 30)
      (hundredSecondsTask 90 (.fetching (fromSecs 90)) 30) := .check rfl
  have hfail : Step modulus (hundredSecondsTask 90 (.fetching (fromSecs 90)) 30)
      (hundredSecondsTask 90 (.sleeping (fromSecs 120)) 60) := .finish (.error "timeout") rfl
  have hsleep : Step modulus (hundredSecondsTask 90 (.sleeping (fromSecs 120)) 60)
      (hundredSecondsTask 120 (.sleeping (fromSecs 120)) 60) := .sleep rfl (by decide) le_rfl
  exact ((hpolls.tail hcheck).tail hfail).tail hsleep

theorem stale_twenty_seconds :
    (hundredSecondsTask 120 (.sleeping (fromSecs 120)) 60).cached.get "k" = some "n" ∧
      ∃ expires, some (fromSecs 100) = some expires ∧ fromSecs 120 ≤ expires + fromSecs 610 := by
  have hget : (hundredSecondsTask 120 (.sleeping (fromSecs 120)) 60).cached.get "k" =
      some "n" := rfl
  exact ⟨hget, stale_at_most_610_seconds hundredSeconds_run hget⟩

end RefreshTask

end Invariant

end Zaciraci.Auth
