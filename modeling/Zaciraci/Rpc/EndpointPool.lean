import Mathlib.Data.UInt
import Zaciraci.Lib.Timeline
import Zaciraci.Lib.Weighted
import Zaciraci.Units

namespace Zaciraci.Rpc

open Lib

structure RpcEndpoint where
  url : String
  weight : UInt32
  maxRetries : UInt32
deriving DecidableEq

structure StartupConfig where
  rpcEndpoints : List RpcEndpoint
  isMainnet : Bool
  rpcFailureResetSeconds : UInt64

/-- The endpoints, and for each that failed the time from which it is tried again. -/
structure EndpointPool where
  endpoints : List RpcEndpoint
  endpoints_ne_nil : endpoints ≠ []
  failures : String → Option Time
  failureResetSeconds : UInt64

def defaultEndpoint (isMainnet : Bool) : RpcEndpoint where
  url := if isMainnet then "https://rpc.mainnet.near.org" else "https://rpc.testnet.near.org"
  weight := 100
  maxRetries := 3

namespace EndpointPool

def new (startup : StartupConfig) : EndpointPool where
  endpoints :=
    if startup.rpcEndpoints = [] then [defaultEndpoint startup.isMainnet] else startup.rpcEndpoints
  endpoints_ne_nil := by
    split_ifs with h
    · exact List.cons_ne_nil _ _
    · exact h
  failures _ := none
  failureResetSeconds := startup.rpcFailureResetSeconds

def resetTime (pool : EndpointPool) (now : Time) : Time :=
  now + pool.failureResetSeconds.toNat * 10 ^ 9

def markFailed (pool : EndpointPool) (now : Time) (url : String) : EndpointPool :=
  { pool with failures := Function.update pool.failures url (some (pool.resetTime now)) }

def isAvailable (pool : EndpointPool) (now : Time) (url : String) : Bool :=
  match pool.failures url with
  | some resetTime => resetTime ≤ now
  | none => true

def availableEndpoints (pool : EndpointPool) (now : Time) : List RpcEndpoint :=
  pool.endpoints.filter (pool.isAvailable now ·.url)

def totalWeight (endpoints : List RpcEndpoint) : UInt32 := (endpoints.map RpcEndpoint.weight).sum

/-- A draw below the total is any number taken modulo the total. -/
def weightedRandomSelect (endpoints : List RpcEndpoint) (draw : UInt32) : Option RpcEndpoint :=
  match endpoints with
  | [] => none
  | first :: _ =>
    if totalWeight endpoints = 0 then some first
    else
      match pick RpcEndpoint.weight endpoints (draw % totalWeight endpoints) with
      | some ep => some ep
      | none => endpoints.getLast?

def nextEndpoint (pool : EndpointPool) (now : Time) (draw : UInt32) :
    Option RpcEndpoint × EndpointPool :=
  let available := pool.availableEndpoints now
  if available = [] then (pool.endpoints.head?, { pool with failures := fun _ ↦ none })
  else (weightedRandomSelect available draw, pool)

end EndpointPool

inductive PoolCall
  | markFailed (url : String)
  | nextEndpoint (draw : UInt32)

namespace EndpointPool

def step (pool : EndpointPool) (e : Time × PoolCall) : EndpointPool :=
  match e.2 with
  | .markFailed url => pool.markFailed e.1 url
  | .nextEndpoint draw => (pool.nextEndpoint e.1 draw).2

def run (pool : EndpointPool) (history : List (Time × PoolCall)) : EndpointPool :=
  history.foldl step pool

def WeightsFit (endpoints : List RpcEndpoint) : Prop :=
  (endpoints.map (·.weight.toNat)).sum < 2 ^ 32

section Selection

variable {pool : EndpointPool} {endpoints endpoints' : List RpcEndpoint} {now : Time}
  {draw : UInt32}

theorem WeightsFit.of_sublist (h : WeightsFit endpoints) (hsublist : endpoints'.Sublist endpoints) :
    WeightsFit endpoints' :=
  lt_of_le_of_lt ((hsublist.map _).sum_le_sum fun _ _ ↦ Nat.zero_le _) h

theorem toNat_totalWeight (h : WeightsFit endpoints) :
    (totalWeight endpoints).toNat = (endpoints.map (·.weight.toNat)).sum := by
  induction endpoints with
  | nil => rfl
  | cons ep rest ih =>
    have hrest := ih (h.of_sublist (List.sublist_cons_self ep rest))
    unfold WeightsFit at h
    rw [List.map_cons, List.sum_cons] at h ⊢
    rw [totalWeight, List.map_cons, List.sum_cons, ← totalWeight, UInt32.toNat_add, hrest,
      Nat.mod_eq_of_lt h]

theorem exists_pick_weight (h : WeightsFit endpoints) (hpos : totalWeight endpoints ≠ 0)
    (draw : UInt32) : ∃ ep ∈ endpoints,
      pick RpcEndpoint.weight endpoints (draw % totalWeight endpoints) = some ep ∧
      0 < ep.weight := by
  have htotal : (totalWeight endpoints).toNat ≠ 0 := fun h ↦ hpos (UInt32.toNat_inj.1 h)
  have hdraw : (draw % totalWeight endpoints).toNat < (endpoints.map (·.weight.toNat)).sum := by
    rw [UInt32.toNat_mod, ← toNat_totalWeight h]
    exact Nat.mod_lt _ (Nat.pos_of_ne_zero htotal)
  rw [pick_hom UInt32.toNat (fun _ _ ↦ UInt32.lt_iff_toNat_lt) fun a b hab ↦
    UInt32.toNat_sub_of_le a b (UInt32.not_lt.1 hab)]
  obtain ⟨ep, hmem, hpick, hweight⟩ := exists_pick hdraw
  exact ⟨ep, hmem, hpick, UInt32.lt_iff_toNat_lt.2 hweight⟩

theorem weightedRandomSelect_of_pick {ep : RpcEndpoint} (h : totalWeight endpoints ≠ 0)
    (hpick : pick RpcEndpoint.weight endpoints (draw % totalWeight endpoints) = some ep) :
    weightedRandomSelect endpoints draw = some ep := by
  cases endpoints with
  | nil => cases hpick
  | cons first rest => rw [weightedRandomSelect, if_neg h, hpick]

theorem exists_weightedRandomSelect (h : WeightsFit endpoints) (hne : endpoints ≠ [])
    (draw : UInt32) : ∃ ep ∈ endpoints, weightedRandomSelect endpoints draw = some ep ∧
      ((∃ ep' ∈ endpoints, 0 < ep'.weight) → 0 < ep.weight) := by
  obtain ⟨first, rest, rfl⟩ := List.exists_cons_of_ne_nil hne
  by_cases hzero : totalWeight (first :: rest) = 0
  · refine ⟨first, List.mem_cons_self, if_pos hzero, ?_⟩
    rintro ⟨ep, hep, hpos⟩
    -- A positive weight makes the sum positive.
    have hsum := toNat_totalWeight h
    have hle := List.single_le_sum (fun _ _ ↦ Nat.zero_le _) _
      (List.mem_map_of_mem (f := (·.weight.toNat)) hep)
    rw [hzero, UInt32.toNat_zero] at hsum
    have := UInt32.lt_iff_toNat_lt.1 hpos
    rw [UInt32.toNat_zero] at this
    omega
  · obtain ⟨ep, hmem, hpick, hweight⟩ := exists_pick_weight h hzero draw
    exact ⟨ep, hmem, weightedRandomSelect_of_pick hzero hpick, fun _ ↦ hweight⟩

theorem mem_availableEndpoints {ep : RpcEndpoint} :
    ep ∈ pool.availableEndpoints now ↔ ep ∈ pool.endpoints ∧ pool.isAvailable now ep.url :=
  List.mem_filter

theorem WeightsFit.available (h : WeightsFit pool.endpoints) (now : Time) :
    WeightsFit (pool.availableEndpoints now) :=
  h.of_sublist List.filter_sublist

theorem availableEndpoints_eq_nil_iff :
    pool.availableEndpoints now = [] ↔ ∀ ep ∈ pool.endpoints, ¬ pool.isAvailable now ep.url :=
  List.filter_eq_nil_iff

theorem nextEndpoint_of_available (h : WeightsFit pool.endpoints)
    (havailable : ∃ ep ∈ pool.endpoints, pool.isAvailable now ep.url) (draw : UInt32) :
    ∃ ep ∈ pool.endpoints, pool.nextEndpoint now draw = (some ep, pool) ∧
      pool.isAvailable now ep.url ∧
      ((∃ ep' ∈ pool.endpoints, pool.isAvailable now ep'.url ∧ 0 < ep'.weight) →
        0 < ep.weight) := by
  have hne : pool.availableEndpoints now ≠ [] := by
    obtain ⟨ep, hep⟩ := havailable
    exact List.ne_nil_of_mem (mem_availableEndpoints.2 hep)
  obtain ⟨ep, hmem, hselect, hweight⟩ := exists_weightedRandomSelect (h.available now) hne draw
  obtain ⟨hep, havail⟩ := mem_availableEndpoints.1 hmem
  refine ⟨ep, hep, ?_, havail, ?_⟩
  · rw [nextEndpoint, if_neg hne, hselect]
  · rintro ⟨ep', hep', havail', hpos⟩
    exact hweight ⟨ep', mem_availableEndpoints.2 ⟨hep', havail'⟩, hpos⟩

theorem nextEndpoint_of_not_available (h : ∀ ep ∈ pool.endpoints, ¬ pool.isAvailable now ep.url)
    (draw : UInt32) :
    pool.nextEndpoint now draw = (pool.endpoints.head?, { pool with failures := fun _ ↦ none }) :=
  if_pos (availableEndpoints_eq_nil_iff.2 h)

end Selection

end EndpointPool

structure Failure where
  url : String
  resetTime : Time

def Failing (failures : List Failure) (now : Time) (url : String) : Prop :=
  ∃ f ∈ failures, f.url = url ∧ now < f.resetTime

instance (failures : List Failure) (now : Time) (url : String) :
    Decidable (Failing failures now url) :=
  inferInstanceAs (Decidable (∃ f ∈ failures, _))

namespace EndpointPool

/-- What is known of the failures after a call: each that is reported, until all endpoints fail when
one is asked for. -/
def remember (pool : EndpointPool) (failures : List Failure) (e : Time × PoolCall) : List Failure :=
  match e.2 with
  | .markFailed url => ⟨url, pool.resetTime e.1⟩ :: failures
  | .nextEndpoint _ =>
    if ∀ ep ∈ pool.endpoints, Failing failures e.1 ep.url then [] else failures

def remembered (pool : EndpointPool) (history : List (Time × PoolCall)) : List Failure :=
  history.foldl (remember pool) []

structure Tracks (start : EndpointPool) (history : List (Time × PoolCall)) (pool : EndpointPool) :
    Prop where
  endpoints_eq : pool.endpoints = start.endpoints
  seconds_eq : pool.failureResetSeconds = start.failureResetSeconds
  failing_iff : ∀ now url, Failing (start.remembered history) now url ↔ ¬ pool.isAvailable now url
  resetTime_le : ∀ f ∈ start.remembered history, ∀ now, (∀ e ∈ history, e.1 ≤ now) →
    f.resetTime ≤ start.resetTime now

section History

variable {start pool : EndpointPool} {history : List (Time × PoolCall)} {now : Time}

theorem remembered_concat (start : EndpointPool) (history : List (Time × PoolCall))
    (e : Time × PoolCall) :
    start.remembered (history ++ [e]) = start.remember (start.remembered history) e := by
  rw [remembered, List.foldl_append]
  rfl

theorem failing_cons {f : Failure} {failures : List Failure} {url : String} :
    Failing (f :: failures) now url ↔
      f.url = url ∧ now < f.resetTime ∨ Failing failures now url := by
  simp [Failing]

theorem resetTime_mono (pool : EndpointPool) {s t : Time} (h : s ≤ t) :
    pool.resetTime s ≤ pool.resetTime t :=
  Int.add_le_add_right h _

theorem tracks_nil (start : EndpointPool) (hstart : start.failures = fun _ ↦ none) :
    Tracks start [] start where
  endpoints_eq := rfl
  seconds_eq := rfl
  failing_iff now url := by simp [remembered, Failing, isAvailable, hstart]
  resetTime_le f hf := by cases hf

theorem Tracks.markFailed (h : Tracks start history pool) (hnow : ∀ e ∈ history, e.1 ≤ now)
    (url : String) :
    Tracks start (history ++ [(now, .markFailed url)]) (pool.markFailed now url) := by
  have hreset (t) : pool.resetTime t = start.resetTime t := by
    rw [resetTime, h.seconds_eq, resetTime]
  refine ⟨h.endpoints_eq, h.seconds_eq, fun t url' ↦ ?_, fun f hf t ht ↦ ?_⟩
  · rw [remembered_concat]
    refine failing_cons.trans ?_
    by_cases heq : url = url'
    · subst heq
      -- The earlier failures are over no later than the one that replaces them.
      have hlast : Failing (start.remembered history) t url → t < start.resetTime now := by
        rintro ⟨f, hf, -, hlt⟩
        exact lt_of_lt_of_le hlt (h.resetTime_le f hf now hnow)
      simpa [isAvailable, EndpointPool.markFailed, hreset] using hlast
    · rw [h.failing_iff]
      simp [isAvailable, EndpointPool.markFailed, heq, Function.update_of_ne (Ne.symm heq)]
  · rw [remembered_concat] at hf
    rw [List.forall_mem_append, List.forall_mem_singleton] at ht
    rcases List.mem_cons.1 hf with rfl | hf
    · exact start.resetTime_mono ht.2
    · exact h.resetTime_le f hf t ht.1

theorem Tracks.all_failing_iff (h : Tracks start history pool) :
    (∀ ep ∈ start.endpoints, Failing (start.remembered history) now ep.url) ↔
      ∀ ep ∈ pool.endpoints, ¬ pool.isAvailable now ep.url := by
  simp only [h.failing_iff, h.endpoints_eq]

theorem Tracks.nextEndpoint (h : Tracks start history pool) (draw : UInt32) :
    Tracks start (history ++ [(now, .nextEndpoint draw)]) (pool.nextEndpoint now draw).2 := by
  have hconcat := remembered_concat start history (now, .nextEndpoint draw)
  by_cases hall : ∀ ep ∈ pool.endpoints, ¬ pool.isAvailable now ep.url
  · rw [nextEndpoint_of_not_available hall]
    have hnil : start.remembered (history ++ [(now, .nextEndpoint draw)]) = [] :=
      hconcat.trans (if_pos (h.all_failing_iff.2 hall))
    refine ⟨h.endpoints_eq, h.seconds_eq, fun t url ↦ ?_, fun f hf ↦ ?_⟩
    · rw [hnil]
      simp [Failing, isAvailable]
    · rw [hnil] at hf
      cases hf
  · have hsame : start.remembered (history ++ [(now, .nextEndpoint draw)]) =
        start.remembered history := hconcat.trans (if_neg (mt h.all_failing_iff.1 hall))
    have hpool : (pool.nextEndpoint now draw).2 = pool := by
      rw [EndpointPool.nextEndpoint, if_neg (mt availableEndpoints_eq_nil_iff.1 hall)]
    rw [hpool]
    refine ⟨h.endpoints_eq, h.seconds_eq, ?_, fun f hf t ht ↦ ?_⟩
    · rw [hsame]
      exact h.failing_iff
    · rw [hsame] at hf
      exact h.resetTime_le f hf t fun e he ↦ ht e (List.mem_append_left _ he)

theorem tracks_run (hstart : start.failures = fun _ ↦ none) (h : Chronological history) :
    Tracks start history (start.run history) := by
  refine h.run_induct (I := Tracks start) (tracks_nil start hstart) ?_
  intro history pool now call htracks hnow
  cases call with
  | markFailed url => exact htracks.markFailed hnow url
  | nextEndpoint draw => exact htracks.nextEndpoint draw

end History

structure Answers (pool : EndpointPool) (failures : List Failure) (now : Time) (draw : UInt32)
    (ep : RpcEndpoint) (pool' : EndpointPool) : Prop where
  mem : ep ∈ pool.endpoints
  not_failing : (∃ ep' ∈ pool.endpoints, ¬ Failing failures now ep'.url) →
    ¬ Failing failures now ep.url ∧ pool' = pool
  weight_pos : (∃ ep' ∈ pool.endpoints, ¬ Failing failures now ep'.url ∧ 0 < ep'.weight) →
    0 < ep.weight
  /-- The walk over the weights does not get to its end. -/
  picked : totalWeight (pool.availableEndpoints now) ≠ 0 →
    pick RpcEndpoint.weight (pool.availableEndpoints now)
      (draw % totalWeight (pool.availableEndpoints now)) = some ep
  first : (∀ ep' ∈ pool.endpoints, Failing failures now ep'.url) →
    pool.endpoints.head? = some ep ∧ pool' = { pool with failures := fun _ ↦ none }

theorem exists_answers {pool : EndpointPool} {failures : List Failure} {now : Time}
    (hweights : WeightsFit pool.endpoints)
    (hfailing : ∀ url, Failing failures now url ↔ ¬ pool.isAvailable now url) (draw : UInt32) :
    ∃ ep pool', pool.nextEndpoint now draw = (some ep, pool') ∧
      Answers pool failures now draw ep pool' := by
  by_cases hall : ∀ ep ∈ pool.endpoints, ¬ pool.isAvailable now ep.url
  · have hempty := availableEndpoints_eq_nil_iff.2 hall
    obtain ⟨ep, rest, hcons⟩ := List.exists_cons_of_ne_nil pool.endpoints_ne_nil
    have hhead : pool.endpoints.head? = some ep := by rw [hcons, List.head?_cons]
    refine ⟨ep, _, (nextEndpoint_of_not_available hall draw).trans (by rw [hhead]),
      List.mem_of_mem_head? hhead, ?_, ?_, ?_, fun _ ↦ ⟨hhead, rfl⟩⟩
    · rintro ⟨ep', hep', hnot⟩
      exact absurd ((hfailing _).2 (hall ep' hep')) hnot
    · rintro ⟨ep', hep', hnot, -⟩
      exact absurd ((hfailing _).2 (hall ep' hep')) hnot
    · rw [hempty]
      exact fun hne ↦ absurd rfl hne
  · push Not at hall
    obtain ⟨ep, hep, hnext, havail, hweight⟩ := nextEndpoint_of_available hweights hall draw
    have hnot : ¬ Failing failures now ep.url := fun hf ↦ (hfailing _).1 hf havail
    refine ⟨ep, pool, hnext, hep, fun _ ↦ ⟨hnot, rfl⟩, ?_, fun htotal ↦ ?_, fun hfail ↦ ?_⟩
    · rintro ⟨ep', hep', hnot', hpos⟩
      exact hweight ⟨ep', hep', not_not.1 (mt (hfailing _).2 hnot'), hpos⟩
    · obtain ⟨ep', hmem, hpick, -⟩ := exists_pick_weight (hweights.available now) htotal draw
      rw [nextEndpoint, if_neg (List.ne_nil_of_mem hmem),
        weightedRandomSelect_of_pick htotal hpick] at hnext
      rw [hpick, (Prod.mk.inj hnext).1]
    · exact absurd (hfail ep hep) hnot

/-- Whatever was called before, the pool has an endpoint: one that does not fail, with a weight if
one of them has a weight, or the first if all fail, and then it forgets the failures. -/
theorem nextEndpoint_answers (startup : StartupConfig)
    (hweights : WeightsFit (new startup).endpoints) (history : List (Time × PoolCall))
    (hchron : Chronological history) (now : Time) (draw : UInt32) :
    ((new startup).run history).endpoints = (new startup).endpoints ∧
      ∃ ep pool', ((new startup).run history).nextEndpoint now draw = (some ep, pool') ∧
        Answers ((new startup).run history) ((new startup).remembered history) now draw ep
          pool' := by
  have htracks : Tracks (new startup) history ((new startup).run history) := tracks_run rfl hchron
  refine ⟨htracks.endpoints_eq, exists_answers ?_ (htracks.failing_iff now) draw⟩
  rw [htracks.endpoints_eq]
  exact hweights

def threeEndpoints : StartupConfig where
  rpcEndpoints := [⟨"https://a.test", 5, 3⟩, ⟨"https://b.test", 0, 3⟩, ⟨"https://c.test", 2, 1⟩]
  isMainnet := false
  rpcFailureResetSeconds := 60

def oneFailure : List (Time × PoolCall) :=
  [(0, .nextEndpoint 3), (10 ^ 9, .markFailed "https://a.test"), (2 * 10 ^ 9, .nextEndpoint 9)]

theorem nextEndpoint_answers_oneFailure :
    ((new threeEndpoints).run oneFailure).endpoints = (new threeEndpoints).endpoints ∧
      ∃ ep pool',
        ((new threeEndpoints).run oneFailure).nextEndpoint (61 * 10 ^ 9) 4 = (some ep, pool') ∧
        Answers ((new threeEndpoints).run oneFailure) ((new threeEndpoints).remembered oneFailure)
          (61 * 10 ^ 9) 4 ep pool' :=
  nextEndpoint_answers threeEndpoints (by unfold WeightsFit; decide) oneFailure (by decide)
    (61 * 10 ^ 9) 4

end EndpointPool

end Zaciraci.Rpc
