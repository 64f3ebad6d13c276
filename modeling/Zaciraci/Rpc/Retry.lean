import Zaciraci.Lib.Loop
import Zaciraci.Rpc.EndpointPool

namespace Zaciraci.Rpc

open Lib

/-- The errors of `near_jsonrpc_client` as far as the client tells them apart. -/
inductive JsonRpcError (E : Type)
  | tooManyRequests
  | requestValidationError
  | handlerError (err : E)
  | internalError
  | nonContextualError
  | unauthorized
  | unexpectedStatus (status : ℕ)
  | otherStatus
  | payloadSendError
  | payloadSerializeError
  | unexpectedServerResponse
  | payloadRecvError
  | payloadParseError
  | responseParseError

inductive MaybeRetry (R ε : Type)
  | through (res : Except ε R)
  | retry (err : ε)
  | switchEndpoint (err : ε)

namespace MaybeRetry

variable {R ε : Type}

def result : MaybeRetry R ε → Except ε R
  | .through res => res
  | .retry err | .switchEndpoint err => .error err

def IsThrough : MaybeRetry R ε → Prop
  | .through _ => True
  | .retry _ | .switchEndpoint _ => False

end MaybeRetry

section Model

variable {E R ε : Type}

def callMaybeRetry : Except (JsonRpcError E) R → MaybeRetry R (JsonRpcError E)
  | .ok res => .through (.ok res)
  | .error err =>
    match err with
    | .tooManyRequests => .switchEndpoint err
    | .internalError | .nonContextualError => .retry err
    | .unexpectedStatus status =>
      if 500 ≤ status ∧ status < 600 then .retry err else .through (.error err)
    | .payloadSendError | .payloadRecvError | .payloadParseError | .responseParseError => .retry err
    | .requestValidationError | .handlerError _ | .unauthorized | .otherStatus
    | .payloadSerializeError | .unexpectedServerResponse => .through (.error err)

/-- All that a call meets: what becomes of each request, the clock and the draws of each round, and
what others do to the pool before it. -/
structure Surroundings (R ε : Type) where
  outcome : ℕ → MaybeRetry R ε
  now : ℕ → Time
  draw : ℕ → UInt32
  others : ℕ → List (Time × PoolCall)

structure Attempt where
  endpoint : RpcEndpoint
  retryCount : UInt32
  requests : ℕ

/-- The state between two rounds. Without an attempt the outer loop selects an endpoint. -/
structure CallState where
  pool : EndpointPool
  totalRetryCount : UInt16
  attempt : Option Attempt
  earlier : List (RpcEndpoint × ℕ)
  round : ℕ

/-- What the call returns, and how many requests each selected endpoint got, the last one first. -/
structure Reply (R ε : Type) where
  result : Except ε R
  served : List (RpcEndpoint × ℕ)

def requestsOf (served : List (RpcEndpoint × ℕ)) : ℕ := (served.map Prod.snd).sum

def CallState.sent (s : CallState) : ℕ :=
  requestsOf s.earlier + (s.attempt.map Attempt.requests).getD 0

/-- One round of the loops: an endpoint is selected, or it is sent a request. The counters wrap
around as in a release build. -/
def callRound (retryLimit : UInt16) (env : Surroundings R ε) (s : CallState) :
    Round (Option (Reply R ε)) CallState :=
  let pool := s.pool.run (env.others s.round)
  let now := env.now s.round
  let round := s.round + 1
  match s.attempt with
  | none =>
    match pool.nextEndpoint now (env.draw s.round) with
    | (none, pool) => .again { s with pool, round }
    | (some ep, pool) => .again { s with pool, round, attempt := some ⟨ep, 0, 0⟩ }
  | some a =>
    let served := (a.endpoint, a.requests + 1) :: s.earlier
    let totalRetryCount := s.totalRetryCount + 1
    match env.outcome s.sent with
    | .through res => .leave (some ⟨res, served⟩)
    | .retry err =>
      if retryLimit < totalRetryCount then .leave (some ⟨.error err, served⟩)
      else
        let retryCount := a.retryCount + 1
        if a.endpoint.maxRetries < retryCount then
          .again ⟨pool.markFailed now a.endpoint.url, totalRetryCount, none, served, round⟩
        else
          .again ⟨pool, totalRetryCount, some ⟨a.endpoint, retryCount, a.requests + 1⟩, s.earlier,
            round⟩
    | .switchEndpoint err =>
      -- `call_maybe_retry` has marked the endpoint before the limit is looked at.
      let pool := pool.markFailed now a.endpoint.url
      if retryLimit < totalRetryCount then .leave (some ⟨.error err, served⟩)
      else .again ⟨pool, totalRetryCount, none, served, round⟩

def call (retryLimit : UInt16) (env : Surroundings R ε) (pool : EndpointPool) (rounds : ℕ) :
    Option (Reply R ε) :=
  loop (callRound retryLimit env) (fun _ ↦ none) rounds ⟨pool, 0, none, [], 0⟩

end Model

namespace EndpointPool

theorem exists_nextEndpoint (pool : EndpointPool) (now : Time) (draw : UInt32) :
    ∃ ep pool', pool.nextEndpoint now draw = (some ep, pool') := by
  unfold nextEndpoint
  dsimp only
  split_ifs with hempty
  · exact ⟨_, _, by rw [List.head?_eq_some_head pool.endpoints_ne_nil]⟩
  · obtain ⟨first, rest, hcons⟩ := List.exists_cons_of_ne_nil hempty
    rw [hcons, weightedRandomSelect]
    split_ifs
    · exact ⟨_, _, rfl⟩
    · cases pick RpcEndpoint.weight (first :: rest) (draw % totalWeight (first :: rest)) with
      | some ep => exact ⟨_, _, rfl⟩
      | none => exact ⟨_, _, by rw [List.getLast?_cons]⟩

end EndpointPool

section Rounds

theorem requestsOf_cons (e : RpcEndpoint × ℕ) (served : List (RpcEndpoint × ℕ)) :
    requestsOf (e :: served) = e.2 + requestsOf served := rfl

theorem CallState.sent_of_none {s : CallState} (h : s.attempt = none) :
    s.sent = requestsOf s.earlier := by
  rw [sent, h]
  rfl

theorem CallState.sent_of_some {s : CallState} {a : Attempt} (h : s.attempt = some a) :
    s.sent = requestsOf s.earlier + a.requests := by
  rw [sent, h]
  rfl

variable {R ε : Type} {retryLimit : UInt16} {env : Surroundings R ε} {s s' : CallState}
  {reply : Option (Reply R ε)}

theorem callRound_select (retryLimit : UInt16) (env : Surroundings R ε) (h : s.attempt = none) :
    ∃ ep pool', callRound retryLimit env s =
      .again { s with pool := pool', round := s.round + 1, attempt := some ⟨ep, 0, 0⟩ } := by
  obtain ⟨ep, pool', hnext⟩ := (s.pool.run (env.others s.round)).exists_nextEndpoint
    (env.now s.round) (env.draw s.round)
  refine ⟨ep, pool', ?_⟩
  simp only [callRound, h, hnext]

/-- A request passes through, uses up the retries, or fails with retries left, for its endpoint or
for the next one. -/
theorem callRound_request (retryLimit : UInt16) (env : Surroundings R ε) {a : Attempt}
    (h : s.attempt = some a) :
    ((env.outcome s.sent).IsThrough ∨
        ¬ (env.outcome s.sent).IsThrough ∧ retryLimit < s.totalRetryCount + 1) ∧
      callRound retryLimit env s =
        .leave (some ⟨(env.outcome s.sent).result, (a.endpoint, a.requests + 1) :: s.earlier⟩) ∨
    ¬ (env.outcome s.sent).IsThrough ∧ ¬ retryLimit < s.totalRetryCount + 1 ∧
      ∃ s', callRound retryLimit env s = .again s' ∧ s'.totalRetryCount = s.totalRetryCount + 1 ∧
        (s'.attempt = none ∧ s'.earlier = (a.endpoint, a.requests + 1) :: s.earlier ∨
          s'.attempt = some ⟨a.endpoint, a.retryCount + 1, a.requests + 1⟩ ∧
          s'.earlier = s.earlier ∧ ¬ a.endpoint.maxRetries < a.retryCount + 1) := by
  unfold callRound
  rw [h]
  dsimp only
  cases env.outcome s.sent with
  | through res => exact .inl ⟨.inl trivial, rfl⟩
  | retry err =>
    dsimp only
    split_ifs with hlimit hretries
    · exact .inl ⟨.inr ⟨id, hlimit⟩, rfl⟩
    · exact .inr ⟨id, hlimit, _, rfl, rfl, .inl ⟨rfl, rfl⟩⟩
    · exact .inr ⟨id, hlimit, _, rfl, rfl, .inr ⟨rfl, rfl, hretries⟩⟩
  | switchEndpoint err =>
    dsimp only
    split_ifs with hlimit
    · exact .inl ⟨.inr ⟨id, hlimit⟩, rfl⟩
    · exact .inr ⟨id, hlimit, _, rfl, rfl, .inl ⟨rfl, rfl⟩⟩

theorem callRound_leave (h : callRound retryLimit env s = .leave reply) :
    ∃ a, s.attempt = some a ∧
      reply = some ⟨(env.outcome s.sent).result, (a.endpoint, a.requests + 1) :: s.earlier⟩ ∧
      ((env.outcome s.sent).IsThrough ∨
        ¬ (env.outcome s.sent).IsThrough ∧ retryLimit < s.totalRetryCount + 1) := by
  cases ha : s.attempt with
  | none =>
    obtain ⟨ep, pool', heq⟩ := callRound_select retryLimit env ha
    rw [heq] at h
    cases h
  | some a =>
    obtain ⟨hend, heq⟩ | ⟨-, -, s', heq, -⟩ := callRound_request retryLimit env ha
    · rw [heq] at h
      cases h
      exact ⟨a, rfl, rfl, hend⟩
    · rw [heq] at h
      cases h

theorem callRound_again (h : callRound retryLimit env s = .again s') :
    (s.attempt = none ∧ (∃ ep, s'.attempt = some ⟨ep, 0, 0⟩) ∧ s'.earlier = s.earlier ∧
      s'.totalRetryCount = s.totalRetryCount ∧ s'.sent = s.sent) ∨
    ∃ a, s.attempt = some a ∧ ¬ (env.outcome s.sent).IsThrough ∧
      ¬ retryLimit < s.totalRetryCount + 1 ∧ s'.totalRetryCount = s.totalRetryCount + 1 ∧
      s'.sent = s.sent + 1 ∧
      (s'.attempt = none ∧ s'.earlier = (a.endpoint, a.requests + 1) :: s.earlier ∨
        s'.attempt = some ⟨a.endpoint, a.retryCount + 1, a.requests + 1⟩ ∧ s'.earlier = s.earlier ∧
        ¬ a.endpoint.maxRetries < a.retryCount + 1) := by
  cases ha : s.attempt with
  | none =>
    obtain ⟨ep, pool', heq⟩ := callRound_select retryLimit env ha
    rw [heq] at h
    cases h
    refine .inl ⟨rfl, ⟨ep, rfl⟩, rfl, rfl, ?_⟩
    rw [s.sent_of_none ha, CallState.sent_of_some rfl]
    rfl
  | some a =>
    obtain ⟨-, heq⟩ | ⟨hnot, hlimit, s'', heq, htotal, hrest⟩ := callRound_request retryLimit env ha
    · rw [heq] at h
      cases h
    · rw [heq] at h
      cases h
      refine .inr ⟨a, rfl, hnot, hlimit, htotal, ?_, hrest⟩
      -- The request is counted with those of its endpoint or with the earlier ones.
      rw [s.sent_of_some ha]
      obtain ⟨hnone, hearlier⟩ | ⟨hsome, hearlier, -⟩ := hrest
      · rw [CallState.sent_of_none hnone, hearlier, requestsOf_cons]
        omega
      · rw [CallState.sent_of_some hsome, hearlier]
        rfl

theorem none_through_again (h : callRound retryLimit env s = .again s')
    (hs : ∀ i < s.sent, ¬ (env.outcome i).IsThrough) :
    ∀ i < s'.sent, ¬ (env.outcome i).IsThrough := by
  obtain ⟨-, -, -, -, hsent⟩ | ⟨a, -, hnot, -, -, hsent, -⟩ := callRound_again h
  · rwa [hsent]
  · rw [hsent]
    intro i hi
    rcases Nat.lt_succ_iff_lt_or_eq.1 hi with hlt | rfl
    · exact hs i hlt
    · exact hnot

def CounterSuffices (retryLimit : UInt16) (env : Surroundings R ε) : Prop :=
  retryLimit < 65535 ∨ ∃ j < 65536, (env.outcome j).IsThrough

/-- The counters hold the numbers of the failed requests, and these are within the limits. -/
structure Counts (retryLimit : UInt16) (env : Surroundings R ε) (s : CallState) : Prop where
  total_eq : s.totalRetryCount.toNat = s.sent
  sent_le : s.sent ≤ retryLimit.toNat
  none_through : ∀ i < s.sent, ¬ (env.outcome i).IsThrough
  of_attempt : ∀ a, s.attempt = some a →
    a.retryCount.toNat = a.requests ∧ a.requests ≤ a.endpoint.maxRetries.toNat
  of_earlier : ∀ e ∈ s.earlier, e.2 ≤ e.1.maxRetries.toNat + 1

theorem counts_start (retryLimit : UInt16) (env : Surroundings R ε) (pool : EndpointPool) :
    Counts retryLimit env ⟨pool, 0, none, [], 0⟩ where
  total_eq := rfl
  sent_le := Nat.zero_le _
  none_through i hi := absurd hi (Nat.not_lt_zero i)
  of_attempt a ha := by cases ha
  of_earlier e he := by cases he

theorem Counts.toNat_succ (h : Counts retryLimit env s) (hcounter : CounterSuffices retryLimit env)
    (hnot : ¬ (env.outcome s.sent).IsThrough) :
    (s.totalRetryCount + 1).toNat = s.sent + 1 ∧ s.sent + 1 < 2 ^ 16 := by
  have hlimit := retryLimit.toNat_lt
  have hle := h.sent_le
  have hlt : s.sent + 1 < 2 ^ 16 := by
    rcases hcounter with hlt | ⟨j, hj, hthrough⟩
    · have := UInt16.lt_iff_toNat_lt.1 hlt
      change retryLimit.toNat < 65535 at this
      omega
    · by_contra hge
      have hsent : j < s.sent ∨ j = s.sent := by omega
      rcases hsent with hlt | rfl
      · exact h.none_through j hlt hthrough
      · exact hnot hthrough
  rw [UInt16.toNat_add, h.total_eq]
  exact ⟨Nat.mod_eq_of_lt hlt, hlt⟩

theorem Counts.again (h : Counts retryLimit env s) (hcounter : CounterSuffices retryLimit env)
    (hagain : callRound retryLimit env s = .again s') : Counts retryLimit env s' := by
  have hthrough := none_through_again hagain h.none_through
  obtain ⟨hnone, ⟨ep, hep⟩, hearlier, htotal, hsent⟩ |
    ⟨a, ha, hnot, hlimit, htotal, hsent, hrest⟩ := callRound_again hagain
  · refine ⟨by rw [htotal, hsent, h.total_eq], hsent ▸ h.sent_le, hthrough, ?_,
      hearlier ▸ h.of_earlier⟩
    rw [hep]
    rintro a ⟨⟩
    exact ⟨rfl, Nat.zero_le _⟩
  · obtain ⟨hsucc, hlt⟩ := h.toNat_succ hcounter hnot
    obtain ⟨hcount, hmax⟩ := h.of_attempt a ha
    have hle : s'.sent ≤ retryLimit.toNat := by
      rw [UInt16.not_lt, UInt16.le_iff_toNat_le, hsucc] at hlimit
      rwa [hsent]
    have htotal' : s'.totalRetryCount.toNat = s'.sent := by rw [htotal, hsent, hsucc]
    obtain ⟨hnone, hearlier⟩ | ⟨hsome, hearlier, hretries⟩ := hrest
    · refine ⟨htotal', hle, hthrough, ?_, ?_⟩
      · rw [hnone]
        rintro a ⟨⟩
      · rw [hearlier]
        exact List.forall_mem_cons.2 ⟨Nat.succ_le_succ hmax, h.of_earlier⟩
    · refine ⟨htotal', hle, hthrough, ?_, hearlier ▸ h.of_earlier⟩
      -- An endpoint gets no more requests than the whole call.
      have hrequests : a.requests ≤ s.sent := by
        rw [s.sent_of_some ha]
        omega
      have hcount' : (a.retryCount + 1).toNat = a.requests + 1 := by
        rw [UInt32.toNat_add, hcount]
        exact Nat.mod_eq_of_lt (by simp only [UInt32.toNat_one]; omega)
      rw [UInt32.not_lt, UInt32.le_iff_toNat_le, hcount'] at hretries
      rw [hsome]
      rintro a ⟨⟩
      exact ⟨hcount', hretries⟩

end Rounds

section Budget

variable {R ε : Type}

structure WithinBudget (retryLimit : UInt16) (env : Surroundings R ε) (reply : Reply R ε) :
    Prop where
  requests_le : requestsOf reply.served ≤ retryLimit.toNat + 1
  per_selection : ∀ e ∈ reply.served, e.2 ≤ e.1.maxRetries.toNat + 1
  first_through : ∀ j ≤ retryLimit.toNat, (env.outcome j).IsThrough →
    (∀ i < j, ¬ (env.outcome i).IsThrough) →
    reply.result = (env.outcome j).result ∧ requestsOf reply.served = j + 1
  all_failed : (∀ j ≤ retryLimit.toNat, ¬ (env.outcome j).IsThrough) →
    reply.result = (env.outcome retryLimit.toNat).result ∧
      requestsOf reply.served = retryLimit.toNat + 1

variable {retryLimit : UInt16} {env : Surroundings R ε} {s : CallState} {reply : Reply R ε}

theorem Counts.withinBudget (h : Counts retryLimit env s)
    (hcounter : CounterSuffices retryLimit env)
    (hleave : callRound retryLimit env s = .leave (some reply)) :
    WithinBudget retryLimit env reply := by
  obtain ⟨a, ha, hreply, hend⟩ := callRound_leave hleave
  obtain rfl := Option.some.inj hreply
  have hrequests : requestsOf ((a.endpoint, a.requests + 1) :: s.earlier) = s.sent + 1 := by
    rw [requestsOf_cons, s.sent_of_some ha]
    omega
  have hle := h.sent_le
  refine ⟨hrequests.trans_le (Nat.succ_le_succ hle),
    List.forall_mem_cons.2 ⟨Nat.succ_le_succ (h.of_attempt a ha).2, h.of_earlier⟩, ?_, ?_⟩
  · intro j hj hthrough hfirst
    -- No earlier request passed through, and the limit is not used up before `j`.
    have hj' : j = s.sent := by
      have hge : ¬ j < s.sent := fun hlt ↦ h.none_through j hlt hthrough
      by_contra hne
      have hlt : s.sent < j := by omega
      obtain hend | ⟨hnot, hlimit⟩ := hend
      · exact hfirst s.sent hlt hend
      · rw [UInt16.lt_iff_toNat_lt, (h.toNat_succ hcounter hnot).1] at hlimit
        omega
    rw [hj']
    exact ⟨rfl, hrequests⟩
  · intro hall
    have hnot := hall s.sent hle
    obtain hend | ⟨-, hlimit⟩ := hend
    · exact absurd hend hnot
    · rw [UInt16.lt_iff_toNat_lt, (h.toNat_succ hcounter hnot).1] at hlimit
      have hlast : s.sent = retryLimit.toNat := by omega
      rw [← hlast]
      exact ⟨rfl, hrequests⟩

def roundsLeft (retryLimit : UInt16) (s : CallState) : ℕ :=
  2 * (retryLimit.toNat - s.sent) + if s.attempt.isNone then 1 else 0

theorem roundsLeft_lt {s' : CallState} (h : Counts retryLimit env s')
    (hagain : callRound retryLimit env s = .again s') :
    roundsLeft retryLimit s' < roundsLeft retryLimit s := by
  have hle := h.sent_le
  unfold roundsLeft
  obtain ⟨hnone, ⟨ep, hep⟩, -, -, hsent⟩ | ⟨a, ha, -, -, -, hsent, -⟩ := callRound_again hagain
  · rw [hnone, hep, hsent]
    exact Nat.lt_succ_self _
  · have hselect : (if s'.attempt.isNone then 1 else 0) ≤ 1 := by split_ifs <;> omega
    rw [ha]
    simp only [Option.isNone_some, Bool.false_eq_true, if_false]
    omega

theorem exists_call (hcounter : CounterSuffices retryLimit env) (pool : EndpointPool) :
    ∃ rounds reply, call retryLimit env pool rounds = some reply ∧
      WithinBudget retryLimit env reply := by
  have hstart := counts_start retryLimit env pool
  obtain ⟨t, r, hvisits, hcounts, hleave⟩ :=
    exists_leave_of_measure (roundsLeft retryLimit) hstart (Nat.lt_succ_self _) fun s s' h hagain ↦
      have h' := h.again hcounter hagain
      ⟨h', roundsLeft_lt h' hagain⟩
  obtain ⟨a, -, hreply, -⟩ := callRound_leave hleave
  obtain rfl := hreply
  exact ⟨_, _, hvisits.loop_eq hleave, hcounts.withinBudget hcounter hleave⟩

theorem exists_through_of_call {pool : EndpointPool} {rounds : ℕ}
    (h : call 65535 env pool rounds = some reply) :
    ∃ j, (env.outcome j).IsThrough ∧ (∀ i < j, ¬ (env.outcome i).IsThrough) ∧
      requestsOf reply.served = j + 1 := by
  obtain ⟨t, r, hvisits, hleave, heq⟩ | ⟨t, heq⟩ :=
    loop_cases (callRound 65535 env) (fun _ ↦ none) rounds ⟨pool, 0, none, [], 0⟩
  · have hthrough := hvisits.invariant (I := fun s ↦ ∀ i < s.sent, ¬ (env.outcome i).IsThrough)
      (fun i hi ↦ absurd hi (Nat.not_lt_zero i)) fun s s' hs hagain ↦ none_through_again hagain hs
    obtain ⟨a, ha, hreply, hend⟩ := callRound_leave hleave
    obtain rfl := Option.some.inj (h.symm.trans (heq.trans hreply))
    refine ⟨t.sent, ?_, hthrough, ?_⟩
    · obtain hend | ⟨-, hlimit⟩ := hend
      · exact hend
      · have hlt := (t.totalRetryCount + 1).toNat_lt
        have := UInt16.lt_iff_toNat_lt.1 hlimit
        change 65535 < (t.totalRetryCount + 1).toNat at this
        omega
    · rw [requestsOf_cons, t.sent_of_some ha]
      omega
  · cases h.symm.trans heq

/-- A call keeps to its budget, whatever becomes of its requests, exactly if its counter can hold
the failures: with the largest limit it wraps around, and the call goes on. -/
theorem call_withinBudget_iff (retryLimit : UInt16) (env : Surroundings R ε) (pool : EndpointPool) :
    (∃ rounds reply, call retryLimit env pool rounds = some reply ∧
      WithinBudget retryLimit env reply) ↔
    retryLimit < 65535 ∨ ∃ j < 65536, (env.outcome j).IsThrough := by
  refine ⟨?_, fun hcounter ↦ exists_call hcounter pool⟩
  rintro ⟨rounds, reply, hcall, hbudget⟩
  by_contra! hnot
  obtain ⟨hlimit, hnone⟩ := hnot
  obtain rfl : retryLimit = 65535 := by
    have hlt := retryLimit.toNat_lt
    have hge : 65535 ≤ retryLimit.toNat := UInt16.le_iff_toNat_le.1 (UInt16.not_lt.1 hlimit)
    refine UInt16.toNat_inj.1 (?_ : retryLimit.toNat = 65535)
    omega
  obtain ⟨j, hthrough, -, hrequests⟩ := exists_through_of_call hcall
  have hle := hbudget.requests_le
  have hj : 65536 ≤ j := by
    by_contra! hlt
    exact hnone j hlt hthrough
  change requestsOf reply.served ≤ 65536 at hle
  omega

end Budget

def brokenNode : Surroundings Unit (JsonRpcError Unit) where
  outcome _ := callMaybeRetry (.error .internalError)
  now i := i * 10 ^ 9
  draw _ := 0
  others _ := []

theorem call_withinBudget_brokenNode :
    ∃ rounds reply,
      call 128 brokenNode (.new EndpointPool.threeEndpoints) rounds = some reply ∧
      WithinBudget 128 brokenNode reply :=
  (call_withinBudget_iff 128 brokenNode (.new EndpointPool.threeEndpoints)).2 (.inl (by decide))

/-- After 65536 failed requests the counter is back at zero, and the call never ends. -/
theorem call_never_returns :
    ¬ ∃ rounds reply,
      call 65535 brokenNode (.new EndpointPool.threeEndpoints) rounds = some reply := by
  rintro ⟨rounds, reply, hcall⟩
  obtain ⟨j, hthrough, -⟩ := exists_through_of_call hcall
  exact hthrough

end Zaciraci.Rpc
