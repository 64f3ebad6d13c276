import Zaciraci.Auth.Jwks

namespace Zaciraci.Auth

variable {Key : Type} {fromRsaComponents : String → String → Option Key}

/-- The task goes on less than fifty milliseconds after the end of a sleep. -/
def schedulingDelay : ℕ := 50 * 10 ^ 6

namespace RefreshTask

/-- What the task does from one refresh to the start of the next. -/
inductive Wait : RefreshTask Key → RefreshTask Key → Prop
  | check {task : RefreshTask Key} : task.phase = .checking → Wait task task.check
  | sleep {task : RefreshTask Key} {wakeAt now : ℕ} : task.phase = .sleeping wakeAt →
      task.now ≤ now → now < wakeAt + schedulingDelay → Wait task { task with now }
  | wake {task : RefreshTask Key} {wakeAt : ℕ} : task.phase = .sleeping wakeAt →
      wakeAt ≤ task.now → Wait task { task with phase := .checking }

abbrev Waits : RefreshTask Key → RefreshTask Key → Prop := Relation.ReflTransGen Wait

/-- A run in which every fetch succeeds. -/
inductive Succeeds (fromRsaComponents : String → String → Option Key) :
    RefreshTask Key → RefreshTask Key → Prop
  | wait {task task' : RefreshTask Key} : Wait task task' → Succeeds fromRsaComponents task task'
  | fetch {task : RefreshTask Key} {startedAt now : ℕ} : task.phase = .fetching startedAt →
      task.now ≤ now → now ≤ startedAt + jwksHttpTimeout →
      Succeeds fromRsaComponents task { task with now }
  | finish {task : RefreshTask Key} {startedAt ttl : ℕ} {response : JwksResponse}
      {snapshot : CachedJwks Key} : task.phase = .fetching startedAt →
      refreshOnce fromRsaComponents (.ok response) task.now = .ok (ttl, snapshot) →
      Succeeds fromRsaComponents task (task.finish fromRsaComponents (.ok response))

/-- However the task waits, a refresh starts before `expires`. -/
def RefreshesBefore (expires : ℕ) (task : RefreshTask Key) : Prop :=
  ∀ task', Waits task task' → task'.now < expires ∧
    ∃ next startedAt, Waits task' next ∧ next.phase = .fetching startedAt

theorem parseMaxAge_eq_some {header : Option Lib.HeaderValue} {maxAge : ℕ}
    (h : parseMaxAge header = some maxAge) : ∃ secs, maxAge = fromSecs secs := by
  obtain ⟨value, -, hvalue⟩ := Option.bind_eq_some_iff.1 h
  obtain ⟨directive, -, hdirective⟩ := List.exists_of_findSome?_eq_some hvalue
  obtain ⟨rest, -, hrest⟩ := Option.bind_eq_some_iff.1 hdirective
  obtain ⟨secs, -, hsecs⟩ := Option.bind_eq_some_iff.1 hrest
  exact ⟨secs, (Option.some_inj.1 hsecs).symm⟩

theorem clampTtl_fromSecs (secs : ℕ) :
    clampTtl (fromSecs secs) = fromSecs (max 60 (min secs 86400)) := by
  simp only [clampTtl, minJwksTtl, maxJwksTtl, fromSecs]
  omega

theorem refreshOnce_ttl {response : JwksResponse} {now ttl : ℕ} {snapshot : CachedJwks Key}
    (h : refreshOnce fromRsaComponents (.ok response) now = .ok (ttl, snapshot)) :
    ∃ secs, ttl = fromSecs secs ∧ 60 ≤ secs ∧ secs ≤ 86400 := by
  obtain ⟨⟨_, hresponse, rfl⟩, -⟩ := refreshOnce_eq_ok h
  obtain ⟨secs, hsecs⟩ : ∃ secs,
      (parseMaxAge response.cacheControl).getD defaultTtl = fromSecs secs := by
    cases hparse : parseMaxAge response.cacheControl with
    | none => exact ⟨3600, rfl⟩
    | some maxAge => exact parseMaxAge_eq_some hparse
  cases hresponse
  exact ⟨max 60 (min secs 86400), by rw [hsecs, clampTtl_fromSecs], by omega, by omega⟩

section Schedule

variable {secs t : ℕ} {task task' : RefreshTask Key}

def dueAt (t secs : ℕ) : ℕ := t + secs * (9 * 10 ^ 8)

/-- A moment shortly after the refresh is due, or, if the cut seconds hide that it is, one poll
later. -/
def Due (t secs lateness now : ℕ) : Prop :=
  dueAt t secs ≤ now ∧ now < dueAt t secs + lateness ∨
    ¬10 ∣ secs ∧ dueAt t secs + refreshCheckInterval ≤ now ∧
      now < dueAt t secs + refreshCheckInterval + (lateness + schedulingDelay)

structure Scheduled (t secs : ℕ) (task : RefreshTask Key) : Prop where
  fetchedAt : task.cached.fetchedAt = some t
  expiresAt : task.cached.expiresAt = some (t + fromSecs secs)
  phase : match task.phase with
    | .checking => Due t secs schedulingDelay task.now
    | .sleeping wakeAt => task.now < wakeAt + schedulingDelay ∧ Due t secs 1 wakeAt
    | .fetching _ => Due t secs schedulingDelay task.now

theorem needsRefresh_iff {cached : CachedJwks Key} {now : ℕ} (hfetched : cached.fetchedAt = some t)
    (hexpires : cached.expiresAt = some (t + fromSecs secs)) (hsecs : secs ≤ 86400) :
    cached.needsRefresh now = true ↔ 9 * secs ≤ 10 * ((now - t) / 10 ^ 9) := by
  simp only [CachedJwks.needsRefresh, hfetched, hexpires, Nat.add_sub_cancel_left,
    saturatingMulU64, asSecs, fromSecs, refreshNum, refreshDen, decide_eq_true_eq]
  omega

theorem Due.wake {wakeAt now : ℕ} (h : Due t secs 1 wakeAt) (hwake : wakeAt ≤ now)
    (hlate : now < wakeAt + schedulingDelay) : Due t secs schedulingDelay now := by
  rw [Due] at *
  omega

/-- The elapsed time is cut to whole seconds, which hides that a refresh is due unless it falls
on a whole second. The next poll finds it. -/
theorem Due.poll {now : ℕ} (h : Due t secs schedulingDelay now)
    (hcheck : ¬9 * secs ≤ 10 * ((now - t) / 10 ^ 9)) :
    Due t secs 1 (now + refreshCheckInterval) := by
  simp only [Due, dueAt, schedulingDelay, refreshCheckInterval, fromSecs] at *
  omega

theorem Due.lt_expires {now : ℕ} (h : Due t secs schedulingDelay now) (hmin : 60 ≤ secs)
    (hsecs : 10 ∣ secs ∨ 300 < secs) : now < t + fromSecs secs := by
  simp only [Due, dueAt, schedulingDelay, refreshCheckInterval, fromSecs] at *
  omega

theorem Scheduled.now_lt (h : Scheduled t secs task) (hmin : 60 ≤ secs)
    (hsecs : 10 ∣ secs ∨ 300 < secs) : task.now < t + fromSecs secs := by
  have hphase := h.phase
  split at hphase
  · exact hphase.lt_expires hmin hsecs
  · next wakeAt _ =>
    obtain ⟨hlate, hdue⟩ := hphase
    obtain hle | hlt := Nat.le_total wakeAt task.now
    · exact (hdue.wake hle hlate).lt_expires hmin hsecs
    · have hwake := hdue.wake le_rfl (Nat.lt_add_of_pos_right (by decide))
      exact hlt.trans_lt (hwake.lt_expires hmin hsecs)
  · exact hphase.lt_expires hmin hsecs

theorem Scheduled.step (h : Scheduled t secs task) (hmax : secs ≤ 86400)
    (hstep : Wait task task') : Scheduled t secs task' := by
  have hphase := h.phase
  cases hstep with
  | check hp =>
    rw [hp] at hphase
    rw [check]
    split_ifs with hrefresh
    · exact ⟨h.fetchedAt, h.expiresAt, hphase⟩
    · rw [needsRefresh_iff h.fetchedAt h.expiresAt hmax] at hrefresh
      refine ⟨h.fetchedAt, h.expiresAt, ?_, hphase.poll hrefresh⟩
      rw [Nat.add_assoc]
      exact Nat.lt_add_of_pos_right (by decide)
  | sleep hp hle hlate =>
    rw [hp] at hphase
    refine ⟨h.fetchedAt, h.expiresAt, ?_⟩
    simp only [hp]
    exact ⟨hlate, hphase.2⟩
  | wake hp hwake =>
    rw [hp] at hphase
    exact ⟨h.fetchedAt, h.expiresAt, hphase.2.wake hwake hphase.1⟩

theorem Scheduled.waits (h : Scheduled t secs task) (hmax : secs ≤ 86400)
    (hwaits : Waits task task') : Scheduled t secs task' := by
  induction hwaits with
  | refl => exact h
  | tail _ hstep ih => exact ih.step hmax hstep

theorem waits_wake (task : RefreshTask Key) {wakeAt : ℕ} (hphase : task.phase = .sleeping wakeAt)
    (hle : task.now ≤ wakeAt) :
    Waits task { task with now := wakeAt, phase := .checking } := by
  have hsleep : Wait task { task with now := wakeAt } :=
    .sleep hphase hle (Nat.lt_add_of_pos_right (by decide))
  have hwake : Wait { task with now := wakeAt }
      { task with now := wakeAt, phase := .checking } := .wake hphase le_rfl
  exact (Relation.ReflTransGen.single hsleep).tail hwake

theorem waits_poll (task : RefreshTask Key) (hphase : task.phase = .checking)
    (hrefresh : ¬task.cached.needsRefresh task.now = true) :
    Waits task { task with now := task.now + refreshCheckInterval, phase := .checking } := by
  have hcheck : Wait task
      { task with phase := .sleeping (task.now + refreshCheckInterval) } := by
    have hstep := Wait.check hphase
    rwa [check, if_neg hrefresh] at hstep
  exact (Relation.ReflTransGen.single hcheck).trans (waits_wake _ rfl (Nat.le_add_right _ _))

theorem exists_fetching_of_checking {expires : ℕ} (n : ℕ) (hphase : task.phase = .checking)
    (hexpires : task.cached.expiresAt = some expires)
    (hn : expires ≤ task.now + n * refreshCheckInterval) :
    ∃ next startedAt, Waits task next ∧ next.phase = .fetching startedAt := by
  induction n generalizing task with
  | zero =>
    have hrefresh : task.cached.needsRefresh task.now = true := by
      by_contra hnot
      obtain ⟨expires', hexpires', hlt⟩ := lt_expires_of_not_needsRefresh (by simpa using hnot)
      rw [hexpires, Option.some_inj] at hexpires'
      omega
    refine ⟨task.check, task.now, .single (.check hphase), ?_⟩
    rw [check, if_pos hrefresh]
  | succ n ih =>
    by_cases hrefresh : task.cached.needsRefresh task.now = true
    · refine ⟨task.check, task.now, .single (.check hphase), ?_⟩
      rw [check, if_pos hrefresh]
    · have hpoll := waits_poll task hphase hrefresh
      obtain ⟨next, startedAt, hnext, hfetching⟩ :=
        @ih { task with now := task.now + refreshCheckInterval, phase := .checking } rfl hexpires
          (by rw [Nat.succ_mul] at hn; dsimp only; omega)
      exact ⟨next, startedAt, hpoll.trans hnext, hfetching⟩

theorem exists_fetching {expires : ℕ} (hexpires : task.cached.expiresAt = some expires) :
    ∃ next startedAt, Waits task next ∧ next.phase = .fetching startedAt := by
  have hchecking (task : RefreshTask Key) (hphase : task.phase = .checking)
      (hexpires : task.cached.expiresAt = some expires) :
      ∃ next startedAt, Waits task next ∧ next.phase = .fetching startedAt :=
    exists_fetching_of_checking expires hphase hexpires
      ((Nat.le_mul_of_pos_right expires (by decide)).trans (Nat.le_add_left _ _))
  cases hphase : task.phase with
  | fetching startedAt => exact ⟨task, startedAt, .refl, hphase⟩
  | checking => exact hchecking task hphase hexpires
  | sleeping wakeAt =>
    obtain hle | hle := Nat.le_total task.now wakeAt
    · obtain ⟨next, startedAt, hnext, hfetching⟩ :=
        hchecking { task with now := wakeAt, phase := .checking } rfl hexpires
      exact ⟨next, startedAt, (waits_wake task hphase hle).trans hnext, hfetching⟩
    · obtain ⟨next, startedAt, hnext, hfetching⟩ :=
        hchecking { task with phase := .checking } rfl hexpires
      exact ⟨next, startedAt, (Relation.ReflTransGen.single (.wake hphase hle)).trans hnext,
        hfetching⟩

variable {response : JwksResponse} {snapshot : CachedJwks Key}

theorem finish_eq (hmin : 60 ≤ secs)
    (h : refreshOnce fromRsaComponents (.ok response) task.now = .ok (fromSecs secs, snapshot)) :
    task.finish fromRsaComponents (.ok response) =
      { task with
        cached := snapshot
        phase := .sleeping (dueAt task.now secs)
        backoff := minRetryBackoff } := by
  have hsleep : max (fromSecs secs * refreshNum / refreshDen) minRefreshSleep =
      secs * (9 * 10 ^ 8) := by
    simp only [fromSecs, refreshNum, refreshDen, minRefreshSleep]
    omega
  rw [finish, h]
  simp only [hsleep, dueAt]

theorem scheduled_finish (hmin : 60 ≤ secs)
    (h : refreshOnce fromRsaComponents (.ok response) task.now = .ok (fromSecs secs, snapshot)) :
    Scheduled task.now secs (task.finish fromRsaComponents (.ok response)) := by
  obtain ⟨-, hfetched, hexpires⟩ := refreshOnce_eq_ok h
  rw [finish_eq hmin h]
  refine ⟨hfetched, hexpires, ?_, Or.inl ⟨le_rfl, Nat.lt_succ_self _⟩⟩
  exact (Nat.le_add_right _ _).trans_lt (Nat.lt_add_of_pos_right (by decide))

theorem not_refreshesBefore (hmin : 60 ≤ secs) (hmax : secs ≤ 86400)
    (h : refreshOnce fromRsaComponents (.ok response) task.now = .ok (fromSecs secs, snapshot))
    (hsecs : ¬(10 ∣ secs ∨ 300 < secs)) :
    ¬(task.finish fromRsaComponents (.ok response)).RefreshesBefore
      (task.now + fromSecs secs) := by
  intro hbefore
  obtain ⟨-, hfetched, hexpires⟩ := refreshOnce_eq_ok h
  rw [finish_eq hmin h] at hbefore
  have hrefresh : ¬snapshot.needsRefresh (dueAt task.now secs) = true := by
    have helapsed : secs * (9 * 10 ^ 8) / 10 ^ 9 = secs * 9 / 10 := by
      rw [Nat.pow_succ' (n := 8), ← Nat.mul_assoc, Nat.mul_div_mul_right _ _ (by decide)]
    rw [needsRefresh_iff hfetched hexpires hmax, dueAt, Nat.add_sub_cancel_left, helapsed]
    omega
  have hdue := waits_wake { task with
    cached := snapshot
    phase := .sleeping (dueAt task.now secs)
    backoff := minRetryBackoff } rfl (Nat.le_add_right _ _)
  have hlate := (hbefore _ (hdue.trans (waits_poll _ rfl hrefresh))).1
  simp only [dueAt, refreshCheckInterval, fromSecs] at hlate
  omega

/-- The next refresh starts before the keys expire exactly if a tenth of their time to live is a
whole number of seconds or longer than a poll. -/
theorem refreshesBefore_expiry_iff (task : RefreshTask Key) (response : JwksResponse) (ttl : ℕ)
    (snapshot : CachedJwks Key)
    (h : refreshOnce fromRsaComponents (.ok response) task.now = .ok (ttl, snapshot)) :
    ∃ secs, ttl = fromSecs secs ∧ 60 ≤ secs ∧ secs ≤ 86400 ∧
      snapshot.expiresAt = some (task.now + fromSecs secs) ∧
      ((task.finish fromRsaComponents (.ok response)).RefreshesBefore (task.now + fromSecs secs) ↔
        10 ∣ secs ∨ 300 < secs) := by
  obtain ⟨secs, rfl, hmin, hmax⟩ := refreshOnce_ttl h
  refine ⟨secs, rfl, hmin, hmax, (refreshOnce_eq_ok h).2.2, ?_, fun hsecs task' hwaits ↦ ?_⟩
  · contrapose!
    intro hsecs
    exact not_refreshesBefore hmin hmax h (by simpa using hsecs)
  · have hscheduled := (scheduled_finish hmin h).waits hmax hwaits
    exact ⟨hscheduled.now_lt hmin hsecs, exists_fetching hscheduled.expiresAt⟩

theorem refreshesBefore_expiry_hundredSeconds :
    ((hundredSecondsTask 90 (.fetching (fromSecs 90)) 30).finish modulus
      (.ok hundredSeconds)).RefreshesBefore (fromSecs 190) := by
  obtain ⟨secs, hsecs, -, -, -, hiff⟩ := refreshesBefore_expiry_iff
    (hundredSecondsTask 90 (.fetching (fromSecs 90)) 30) hundredSeconds (fromSecs 100) _ rfl
  obtain rfl : secs = 100 := Nat.eq_of_mul_eq_mul_right (by decide) hsecs.symm
  exact hiff.2 (Or.inl (by decide))

def sixtyOneSeconds : JwksResponse where
  cacheControl := some ("max-age=61".toList.map fun c ↦ c.toNat.toUInt8)
  contentLength := none
  body := .ok [⟨"k", some "RS256", "n", "e"⟩]

def sixtyOneSecondsTask (now fetched : ℕ) (phase : RefreshPhase) : RefreshTask String where
  now := now * 10 ^ 6
  cached := ⟨Lib.SortedMap.empty.insert "k" "n", some (fetched * 10 ^ 6),
    some (fetched * 10 ^ 6 + fromSecs 61)⟩
  phase
  backoff := minRetryBackoff

/-- The task refreshes after a minute, and then not before its keys have expired: the check after
54.9 seconds counts 54, and the next one comes after 84.9. -/
theorem sixtyOneSeconds_late :
    let refreshed := (sixtyOneSecondsTask 60000 0 (.fetching (fromSecs 60))).finish modulus
      (.ok sixtyOneSeconds)
    let late := sixtyOneSecondsTask 144900 60000 (.fetching (144900 * 10 ^ 6))
    Relation.ReflTransGen (Succeeds modulus) (spawn modulus (.ok sixtyOneSeconds) 0) refreshed ∧
      Waits refreshed late ∧ refreshed.cached.expiresAt = some (fromSecs 121) ∧
      fromSecs 121 < 144900 * 10 ^ 6 := by
  intro refreshed late
  have hpolls : Waits (spawn modulus (.ok sixtyOneSeconds) 0)
      (sixtyOneSecondsTask 60000 0 .checking) :=
    (waits_poll (sixtyOneSecondsTask 0 0 .checking) rfl (by decide)).trans
      (waits_poll (sixtyOneSecondsTask 30000 0 .checking) rfl (by decide))
  have hcheck : Wait (sixtyOneSecondsTask 60000 0 .checking)
      (sixtyOneSecondsTask 60000 0 (.fetching (fromSecs 60))) := .check rfl
  have hwaited : Relation.ReflTransGen (Succeeds modulus) (spawn modulus (.ok sixtyOneSeconds) 0)
      (sixtyOneSecondsTask 60000 0 (.fetching (fromSecs 60))) :=
    Relation.ReflTransGen.mono (fun _ _ h ↦ Succeeds.wait h) _ _ (hpolls.tail hcheck)
  have hfinish : Succeeds modulus (sixtyOneSecondsTask 60000 0 (.fetching (fromSecs 60)))
      refreshed := .finish rfl rfl
  have hdue : Waits refreshed (sixtyOneSecondsTask 114900 60000 .checking) :=
    waits_wake refreshed rfl (by decide)
  have hpoll : Waits (sixtyOneSecondsTask 114900 60000 .checking)
      (sixtyOneSecondsTask 144900 60000 .checking) := waits_poll _ rfl (by decide)
  have hlate : Wait (sixtyOneSecondsTask 144900 60000 .checking) late := .check rfl
  refine ⟨hwaited.tail hfinish, (hdue.trans hpoll).tail hlate, rfl, by decide⟩

end Schedule

end RefreshTask

end Zaciraci.Auth
