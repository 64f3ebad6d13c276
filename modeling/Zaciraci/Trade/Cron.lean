import Zaciraci.Lib.Loop
import Zaciraci.Units

namespace Zaciraci.Trade

open Lib

section Model

/-- What a job meets: the setting when each sleep begins, how much longer than asked for the sleep
is, and how long each `reload_to_config`, whose result is dropped, and each execution of the task
take. -/
structure CronEnv where
  cronMaxSleepSeconds : ℕ → ℕ
  overshoot : ℕ → ℕ
  reload : ℕ → ℕ
  duration : ℕ → ℕ

structure CronState where
  now : Time
  sleeps : ℕ
  executions : ℕ

/-- An execution, with the last sleep of the wait before it and its number. -/
structure Execution where
  tick : Time
  lastSleep : ℕ
  number : ℕ
  started : Time
  ended : Time

def CronEnv.maxSleep (env : CronEnv) (k : ℕ) : Time := env.cronMaxSleepSeconds k * 10 ^ 9

def sleepRound (env : CronEnv) (next : Time) (s : CronState) :
    Round (Option CronState) CronState :=
  if next ≤ s.now then .leave (some s)
  else
    let remaining := next - s.now
    .again
      { s with
        now := s.now + min remaining (env.maxSleep s.sleeps) + env.overshoot s.sleeps
        sleeps := s.sleeps + 1 }

/-- Without a limit of 0 the rounds are enough, as each takes at least a nanosecond. -/
def waitUntil (env : CronEnv) (next : Time) (s : CronState) : Option CronState :=
  loop (sleepRound env next) (fun _ ↦ none) ((next - s.now).toNat + 1) s

/-- The loop of `cronjob` over the ticks, and that of the maintenance. -/
def cronjob (env : CronEnv) : List Time → CronState → Option (List Execution)
  | [], _ => some []
  | next :: upcoming, s =>
    if next ≤ s.now then cronjob env upcoming s
    else do
      let s ← waitUntil env next s
      let started := s.now + env.reload s.executions
      let ended := started + env.duration s.executions
      let rest ← cronjob env upcoming ⟨ended, s.sleeps, s.executions + 1⟩
      some (⟨next, s.sleeps - 1, s.executions, started, ended⟩ :: rest)

end Model

section Wait

variable {env : CronEnv} {next : Time} {s : CronState}

/-- The wait ends, not before the tick and late by at most what its last sleep takes too long. -/
theorem waitUntil_eq (henv : ∀ k, 0 < env.cronMaxSleepSeconds k) (hs : s.now < next) :
    ∃ s', waitUntil env next s = some s' ∧ next ≤ s'.now ∧ s'.executions = s.executions ∧
      s.sleeps < s'.sleeps ∧ s'.now ≤ next + env.overshoot (s'.sleeps - 1) := by
  let Timely (t : CronState) : Prop := t.executions = s.executions ∧ s.sleeps ≤ t.sleeps ∧
    (next ≤ t.now → s.sleeps < t.sleeps ∧ t.now ≤ next + env.overshoot (t.sleeps - 1))
  obtain ⟨t, a, hvisits, htimely, hleave⟩ : ∃ t a,
      Visits (sleepRound env next) ((next - s.now).toNat + 1) s t ∧ Timely t ∧
        sleepRound env next t = .leave a := by
    apply exists_leave_of_measure fun t ↦ (next - t.now).toNat
    · exact ⟨rfl, le_rfl, fun h ↦ absurd h (not_le.2 hs)⟩
    · exact Nat.lt_succ_self _
    · rintro t t' ⟨hexecutions, hsleeps, -⟩ hround
      rw [sleepRound] at hround
      split_ifs at hround with hnext
      cases hround
      have hremaining : 0 < next - t.now := sub_pos.2 (not_le.1 hnext)
      have hsleep : 0 < min (next - t.now) (env.maxSleep t.sleeps) := by
        have hseconds := henv t.sleeps
        rw [CronEnv.maxSleep]
        exact lt_min hremaining (by positivity)
      have hshort := min_le_left (next - t.now) (env.maxSleep t.sleeps)
      have hovershoot : (0 : ℤ) ≤ env.overshoot t.sleeps := Int.natCast_nonneg _
      constructor
      · refine ⟨hexecutions, hsleeps.trans (Nat.le_succ _), fun _ ↦ ⟨Nat.lt_succ_of_le hsleeps, ?_⟩⟩
        dsimp only
        rw [Nat.add_sub_cancel]
        linarith
      · apply (Int.toNat_lt_toNat hremaining).2
        dsimp only
        linarith
  rw [sleepRound] at hleave
  split_ifs at hleave with hnext
  cases hleave
  refine ⟨t, hvisits.loop_eq ?_, hnext, htimely.1, htimely.2.2 hnext⟩
  rw [sleepRound, if_pos hnext]

end Wait

section Jobs

variable {env : CronEnv}

/-- The executions of a job that begins in `s`, with these ticks before it. -/
structure Schedules (env : CronEnv) (s : CronState) (ticks : List Time)
    (executions : List Execution) : Prop where
  inOrder : (executions.map Execution.tick).Sublist ticks
  started : ∀ e ∈ executions, e.tick ≤ e.started ∧
    e.started ≤ e.tick + env.overshoot e.lastSleep + env.reload e.number
  ended : ∀ e ∈ executions, e.started ≤ e.ended
  separate : executions.Pairwise fun a b ↦
    a.ended < b.tick ∧ a.lastSleep < b.lastSleep ∧ a.number < b.number
  after : ∀ e ∈ executions, s.now < e.tick ∧ s.sleeps ≤ e.lastSleep ∧ s.executions ≤ e.number
  skipped : ∀ tick ∈ ticks, tick ∈ executions.map Execution.tick ∨ tick ≤ s.now ∨
    ∃ e ∈ executions, e.tick < tick ∧ tick ≤ e.ended

/-- The job executes the ticks in their order, each at most once, never early and late by no more
than the last sleep before it overshoots and the reload of the configuration takes; an execution
ends before the tick of the next one; and a tick is skipped only if the job was not there yet or
still busy with an earlier one. -/
theorem cronjob_schedules (henv : ∀ k, 0 < env.cronMaxSleepSeconds k) {ticks : List Time}
    (hticks : ticks.Pairwise (· < ·)) (s : CronState) :
    ∃ executions, cronjob env ticks s = some executions ∧
      Schedules env s ticks executions := by
  induction ticks generalizing s with
  | nil => exact ⟨[], rfl, by constructor <;> simp⟩
  | cons next upcoming ih =>
    obtain ⟨hnext, hupcoming⟩ := List.pairwise_cons.1 hticks
    by_cases hpassed : next ≤ s.now
    · obtain ⟨executions, heq, h⟩ := ih hupcoming s
      refine ⟨executions, by rw [cronjob, if_pos hpassed, heq], ?_⟩
      exact
        { h with
          inOrder := h.inOrder.cons next
          skipped := by
            intro tick htick
            rcases List.mem_cons.1 htick with rfl | htick
            · exact .inr (.inl hpassed)
            · exact h.skipped tick htick }
    · -- ticks that pass while the task runs are skipped because of this execution
      obtain ⟨t, hwait, hreached, hexecutions, hsleeps, hlate⟩ :=
        waitUntil_eq henv (not_le.1 hpassed)
      let started := t.now + (env.reload t.executions : ℤ)
      let ended := started + (env.duration t.executions : ℤ)
      obtain ⟨rest, heq, h⟩ := ih hupcoming ⟨ended, t.sleeps, t.executions + 1⟩
      have hreload : t.now ≤ started := le_add_of_nonneg_right (Int.natCast_nonneg _)
      have hduration : started ≤ ended := le_add_of_nonneg_right (Int.natCast_nonneg _)
      refine ⟨⟨next, t.sleeps - 1, t.executions, started, ended⟩ :: rest, ?_, ?_⟩
      · rw [cronjob, if_neg hpassed, hwait, Option.bind_eq_bind, Option.bind_some]
        dsimp only
        rw [heq]
        rfl
      · constructor
        · exact h.inOrder.cons_cons next
        · refine List.forall_mem_cons.2 ⟨⟨hreached.trans hreload, ?_⟩, h.started⟩
          exact add_le_add_left hlate _
        · exact List.forall_mem_cons.2 ⟨hduration, h.ended⟩
        · refine List.pairwise_cons.2 ⟨fun e he ↦ ?_, h.separate⟩
          obtain ⟨hnow, hlast, hnumber⟩ := h.after e he
          exact ⟨hnow, (Nat.sub_lt (Nat.zero_lt_of_lt hsleeps) Nat.one_pos).trans_le hlast, hnumber⟩
        · refine List.forall_mem_cons.2
            ⟨⟨not_le.1 hpassed, Nat.le_sub_one_of_lt hsleeps, hexecutions.ge⟩, fun e he ↦ ?_⟩
          obtain ⟨hnow, hlast, hnumber⟩ := h.after e he
          refine ⟨?_, hsleeps.le.trans hlast, ?_⟩
          · calc
              s.now < next := not_le.1 hpassed
              _ ≤ t.now := hreached
              _ ≤ ended := hreload.trans hduration
              _ < e.tick := hnow
          · exact hexecutions ▸ (Nat.le_succ _).trans hnumber
        · intro tick htick
          rcases List.mem_cons.1 htick with rfl | htick
          · exact .inl List.mem_cons_self
          · rcases h.skipped tick htick with hmem | hle | ⟨e, he, hlt⟩
            · exact .inl (List.mem_cons_of_mem _ hmem)
            · exact .inr (.inr ⟨_, List.mem_cons_self, hnext tick htick, hle⟩)
            · exact .inr (.inr ⟨e, List.mem_cons_of_mem _ he, hlt⟩)

/-- A task that takes longer than the time between two ticks. -/
def slowTask : CronEnv := ⟨fun _ ↦ 60, fun _ ↦ 1, fun _ ↦ 2, fun _ ↦ 12⟩

theorem cronjob_schedules_slowTask :
    (∃ executions, cronjob slowTask [0, 10, 20, 30] ⟨5, 0, 0⟩ = some executions ∧
      Schedules slowTask ⟨5, 0, 0⟩ [0, 10, 20, 30] executions) ∧
    (cronjob slowTask [0, 10, 20, 30] ⟨5, 0, 0⟩).map (·.map fun e ↦ (e.tick, e.started)) =
      some [(10, 13), (30, 33)] :=
  ⟨cronjob_schedules (fun _ ↦ (by decide : 0 < 60)) (by decide) _, by decide⟩

end Jobs

end Zaciraci.Trade
