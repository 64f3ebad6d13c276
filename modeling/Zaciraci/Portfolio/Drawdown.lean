import Mathlib.Algebra.Order.Field.Basic
import Mathlib.Data.List.Induction
import Mathlib.Order.Bounds.Basic
import Mathlib.Tactic.FieldSimp
import Mathlib.Tactic.GCongr
import Mathlib.Tactic.NormNum

namespace Zaciraci

section Model

variable {K : Type} [Field K] [LinearOrder K]

structure Drawdown (K : Type) where
  peak : K
  maxDrawdown : K

/-- The body of the loop, which the optimiser and the report of the simulation share. -/
def Drawdown.next (s : Drawdown K) (value : K) : Drawdown K :=
  let peak := if s.peak < value then value else s.peak
  if 0 < peak then
    let drawdown := (peak - value) / peak
    ⟨peak, if s.maxDrawdown < drawdown then drawdown else s.maxDrawdown⟩
  else ⟨peak, s.maxDrawdown⟩

def Portfolio.calculateMaxDrawdown : List K → K
  | [] => 0
  | first :: rest => (rest.foldl Drawdown.next ⟨first, 0⟩).maxDrawdown

structure Simulate.PortfolioSnapshot (K : Type) where
  totalValueNear : K

/-- Unlike the optimiser's loop, this one visits the first value too. -/
def Simulate.calculateMaxDrawdown : List (PortfolioSnapshot K) → K
  | [] => 0
  | first :: rest =>
    ((first :: rest).foldl (fun s snapshot ↦ Drawdown.next s snapshot.totalValueNear)
      ⟨first.totalValueNear, 0⟩).maxDrawdown

def Portfolio.cumulativeValues (dailyReturns : List K) : List K :=
  dailyReturns.scanl (fun value r ↦ value * (1 + r)) 1

/-- The returns of the simulation. A step that begins with nothing has none. -/
def Simulate.periodReturns : K → List (PortfolioSnapshot K) → List K
  | _, [] => []
  | prevValue, snapshot :: snapshots =>
    let later := periodReturns snapshot.totalValueNear snapshots
    if 0 < prevValue then (snapshot.totalValueNear - prevValue) / prevValue :: later else later

end Model

namespace Portfolio

variable {K : Type} [Field K] {values : List K} {v w x d : K}

def falls (values : List K) : Set K :=
  {d | ∃ (i j : ℕ) (v w : K), i < j ∧ values[i]? = some v ∧ values[j]? = some w ∧
    d = (v - w) / v}

theorem falls_nil : falls ([] : List K) = ∅ := by
  refine Set.eq_empty_of_forall_notMem ?_
  rintro d ⟨i, j, v, w, -, hv, -⟩
  cases hv

theorem falls_cons (v : K) (values : List K) :
    falls (v :: values) = falls values ∪ {d | ∃ w ∈ values, d = (v - w) / v} := by
  ext d
  constructor
  · rintro ⟨i, j, u, w, hij, hu, hw, rfl⟩
    obtain ⟨j, rfl⟩ := Nat.exists_eq_add_one_of_ne_zero (Nat.ne_zero_of_lt hij)
    rw [List.getElem?_cons_succ] at hw
    cases i with
    | zero =>
      rw [List.getElem?_cons_zero, Option.some_inj] at hu
      exact .inr ⟨w, List.mem_of_getElem? hw, by rw [hu]⟩
    | succ i =>
      rw [List.getElem?_cons_succ] at hu
      exact .inl ⟨i, j, u, w, Nat.lt_of_succ_lt_succ hij, hu, hw, rfl⟩
  · rintro (⟨i, j, u, w, hij, hu, hw, rfl⟩ | ⟨w, hw, rfl⟩)
    · exact ⟨i + 1, j + 1, u, w, Nat.succ_lt_succ hij, hu, hw, rfl⟩
    · obtain ⟨j, hj⟩ := List.mem_iff_getElem?.1 hw
      exact ⟨0, j + 1, v, w, j.succ_pos, rfl, hj, rfl⟩

theorem falls_concat (values : List K) (x : K) :
    falls (values ++ [x]) = falls values ∪ {d | ∃ v ∈ values, d = (v - x) / v} := by
  induction values with
  | nil => simp [falls_cons]
  | cons v values ih =>
    have hfrom : {d | ∃ w ∈ values ++ [x], d = (v - w) / v} =
        {d | ∃ w ∈ values, d = (v - w) / v} ∪ {(v - x) / v} := by
      ext d
      simp [or_and_right, exists_or, or_comm]
    have hto : {d | ∃ u ∈ v :: values, d = (u - x) / u} =
        {(v - x) / v} ∪ {d | ∃ u ∈ values, d = (u - x) / u} := by
      ext d
      simp
    rw [List.cons_append, falls_cons, falls_cons, ih, hfrom, hto]
    ac_rfl

theorem falls_map_div {c : K} (hc : c ≠ 0) (values : List K) :
    falls (values.map (· / c)) = falls values := by
  induction values with
  | nil => rfl
  | cons v values ih =>
    rw [List.map_cons, falls_cons, falls_cons, ih]
    congr 1
    ext d
    simp [← sub_div, div_div_div_cancel_right₀ hc]

variable [LinearOrder K]

structure Tracks (values : List K) (s : Drawdown K) : Prop where
  peak : IsGreatest {v | v ∈ values} s.peak
  maxDrawdown : IsGreatest (insert 0 (falls values)) s.maxDrawdown

theorem tracks_singleton (v : K) : Tracks [v] ⟨v, 0⟩ := by
  constructor
  · simp [IsGreatest]
  · simp [falls_cons, falls_nil]

theorem next_eq {s : Drawdown K} (hpeak : 0 < s.peak) :
    s.next x = ⟨max s.peak x, max s.maxDrawdown ((max s.peak x - x) / max s.peak x)⟩ := by
  simp only [Drawdown.next, ← max_def_lt, if_pos (lt_max_of_lt_left hpeak)]

theorem next_first (v : K) : (⟨v, 0⟩ : Drawdown K).next v = ⟨v, 0⟩ := by
  simp [Drawdown.next]

theorem simulate_calculateMaxDrawdown_eq (snapshots : List (Simulate.PortfolioSnapshot K)) :
    Simulate.calculateMaxDrawdown snapshots =
      calculateMaxDrawdown (snapshots.map Simulate.PortfolioSnapshot.totalValueNear) := by
  cases snapshots with
  | nil => rfl
  | cons first rest =>
    rw [Simulate.calculateMaxDrawdown, List.foldl_cons, next_first, List.map_cons,
      calculateMaxDrawdown, List.foldl_map]

theorem scanl_periodReturns {c : K} (a : K) (hc : 0 < c)
    {snapshots : List (Simulate.PortfolioSnapshot K)}
    (hpos : ∀ snapshot ∈ snapshots, 0 < snapshot.totalValueNear) :
    (Simulate.periodReturns c snapshots).scanl (fun value r ↦ value * (1 + r)) a =
      (c :: snapshots.map Simulate.PortfolioSnapshot.totalValueNear).map (a * · / c) := by
  induction snapshots generalizing a c with
  | nil => simp [Simulate.periodReturns, hc.ne']
  | cons snapshot snapshots ih =>
    rw [List.forall_mem_cons] at hpos
    have hv := hpos.1.ne'
    have hfirst : a * (1 + (snapshot.totalValueNear - c) / c) =
        a * snapshot.totalValueNear / c := by
      field_simp
      rw [add_sub_cancel]
    have hscale : ∀ w, a * snapshot.totalValueNear / c * w / snapshot.totalValueNear =
        a * w / c := by
      intro w
      field_simp
    rw [Simulate.periodReturns, if_pos hc, List.scanl_cons, hfirst, ih _ hpos.1 hpos.2]
    refine congrArg₂ List.cons (mul_div_cancel_right₀ a hc.ne').symm ?_
    exact List.map_congr_left fun w _ ↦ hscale w

theorem cumulativeValues_periodReturns {c : K} (hc : 0 < c)
    {snapshots : List (Simulate.PortfolioSnapshot K)}
    (hpos : ∀ snapshot ∈ snapshots, 0 < snapshot.totalValueNear) :
    cumulativeValues (Simulate.periodReturns c snapshots) =
      (c :: snapshots.map Simulate.PortfolioSnapshot.totalValueNear).map (· / c) := by
  rw [cumulativeValues, scanl_periodReturns 1 hc hpos]
  simp only [one_mul]

variable [IsStrictOrderedRing K]

theorem fall_mono (hx : 0 ≤ x) (hv : 0 < v) (hvw : v ≤ w) : (v - x) / v ≤ (w - x) / w := by
  have hw : 0 < w := hv.trans_le hvw
  rw [sub_div, sub_div, div_self hv.ne', div_self hw.ne']
  gcongr

/-- Below the peak the deepest fall to a value is the one from the peak, and a new peak ends
only falls that are no falls at all. -/
theorem max_fall_eq {peak deepest : K} (hpeak : 0 < peak) (hdeepest : 0 ≤ deepest) :
    max deepest ((max peak x - x) / max peak x) = max deepest ((peak - x) / peak) := by
  obtain hle | hlt := le_or_gt x peak
  · rw [max_eq_left hle]
  · have hrise : (peak - x) / peak ≤ 0 :=
      div_nonpos_of_nonpos_of_nonneg (sub_nonpos.2 hlt.le) hpeak.le
    rw [max_eq_right hlt.le, sub_self, zero_div, max_eq_left hdeepest,
      max_eq_left (hrise.trans hdeepest)]

theorem Tracks.next {s : Drawdown K} (h : Tracks values s) (hpos : ∀ v ∈ values, 0 < v)
    (hx : 0 ≤ x) : Tracks (values ++ [x]) (s.next x) := by
  have hpeak : 0 < s.peak := hpos _ h.peak.1
  have hdeepest : 0 ≤ s.maxDrawdown := h.maxDrawdown.2 (Set.mem_insert 0 _)
  have hlast : IsGreatest {d | ∃ v ∈ values, d = (v - x) / v} ((s.peak - x) / s.peak) := by
    refine ⟨⟨s.peak, h.peak.1, rfl⟩, ?_⟩
    rintro d ⟨v, hv, rfl⟩
    exact fall_mono hx (hpos v hv) (h.peak.2 hv)
  rw [next_eq hpeak, max_fall_eq hpeak hdeepest]
  constructor
  · have hset : {v | v ∈ values ++ [x]} = {v | v ∈ values} ∪ {x} := by
      ext v
      simp [or_comm]
    rw [hset]
    exact h.peak.union isGreatest_singleton
  · rw [falls_concat, ← Set.insert_union]
    exact h.maxDrawdown.union hlast

theorem tracks_foldl {s : Drawdown K} {rest : List K} (h : Tracks values s)
    (hpos : ∀ v ∈ values ++ rest, 0 < v) :
    Tracks (values ++ rest) (rest.foldl Drawdown.next s) := by
  induction rest generalizing values s with
  | nil => rwa [List.append_nil]
  | cons x rest ih =>
    have hx : 0 ≤ x := (hpos x (by simp)).le
    have hstep := h.next (fun v hv ↦ hpos v (List.mem_append_left _ hv)) hx
    rw [List.append_cons] at hpos ⊢
    exact ih hstep hpos

theorem isGreatest_of_ne_nil (hne : values ≠ []) (hpos : ∀ v ∈ values, 0 < v) :
    IsGreatest (insert 0 (falls values)) (calculateMaxDrawdown values) := by
  cases values with
  | nil => exact absurd rfl hne
  | cons first rest => exact (tracks_foldl (tracks_singleton first) hpos).maxDrawdown

/-- The loop over the peaks finds the deepest fall between any two values, and the report of
the simulation gives the same as the optimiser. -/
theorem calculateMaxDrawdown_isGreatest (values : List K) (hne : values ≠ [])
    (hpos : ∀ v ∈ values, 0 < v) :
    IsGreatest (insert 0 (falls values)) (calculateMaxDrawdown values) ∧
      ∀ snapshots : List (Simulate.PortfolioSnapshot K),
        snapshots.map Simulate.PortfolioSnapshot.totalValueNear = values →
        Simulate.calculateMaxDrawdown snapshots = calculateMaxDrawdown values := by
  refine ⟨isGreatest_of_ne_nil hne hpos, ?_⟩
  rintro snapshots rfl
  exact simulate_calculateMaxDrawdown_eq snapshots

theorem calculateMaxDrawdown_ten_twelve_nine :
    calculateMaxDrawdown [(10 : ℚ), 12, 9, 15, 11] = 4 / 15 ∧
      IsGreatest (insert 0 (falls [(10 : ℚ), 12, 9, 15, 11]))
        (calculateMaxDrawdown [(10 : ℚ), 12, 9, 15, 11]) :=
  ⟨by decide +kernel, (calculateMaxDrawdown_isGreatest [10, 12, 9, 15, 11] (by simp)
    (by decide +kernel)).1⟩

section Report

open Simulate

variable {snapshots : List (PortfolioSnapshot K)} {c : K}

/-- The report does not count the fall from the capital at the start. It gives what the optimiser
gives for the returns of the simulation exactly if no such fall is deeper than the others. -/
theorem report_eq_backtest_iff (hne : snapshots ≠ []) (hc : 0 < c)
    (hpos : ∀ snapshot ∈ snapshots, 0 < snapshot.totalValueNear) :
    Simulate.calculateMaxDrawdown snapshots =
        calculateMaxDrawdown (cumulativeValues (periodReturns c snapshots)) ↔
      ∀ snapshot ∈ snapshots,
        (c - snapshot.totalValueNear) / c ≤ Simulate.calculateMaxDrawdown snapshots := by
  set values := snapshots.map PortfolioSnapshot.totalValueNear with hvalues
  have hvaluesPos : ∀ v ∈ values, 0 < v := by
    intro v hv
    obtain ⟨snapshot, hsnapshot, rfl⟩ := List.mem_map.1 hv
    exact hpos snapshot hsnapshot
  have hreport : IsGreatest (insert 0 (falls values))
      (Simulate.calculateMaxDrawdown snapshots) := by
    rw [simulate_calculateMaxDrawdown_eq]
    exact isGreatest_of_ne_nil (by simpa [hvalues] using hne) hvaluesPos
  have hbacktest : IsGreatest (insert 0 (falls (c :: values)))
      (calculateMaxDrawdown (cumulativeValues (periodReturns c snapshots))) := by
    rw [cumulativeValues_periodReturns hc hpos, ← falls_map_div hc.ne']
    refine isGreatest_of_ne_nil (by simp) fun v hv ↦ ?_
    obtain ⟨w, hw, rfl⟩ := List.mem_map.1 hv
    obtain rfl | hw := List.mem_cons.1 hw
    · exact div_pos hc hc
    · exact div_pos (hvaluesPos w hw) hc
  rw [falls_cons, ← Set.insert_union] at hbacktest
  constructor
  · intro heq snapshot hsnapshot
    rw [heq]
    exact hbacktest.2 (.inr ⟨_, List.mem_map_of_mem hsnapshot, rfl⟩)
  · intro hfalls
    refine IsGreatest.unique ⟨.inl hreport.1, ?_⟩ hbacktest
    rintro d (hd | ⟨w, hw, rfl⟩)
    · exact hreport.2 hd
    · obtain ⟨snapshot, hsnapshot, rfl⟩ := List.mem_map.1 hw
      exact hfalls snapshot hsnapshot

/-- A loss on the first day that is made good is a fall for the optimiser only. -/
theorem report_eq_backtest_iff_firstDay :
    Simulate.calculateMaxDrawdown [⟨(80 : ℚ)⟩, ⟨100⟩] ≠
      calculateMaxDrawdown (cumulativeValues (periodReturns 100 [⟨80⟩, ⟨100⟩])) := by
  intro heq
  have hfalls := (report_eq_backtest_iff (by simp) (by norm_num) (by simp)).1 heq
  exact absurd (hfalls ⟨80⟩ (by simp)) (by decide +kernel)

end Report

end Portfolio

end Zaciraci
