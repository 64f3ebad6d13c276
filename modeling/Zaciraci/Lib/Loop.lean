import Mathlib.Logic.Function.Iterate
import Mathlib.Order.Basic

namespace Zaciraci.Lib

variable {α σ : Type}

inductive Round (α σ : Type)
  | leave (value : α)
  | again (state : σ)

def loop (round : σ → Round α σ) (otherwise : σ → α) : ℕ → σ → α
  | 0, s => otherwise s
  | k + 1, s =>
    match round s with
    | .leave a => a
    | .again s' => loop round otherwise k s'

inductive Visits (round : σ → Round α σ) : ℕ → σ → σ → Prop
  | here (k : ℕ) (s : σ) : Visits round (k + 1) s s
  | there {k : ℕ} {s s' t : σ} : round s = .again s' → Visits round k s' t →
      Visits round (k + 1) s t

section Rules

variable {round : σ → Round α σ} {otherwise : σ → α} {k : ℕ} {s t : σ} {a : α}

theorem loop_of_leave (h : round s = .leave a) : loop round otherwise (k + 1) s = a := by
  rw [loop, h]

theorem loop_of_again (h : round s = .again t) :
    loop round otherwise (k + 1) s = loop round otherwise k t := by
  rw [loop, h]

theorem Visits.loop_eq (h : Visits round k s t) (ht : round t = .leave a) :
    loop round otherwise k s = a := by
  induction h with
  | here k s => exact loop_of_leave ht
  | there hstep _ ih => rw [loop_of_again hstep, ih ht]

theorem Visits.invariant {I : σ → Prop} (h : Visits round k s t) (hs : I s)
    (hagain : ∀ s s', I s → round s = .again s' → I s') : I t := by
  induction h with
  | here => exact hs
  | there hstep _ ih => exact ih (hagain _ _ hs hstep)

theorem loop_cases (round : σ → Round α σ) (otherwise : σ → α) (k : ℕ) (s : σ) :
    (∃ t a, Visits round k s t ∧ round t = .leave a ∧ loop round otherwise k s = a) ∨
      ∃ t, loop round otherwise k s = otherwise t := by
  induction k generalizing s with
  | zero => exact .inr ⟨s, rfl⟩
  | succ k ih =>
    cases hs : round s with
    | leave a => exact .inl ⟨s, a, .here k s, hs, loop_of_leave hs⟩
    | again s' =>
      rw [loop_of_again hs]
      obtain ⟨t, a, hvisits, hleave, heq⟩ | ⟨t, heq⟩ := ih s'
      · exact .inl ⟨t, a, .there hs hvisits, hleave, heq⟩
      · exact .inr ⟨t, heq⟩

theorem loop_induct {I : σ → Prop} {P : α → Prop} (hs : I s)
    (hleave : ∀ s a, I s → round s = .leave a → P a)
    (hagain : ∀ s s', I s → round s = .again s' → I s')
    (hend : ∀ s, I s → P (otherwise s)) : P (loop round otherwise k s) := by
  induction k generalizing s with
  | zero => exact hend s hs
  | succ k ih =>
    cases hround : round s with
    | leave a =>
      rw [loop_of_leave hround]
      exact hleave s a hs hround
    | again s' =>
      rw [loop_of_again hround]
      exact ih (hagain s s' hs hround)

theorem exists_leave_of_measure {I : σ → Prop} (μ : σ → ℕ) (hs : I s) (hμ : μ s < k)
    (hagain : ∀ s s', I s → round s = .again s' → I s' ∧ μ s' < μ s) :
    ∃ t a, Visits round k s t ∧ I t ∧ round t = .leave a := by
  induction k generalizing s with
  | zero => exact absurd hμ (Nat.not_lt_zero _)
  | succ k ih =>
    cases hround : round s with
    | leave a => exact ⟨s, a, .here k s, hs, hround⟩
    | again s' =>
      obtain ⟨hs', hlt⟩ := hagain s s' hs hround
      obtain ⟨t, a, hvisits, hrest⟩ := ih hs' (Nat.lt_of_lt_of_le hlt (Nat.lt_succ_iff.1 hμ))
      exact ⟨t, a, .there hround hvisits, hrest⟩

theorem exists_leave_of_iterate {f : σ → σ}
    (hround : ∀ s, (∃ a, round s = .leave a) ∨ round s = .again (f s)) {i : ℕ} (hi : i < k)
    (hleave : ∃ a, round (f^[i] s) = .leave a) :
    ∃ j ≤ i, ∃ a, Visits round k s (f^[j] s) ∧ round (f^[j] s) = .leave a := by
  induction i generalizing s k with
  | zero =>
    obtain ⟨a, ha⟩ := hleave
    obtain ⟨k, rfl⟩ := Nat.exists_eq_add_one.2 hi
    exact ⟨0, Nat.le_refl 0, a, .here k s, ha⟩
  | succ i ih =>
    obtain ⟨k, rfl⟩ := Nat.exists_eq_add_one.2 (Nat.lt_trans i.succ_pos hi)
    obtain ⟨a, ha⟩ | hagain := hround s
    · exact ⟨0, Nat.zero_le _, a, .here k s, ha⟩
    · obtain ⟨j, hj, a, hvisits, ha⟩ := ih (Nat.lt_of_succ_lt_succ hi) hleave
      exact ⟨j + 1, Nat.succ_le_succ hj, a, .there hagain hvisits, ha⟩

end Rules

theorem foldl_range_reverse {step : σ → ℕ → σ} {I : ℕ → σ → Prop} {n : ℕ} {s : σ} (hs : I n s)
    (hstep : ∀ i < n, ∀ s, I (i + 1) s → I i (step s i)) :
    I 0 ((List.range n).reverse.foldl step s) := by
  induction n generalizing s with
  | zero => exact hs
  | succ n ih =>
    rw [List.range_succ, List.reverse_append, List.reverse_singleton, List.singleton_append,
      List.foldl_cons]
    exact ih (hstep n n.lt_succ_self s hs) fun i hi ↦ hstep i (Nat.lt_succ_of_lt hi)

section Simulation

variable {β τ : Type} {round : σ → Round α σ} {round' : τ → Round β τ} {otherwise : σ → α}
  {otherwise' : τ → β} {R : σ → τ → Prop} {P : α → β → Prop}

inductive Round.Related (P : α → β → Prop) (R : σ → τ → Prop) : Round α σ → Round β τ → Prop
  | leave {a : α} {b : β} : P a b → Related P R (.leave a) (.leave b)
  | again {s : σ} {t : τ} : R s t → Related P R (.again s) (.again t)

theorem loop_related (hround : ∀ s t, R s t → Round.Related P R (round s) (round' t))
    (hend : ∀ s t, R s t → P (otherwise s) (otherwise' t)) {k : ℕ} {s : σ} {t : τ} (h : R s t) :
    P (loop round otherwise k s) (loop round' otherwise' k t) := by
  induction k generalizing s t with
  | zero => exact hend s t h
  | succ k ih =>
    have hst := hround s t h
    rw [loop, loop]
    generalize round s = r at hst ⊢
    generalize round' t = r' at hst ⊢
    cases hst with
    | leave hp => exact hp
    | again hr => exact ih hr

end Simulation

section Iterators

variable {next : σ → Option α × σ}

/-- What an iterator yields until it first yields nothing. -/
inductive Drains (next : σ → Option α × σ) : σ → List α → Prop
  | done {s : σ} : (next s).1 = none → Drains next s []
  | item {s s' : σ} {a : α} {rest : List α} : next s = (some a, s') → Drains next s' rest →
      Drains next s (a :: rest)

def items (next : σ → Option α × σ) : ℕ → σ → List α
  | 0, _ => []
  | k + 1, s =>
    match next s with
    | (none, _) => []
    | (some a, s') => a :: items next k s'

theorem Drains.items_eq {s : σ} {xs : List α} {k : ℕ} (h : Drains next s xs)
    (hk : xs.length < k) : items next k s = xs := by
  induction h generalizing k with
  | @done s hnone =>
    cases k with
    | zero => rfl
    | succ k =>
      rw [items]
      split
      · rfl
      · rename_i hsome
        rw [hsome] at hnone
        cases hnone
  | item hsome _ ih =>
    cases k with
    | zero => exact absurd hk (Nat.not_lt_zero _)
    | succ k =>
      rw [items, hsome]
      exact congrArg _ (ih (Nat.lt_of_succ_lt_succ hk))

end Iterators

end Zaciraci.Lib
