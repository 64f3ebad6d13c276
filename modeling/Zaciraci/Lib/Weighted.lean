import Mathlib.Algebra.GroupWithZero.Nat

namespace Zaciraci.Lib

variable {α ω : Type}

/-- The walk over the weights that takes the first element whose weight exceeds what is left of the
number. -/
def pick [LT ω] [DecidableLT ω] [Sub ω] (weight : α → ω) : List α → ω → Option α
  | [], _ => none
  | a :: rest, r => if r < weight a then some a else pick weight rest (r - weight a)

theorem pick_hom [LT ω] [DecidableLT ω] [Sub ω] {weight : α → ω} (φ : ω → ℕ)
    (hlt : ∀ a b, a < b ↔ φ a < φ b) (hsub : ∀ a b, ¬ a < b → φ (a - b) = φ a - φ b)
    (l : List α) (r : ω) : pick weight l r = pick (fun a ↦ φ (weight a)) l (φ r) := by
  induction l generalizing r with
  | nil => rfl
  | cons a rest ih =>
    rw [pick, pick]
    by_cases h : r < weight a
    · rw [if_pos h, if_pos ((hlt _ _).1 h)]
    · rw [if_neg h, if_neg (mt (hlt _ _).2 h), ih, hsub _ _ h]

variable {weight : α → ℕ} {l : List α} {r : ℕ}

theorem exists_pick (h : r < (l.map weight).sum) :
    ∃ a ∈ l, pick weight l r = some a ∧ 0 < weight a := by
  induction l generalizing r with
  | nil => exact absurd h (Nat.not_lt_zero r)
  | cons a rest ih =>
    rw [List.map_cons, List.sum_cons] at h
    rw [pick]
    by_cases hr : r < weight a
    · exact ⟨a, List.mem_cons_self, if_pos hr, Nat.zero_lt_of_lt hr⟩
    · obtain ⟨b, hb, hpick⟩ := ih (r := r - weight a) (by omega)
      rw [if_neg hr]
      exact ⟨b, List.mem_cons_of_mem a hb, hpick⟩

end Zaciraci.Lib
