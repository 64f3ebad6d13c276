import Mathlib.Algebra.BigOperators.Group.List.Lemmas
import Mathlib.Algebra.Order.BigOperators.Group.List
import Mathlib.Algebra.Order.Floor.Semiring
import Mathlib.Algebra.Order.Ring.Nat
import Mathlib.Tactic.Linarith

namespace Zaciraci.Lib

section Floors

variable {K : Type} [CommRing K] [LinearOrder K] [IsStrictOrderedRing K] [FloorSemiring K]
  {l : List K} {x : K} {whole : ℕ}

theorem sum_floor_le (h : ∀ y ∈ l, 0 ≤ y) : ((l.map Nat.floor).sum : K) ≤ l.sum := by
  induction l with
  | nil => simp
  | cons y l ih =>
    rw [List.forall_mem_cons] at h
    rw [List.map_cons, List.sum_cons, List.sum_cons, Nat.cast_add]
    exact add_le_add (Nat.floor_le h.1) (ih h.2)

theorem sum_le_sum_floor_add (l : List K) : l.sum ≤ ((l.map Nat.floor).sum : K) + l.length := by
  induction l with
  | nil => simp
  | cons y l ih =>
    have hy := (Nat.lt_floor_add_one y).le
    rw [List.map_cons, List.sum_cons, List.sum_cons, List.length_cons, Nat.cast_add, Nat.cast_add,
      Nat.cast_one]
    linarith

/-- The parts of a whole, rounded down, leave enough for the part that takes the rest. -/
theorem sum_floor_add_floor_le (h : ∀ y ∈ l, 0 ≤ y) (hx : 0 ≤ x) (hsum : l.sum + x = whole) :
    (l.map Nat.floor).sum + ⌊x⌋₊ ≤ whole := by
  have hle : ((l.map Nat.floor).sum : K) + (⌊x⌋₊ : K) ≤ whole :=
    hsum ▸ add_le_add (sum_floor_le h) (Nat.floor_le hx)
  exact_mod_cast hle

/-- The part that takes the rest gains at most one unit from each of the others. -/
theorem whole_le_sum_floor_add (hsum : l.sum + x = whole) :
    whole ≤ (l.map Nat.floor).sum + ⌊x⌋₊ + l.length := by
  have hlt : (whole : K) < (l.map Nat.floor).sum + ⌊x⌋₊ + l.length + 1 := by
    have hl := sum_le_sum_floor_add l
    have hx := Nat.lt_floor_add_one x
    linarith
  exact Nat.lt_succ_iff.1 (by exact_mod_cast hlt)

end Floors

theorem div_mul_add_mod_mul_div (a b : ℕ) {n : ℕ} (h : 0 < n) :
    a / n * b + a % n * b / n = a * b / n := by
  conv_rhs => rw [← Nat.div_add_mod a n, Nat.add_mul, Nat.mul_assoc, Nat.mul_add_div h]

theorem sum_div_le (a n : ℕ) (l : List ℕ) :
    (l.map fun b ↦ a * b / n).sum ≤ a * l.sum / n := by
  induction l with
  | nil => simp
  | cons b l ih =>
    rw [List.map_cons, List.sum_cons, List.sum_cons, Nat.mul_add]
    exact (Nat.add_le_add_left ih _).trans Nat.div_add_div_le_add_div

section HandOut

variable {α : Type} {cap whole : ℕ} {share : α → ℕ}

/-- Everyone gets a share and the last one what is then left of the whole. The record of what was
given out saturates at `cap`. -/
def handOut (cap whole : ℕ) (share : α → ℕ) : ℕ → List α → List ℕ
  | _, [] => []
  | given, [_] => [whole - given]
  | given, x :: y :: xs => share x :: handOut cap whole share (min (given + share x) cap) (y :: xs)

theorem handOut_cons (given : ℕ) (x : α) {xs : List α} (h : xs ≠ []) :
    handOut cap whole share given (x :: xs) =
      share x :: handOut cap whole share (min (given + share x) cap) xs := by
  cases xs with
  | nil => exact absurd rfl h
  | cons y xs => rfl

@[simp] theorem length_handOut (given : ℕ) (xs : List α) :
    (handOut cap whole share given xs).length = xs.length := by
  fun_induction handOut cap whole share given xs <;> simp_all

theorem handOut_concat (init : List α) (last : α) (given : ℕ)
    (h : given + (init.map share).sum ≤ cap) :
    handOut cap whole share given (init ++ [last]) =
      init.map share ++ [whole - (given + (init.map share).sum)] := by
  induction init generalizing given with
  | nil => rfl
  | cons x init ih =>
    rw [List.map_cons, List.sum_cons, ← Nat.add_assoc] at h
    rw [List.cons_append, handOut_cons given x (by simp), Nat.min_eq_left (by omega), ih _ h,
      List.map_cons, List.sum_cons, Nat.add_assoc, List.cons_append]

theorem sum_handOut (init : List α) (last : α) (h : (init.map share).sum ≤ min whole cap) :
    (handOut cap whole share 0 (init ++ [last])).sum = whole := by
  rw [handOut_concat init last 0 (by omega), List.sum_append, List.sum_singleton]
  omega

end HandOut

end Zaciraci.Lib
