import Mathlib.Algebra.BigOperators.Intervals
import Zaciraci.Path.Search

namespace Zaciraci.Path

open Zaciraci.Lib Yocto

def halvings (n k : ℕ) : ℕ := ∑ j ∈ Finset.range k, n / 2 ^ (j + 1)

theorem halvings_zero (n : ℕ) : halvings n 0 = 0 := rfl

theorem halvings_succ (n k : ℕ) : halvings n (k + 1) = halvings n k + n / 2 ^ (k + 1) :=
  Finset.sum_range_succ _ _

theorem halvings_succ' (n k : ℕ) : halvings n (k + 1) = n / 2 + halvings (n / 2) k := by
  induction k with
  | zero => simp [halvings]
  | succ k ih =>
    rw [halvings_succ, ih, halvings_succ, Nat.div_div_eq_div_mul, ← Nat.pow_succ', Nat.add_assoc]

theorem halvings_le (n k : ℕ) : halvings n k ≤ n - 1 := by
  induction k generalizing n with
  | zero => exact Nat.zero_le (n - 1)
  | succ k ih =>
    have h := ih (n / 2)
    rw [halvings_succ']
    omega

/-- Steps to the left of `a` that halve from `n` on do not pass zero before they reach `min`. -/
def ClearLeft (min a n : ℕ) : Prop := ∀ k, min + halvings n k < a → halvings n (k + 1) ≤ a

/-- Steps to the right of `c` that halve from `n` on do not pass `max`. -/
def ClearRight (max c n : ℕ) : Prop := ∀ k, c + halvings n k < max → c + halvings n (k + 1) ≤ max

section Clear

variable {min max a c n : ℕ}

theorem clearLeft_of_le_min (n : ℕ) (h : a ≤ min) : ClearLeft min a n := fun k hk ↦ by omega

theorem clearLeft_of_le (min : ℕ) (h : n ≤ a) : ClearLeft min a n := fun k _ ↦ by
  have hle := halvings_le n (k + 1)
  omega

theorem clearRight_of_max_le (n : ℕ) (h : max ≤ c) : ClearRight max c n := fun k hk ↦ by omega

theorem clearRight_of_le (h : c + n ≤ max) : ClearRight max c n := fun k _ ↦ by
  have hle := halvings_le n (k + 1)
  omega

theorem ClearLeft.step_le (h : ClearLeft min a n) (hmin : min < a) : n / 2 ≤ a := by
  have hfirst := h 0
  rw [halvings_succ', halvings_zero, halvings_zero] at hfirst
  exact hfirst hmin

theorem ClearLeft.step (h : ClearLeft min a n) (hmin : min < a) :
    ClearLeft min (a - n / 2) (n / 2) := by
  intro k hk
  have hle := h.step_le hmin
  have hnext := h (k + 1)
  rw [halvings_succ', halvings_succ'] at hnext
  omega

theorem ClearRight.step_le (h : ClearRight max c n) (hmax : c < max) : c + n / 2 ≤ max := by
  have hfirst := h 0
  rw [halvings_succ', halvings_zero, halvings_zero] at hfirst
  exact hfirst hmax

theorem ClearRight.step (h : ClearRight max c n) : ClearRight max (c + n / 2) (n / 2) := by
  intro k hk
  have hnext := h (k + 1)
  rw [halvings_succ', halvings_succ'] at hnext
  omega

end Clear

namespace Bracket

section Moves

variable {v : ℕ → ℕ} {min max best : ℕ} {p q : Bracket ℕ}

/-- What the search can rely on behind its first round: where an end of the inputs may move
outwards, it has room for that. -/
structure Settled (v : ℕ → ℕ) (min max : ℕ) (p : Bracket ℕ) : Prop where
  inRange : p.InRange min max
  left : v p.a < v p.c ∨ ClearLeft min p.a (p.b - p.a)
  right : v p.c ≤ v p.a ∨ ClearRight max p.c (p.c - p.b)
  halfLeft : p.a = min → 2 * (p.b - p.a) ≤ max - min
  halfRight : p.c = max → 2 * (p.c - p.b) ≤ max

theorem Settled.move (hp : p.Settled v min max) (h : Move v min max p best q) :
    q.Settled v min max := by
  have hrange := hp.inRange.move h
  obtain ⟨a, b, c⟩ := p
  obtain ⟨⟨hmin, hleft, hright, hmax⟩, hclearLeft, hclearRight, hhalfLeft, hhalfRight⟩ := hp
  dsimp only at hmin hleft hright hmax hclearLeft hclearRight hhalfLeft hhalfRight
  cases h with
  | left hb hc hlt =>
    have hclear := hclearLeft.resolve_left hc.not_gt
    have hstep := hclear.step_le hlt
    clear hclearLeft hclearRight hhalfLeft hhalfRight
    refine ⟨hrange, .inr ?_, .inr (clearRight_of_le ?_), ?_, ?_⟩ <;> dsimp only
    · rcases Nat.le_total min (best - (b - best) / 2) with hle | hle
      · rw [Nat.max_eq_right hle, Nat.sub_sub_self hstep]
        exact hclear.step hlt
      · rw [Nat.max_eq_left hle]
        exact clearLeft_of_le_min _ le_rfl
    all_goals omega
  | leftEnd hb hc hle =>
    have hhalf := hhalfLeft (le_antisymm hle hmin)
    clear hclearLeft hclearRight hhalfLeft hhalfRight
    refine ⟨hrange, .inr (clearLeft_of_le_min _ hle), .inr (clearRight_of_le ?_), ?_, ?_⟩ <;>
      dsimp only <;> omega
  | centre ha hc =>
    clear hclearLeft hclearRight hhalfLeft hhalfRight
    refine ⟨hrange, .inr (clearLeft_of_le _ ?_), .inr (clearRight_of_le ?_), ?_, ?_⟩ <;>
      dsimp only <;> omega
  | right ha hb hlt =>
    have hclear := hclearRight.resolve_left ha.not_ge
    have hstep := hclear.step_le hlt
    clear hclearLeft hclearRight hhalfLeft hhalfRight
    refine ⟨hrange, .inr (clearLeft_of_le _ ?_), .inr ?_, ?_, ?_⟩ <;> dsimp only
    · omega
    · rw [Nat.min_eq_right hstep, Nat.add_sub_cancel_left]
      exact hclear.step
    all_goals omega
  | rightEnd ha hb hle =>
    have hhalf := hhalfRight (le_antisymm hmax hle)
    clear hclearLeft hclearRight hhalfLeft hhalfRight
    refine ⟨hrange, .inr (clearLeft_of_le _ ?_), .inr (clearRight_of_max_le _ hle), ?_, ?_⟩ <;>
      dsimp only <;> omega

/-- Neither end can pass its bound from the odd gap beside the first middle. -/
def Clear (min average max : ℕ) : Prop :=
  (2 ∣ max - average ∨ ClearLeft min (average + 1) ((max - average) / 2)) ∧
    (2 ∣ average - min ∨ ClearRight max (average - 1) ((average - min) / 2))

theorem settled_first {average : ℕ} (hclear : Clear min average max) (hmin : min ≤ average)
    (hmax : average ≤ max) (h : Move v min max ⟨min, average, max⟩ best q) :
    q.Settled v min max := by
  have hrange : (⟨min, average, max⟩ : Bracket ℕ).InRange min max := ⟨le_rfl, hmin, hmax, le_rfl⟩
  have hrange' := hrange.move h
  cases h with
  | left _ _ hlt => exact absurd hlt (lt_irrefl min)
  | leftEnd hb hc hle =>
    refine ⟨hrange', .inr (clearLeft_of_le_min _ hle), ?_, ?_, ?_⟩ <;> dsimp only
    · by_cases heven : 2 ∣ average - min
      · left
        rw [Nat.mul_div_cancel' heven, Nat.add_sub_cancel' hmin]
        exact hb
      · right
        convert hclear.2.resolve_left heven using 1 <;> omega
    all_goals omega
  | centre ha hc =>
    refine ⟨hrange', .inr (clearLeft_of_le _ ?_), .inr (clearRight_of_le ?_), ?_, ?_⟩ <;>
      dsimp only <;> omega
  | right _ _ hlt => exact absurd hlt (lt_irrefl max)
  | rightEnd ha hb hle =>
    refine ⟨hrange', ?_, .inr (clearRight_of_max_le _ hle), ?_, ?_⟩ <;> dsimp only
    · by_cases heven : 2 ∣ max - average
      · left
        rw [Nat.mul_div_cancel' heven, Nat.sub_sub_self hmax]
        exact hb
      · right
        convert hclear.1.resolve_left heven using 1 <;> omega
    all_goals omega

def Roomy (v : ℕ → ℕ) (min max : ℕ) (p : Bracket ℕ) : Prop :=
  (v p.b ≤ v p.a → v p.c ≤ v p.a → 0 < v p.a → min < p.a → (p.b - p.a) / 2 ≤ p.a) ∧
    (v p.a < v p.c → v p.b < v p.c → p.c < max → p.c + (p.c - p.b) / 2 ≤ max)

theorem Settled.roomy (hp : p.Settled v min max) : p.Roomy v min max := by
  constructor
  · intro hb hc _ hlt
    exact (hp.left.resolve_left hc.not_gt).step_le hlt
  · intro ha hb hlt
    exact (hp.right.resolve_left ha.not_ge).step_le hlt

theorem move_of_round (h : Round v min max p q) : ∃ best, Move v min max p best q ∧ 0 < v best := by
  obtain ⟨hnext, -⟩ | ⟨best, q', hnext, hmove, hpos⟩ := next_cases v min max p
  · exact absurd (h.2.symm.trans hnext) (Option.some_ne_none q)
  · obtain rfl := Option.some.inj (h.2.symm.trans hnext)
    exact ⟨best, hmove, hpos⟩

theorem roomy_of_clear {average : ℕ} (hclear : Clear min average max) (hmin : min ≤ average)
    (hmax : average ≤ max)
    (h : Relation.ReflTransGen (Round v min max) ⟨min, average, max⟩ p) :
    p.InRange min max ∧ p.Roomy v min max := by
  have hsettled : p = ⟨min, average, max⟩ ∨ p.Settled v min max := by
    induction h with
    | refl => exact .inl rfl
    | tail _ hround ih =>
      obtain ⟨best, hmove, -⟩ := move_of_round hround
      rcases ih with rfl | ih
      · exact .inr (settled_first hclear hmin hmax hmove)
      · exact .inr (ih.move hmove)
  rcases hsettled with rfl | hsettled
  · exact ⟨⟨le_rfl, hmin, hmax, le_rfl⟩, fun _ _ _ hlt ↦ absurd hlt (lt_irrefl min),
      fun _ _ hlt ↦ absurd hlt (lt_irrefl max)⟩
  · exact ⟨hsettled.inRange, hsettled.roomy⟩

theorem round_of_move (hlt : p.a < p.c) (h : Move v min max p best q) (hpos : 0 < v best) :
    Round v min max p q := by
  refine ⟨hlt, ?_⟩
  cases h <;> simp only [next, two_nat] <;> split_ifs <;> first | rfl | (exfalso; omega)

end Moves

section Crossing

variable {min average max : ℕ}

/-- Gains that draw the inputs first to `max` and then ever further to the left. -/
def gainsLeft (min average max x : ℕ) : ℕ :=
  if x = min ∨ x = average then 0
  else if x ≤ average + 1 then average + 2 - x
  else if x = max then 1 else 0

theorem gainsLeft_le {a x : ℕ} (ha : a ≤ average + 1) (hmin : a ≠ min) (haverage : a ≠ average)
    (hx : a ≤ x) : gainsLeft min average max x ≤ gainsLeft min average max a := by
  simp only [gainsLeft]
  split_ifs <;> omega

theorem gainsLeft_pos {a : ℕ} (ha : a ≤ average + 1) (hmin : a ≠ min) (haverage : a ≠ average) :
    0 < gainsLeft min average max a := by
  simp only [gainsLeft]
  split_ifs <;> omega

theorem gainsLeft_max (hmin : min ≤ average) (hmax : average + 1 < max) :
    gainsLeft min average max max = 1 := by
  rw [gainsLeft, if_neg (by omega), if_neg (by omega), if_pos rfl]

theorem two_le_halvings {n : ℕ} (hn : 2 ≤ n / 2) (k : ℕ) : halvings n k = 0 ∨ 2 ≤ halvings n k := by
  cases k with
  | zero => exact .inl rfl
  | succ k =>
    rw [halvings_succ']
    omega

theorem div_pow_succ (n k : ℕ) : n / 2 ^ (k + 1) = n / 2 ^ k / 2 := by
  rw [Nat.pow_succ, Nat.div_div_eq_div_mul]

theorem step_of_lt_halvings {n k : ℕ} (h : halvings n k + 1 < halvings n (k + 1)) :
    2 ≤ n / 2 ∧ 0 < n / 2 ^ k := by
  rw [halvings_succ] at h
  have hfirst : n / 2 ^ (k + 1) ≤ n / 2 ^ 1 :=
    Nat.div_le_div_left (Nat.pow_le_pow_right Nat.two_pos (by omega)) (by omega)
  have hlast := div_pow_succ n k
  omega

theorem reaches_left {s k : ℕ} (hmin : min ≤ average) (hmax : average + 1 + 2 * s = max)
    (hs : 2 ≤ s / 2) (hk : min + halvings s k < average + 1) (hstep : 0 < s / 2 ^ k) :
    ∃ p, Relation.ReflTransGen (Round (gainsLeft min average max) min max) ⟨min, average, max⟩ p ∧
      p.a = average + 1 - halvings s k ∧ p.b = p.a + s / 2 ^ k ∧ p.b ≤ p.c := by
  induction k with
  | zero =>
    have hlast : gainsLeft min average max max = 1 := gainsLeft_max hmin (by omega)
    have hfirst : Move (gainsLeft min average max) min max ⟨min, average, max⟩ max
        ⟨max - 2 * ((max - average) / 2), max - (max - average) / 2, max⟩ := by
      refine .rightEnd ?_ ?_ le_rfl
      · rw [hlast, gainsLeft, if_pos (.inl rfl)]
        exact Nat.one_pos
      · rw [hlast, gainsLeft, if_pos (.inr rfl)]
        exact Nat.one_pos
    have hpos : 0 < gainsLeft min average max max := hlast ▸ Nat.one_pos
    refine ⟨_, .single (round_of_move (by dsimp only; omega) hfirst hpos), ?_, ?_, ?_⟩ <;>
      simp only [halvings_zero, Nat.pow_zero, Nat.div_one] <;> omega
  | succ k ih =>
    have hsum := halvings_succ s k
    rw [div_pow_succ] at hsum hstep
    obtain ⟨⟨a, b, c⟩, hreach, ha, hb, hc⟩ := ih (by omega) (by omega)
    dsimp only at ha hb hc
    have hne := two_le_halvings hs k
    have hmove : Move (gainsLeft min average max) min max ⟨a, b, c⟩ a
        ⟨Max.max min (a - (b - a) / 2), a, a + (b - a) / 2⟩ := by
      refine .left ?_ ?_ ?_
      · exact gainsLeft_le (by omega) (by omega) (by omega) (by omega)
      · exact gainsLeft_le (by omega) (by omega) (by omega) (by omega)
      · omega
    have hpos : 0 < gainsLeft min average max a :=
      gainsLeft_pos (by omega) (by omega) (by omega)
    refine ⟨_, hreach.tail (round_of_move (by dsimp only; omega) hmove hpos), ?_, ?_, ?_⟩ <;>
      dsimp only
    · omega
    · rw [div_pow_succ]
      omega
    · omega

/-- Gains that draw the inputs first to `min` and then ever further to the right. -/
def gainsRight (min average max x : ℕ) : ℕ :=
  if x = max ∨ x = average then 0
  else if average ≤ x + 1 then x + 3 - average
  else if x = min then 1 else 0

theorem gainsRight_lt {c x : ℕ} (hc : average ≤ c + 1) (hmax : c ≠ max) (haverage : c ≠ average)
    (hx : x < c) : gainsRight min average max x < gainsRight min average max c := by
  simp only [gainsRight]
  split_ifs <;> omega

theorem gainsRight_min (hmin : min + 1 < average) (hmax : average ≤ max) :
    gainsRight min average max min = 1 := by
  rw [gainsRight, if_neg (by omega), if_neg (by omega), if_pos rfl]

theorem reaches_right {s k : ℕ} (hmax : average ≤ max) (hmin : min + 1 + 2 * s = average)
    (hs : 2 ≤ s / 2) (hk : average - 1 + halvings s k < max) (hstep : 0 < s / 2 ^ k) :
    ∃ p, Relation.ReflTransGen (Round (gainsRight min average max) min max) ⟨min, average, max⟩ p ∧
      p.c = average - 1 + halvings s k ∧ p.c = p.b + s / 2 ^ k ∧ p.a ≤ p.b := by
  induction k with
  | zero =>
    have hlast : gainsRight min average max min = 1 := gainsRight_min (by omega) hmax
    have hfirst : Move (gainsRight min average max) min max ⟨min, average, max⟩ min
        ⟨min, min + (average - min) / 2, min + 2 * ((average - min) / 2)⟩ := by
      refine .leftEnd ?_ ?_ le_rfl
      · rw [hlast, gainsRight, if_pos (.inr rfl)]
        exact Nat.zero_le 1
      · rw [hlast, gainsRight, if_pos (.inl rfl)]
        exact Nat.zero_le 1
    have hpos : 0 < gainsRight min average max min := hlast ▸ Nat.one_pos
    refine ⟨_, .single (round_of_move (by dsimp only; omega) hfirst hpos), ?_, ?_, ?_⟩ <;>
      simp only [halvings_zero, Nat.pow_zero, Nat.div_one] <;> omega
  | succ k ih =>
    have hsum := halvings_succ s k
    rw [div_pow_succ] at hsum hstep
    obtain ⟨⟨a, b, c⟩, hreach, hc, hb, ha⟩ := ih (by omega) (by omega)
    dsimp only at ha hb hc
    have hne := two_le_halvings hs k
    have hlt : ∀ x < c, gainsRight min average max x < gainsRight min average max c :=
      fun x hx ↦ gainsRight_lt (by omega) (by omega) (by omega) hx
    have hmove : Move (gainsRight min average max) min max ⟨a, b, c⟩ c
        ⟨c - (c - b) / 2, c, Min.min max (c + (c - b) / 2)⟩ :=
      .right (hlt a (by omega)) (hlt b (by omega)) (by omega)
    have hpos := (Nat.zero_le _).trans_lt (hlt a (by omega))
    refine ⟨_, hreach.tail (round_of_move (by dsimp only; omega) hmove hpos), ?_, ?_, ?_⟩ <;>
      dsimp only
    · omega
    · rw [div_pow_succ]
      omega
    · omega

def Crossed (min average max : ℕ) : Prop :=
  ∃ v : ℕ → ℕ, (∀ x ≤ max, v x ≤ max) ∧ ∃ p,
    Relation.ReflTransGen (Round v min max) ⟨min, average, max⟩ p ∧ p.a < p.c ∧
      ¬p.Roomy v min max

theorem crossed_left (hmin : min ≤ average) (hmax : average ≤ max) (hodd : ¬2 ∣ max - average)
    (h : ¬ClearLeft min (average + 1) ((max - average) / 2)) : Crossed min average max := by
  simp only [ClearLeft, not_forall, Nat.not_le, exists_prop] at h
  obtain ⟨k, hk, hcross⟩ := h
  have hsum := halvings_succ ((max - average) / 2) k
  rw [div_pow_succ] at hsum
  obtain ⟨hs, hstep⟩ := step_of_lt_halvings (n := (max - average) / 2) (k := k) (by omega)
  have hgap : average + 1 + 2 * ((max - average) / 2) = max := by omega
  obtain ⟨⟨a, b, c⟩, hreach, ha, hb, hc⟩ := reaches_left hmin hgap hs hk hstep
  dsimp only at ha hb hc
  have hne := two_le_halvings hs k
  have hle : ∀ x, a ≤ x → gainsLeft min average max x ≤ gainsLeft min average max a :=
    fun x hx ↦ gainsLeft_le (by omega) (by omega) (by omega) hx
  have hpos : 0 < gainsLeft min average max a := gainsLeft_pos (by omega) (by omega) (by omega)
  refine ⟨gainsLeft min average max, fun x hx ↦ ?_, ⟨a, b, c⟩, hreach, by dsimp only; omega, ?_⟩
  · simp only [gainsLeft]
    split_ifs <;> omega
  · intro hroomy
    have hroom := hroomy.1 (hle b (by omega)) (hle c (by omega)) hpos (by dsimp only; omega)
    dsimp only at hroom
    omega

theorem crossed_right (hmin : min ≤ average) (hmax : average ≤ max) (hodd : ¬2 ∣ average - min)
    (h : ¬ClearRight max (average - 1) ((average - min) / 2)) : Crossed min average max := by
  simp only [ClearRight, not_forall, Nat.not_le, exists_prop] at h
  obtain ⟨k, hk, hcross⟩ := h
  have hsum := halvings_succ ((average - min) / 2) k
  rw [div_pow_succ] at hsum
  obtain ⟨hs, hstep⟩ := step_of_lt_halvings (n := (average - min) / 2) (k := k) (by omega)
  have hgap : min + 1 + 2 * ((average - min) / 2) = average := by omega
  obtain ⟨⟨a, b, c⟩, hreach, hc, hb, ha⟩ := reaches_right hmax hgap hs hk hstep
  dsimp only at ha hb hc
  have hne := two_le_halvings hs k
  have hlt : ∀ x < c, gainsRight min average max x < gainsRight min average max c :=
    fun x hx ↦ gainsRight_lt (by omega) (by omega) (by omega) hx
  refine ⟨gainsRight min average max, fun x hx ↦ ?_, ⟨a, b, c⟩, hreach, by dsimp only; omega, ?_⟩
  · simp only [gainsRight]
    split_ifs <;> omega
  · intro hroomy
    have hroom := hroomy.2 (hlt a (by omega)) (hlt b (by omega)) (by dsimp only; omega)
    dsimp only at hroom
    omega

theorem crossed_of_not_clear (hmin : min ≤ average) (hmax : average ≤ max)
    (h : ¬Clear min average max) : Crossed min average max := by
  rw [Clear, not_and_or, not_or, not_or] at h
  rcases h with ⟨hodd, hclear⟩ | ⟨hodd, hclear⟩
  · exact crossed_left hmin hmax hodd hclear
  · exact crossed_right hmin hmax hodd hclear

end Crossing

end Bracket

instance : LinearOrder U128 where
  le_refl := BitVec.le_refl
  le_trans _ _ _ := BitVec.le_trans
  lt_iff_le_not_ge _ _ := by
    rw [BitVec.lt_def, BitVec.le_def, BitVec.le_def]
    omega
  le_antisymm _ _ := BitVec.le_antisymm
  le_total := BitVec.le_total
  toDecidableLE := inferInstance

instance : Yocto U128 := ⟨id, id⟩

theorem toNat_max (x y : U128) : (Max.max x y).toNat = Max.max x.toNat y.toNat := by
  rw [max_def, max_def]
  exact apply_ite _ _ _ _

theorem toNat_min (x y : U128) : (Min.min x y).toNat = Min.min x.toNat y.toNat := by
  rw [min_def, min_def]
  exact apply_ite _ _ _ _

theorem toNat_sub {x y : U128} (h : y.toNat ≤ x.toNat) : (x - y).toNat = x.toNat - y.toNat :=
  BitVec.toNat_sub_of_le (BitVec.le_def.2 h)

theorem toNat_half_sub {x y : U128} (h : y.toNat ≤ x.toNat) :
    ((x - y) / 2).toNat = (x.toNat - y.toNat) / 2 := by
  rw [BitVec.toNat_udiv, toNat_sub h]
  rfl

theorem toNat_twice {s : U128} (h : s.toNat < 2 ^ 127) : (2 * s).toNat = 2 * s.toNat := by
  rw [BitVec.toNat_mul]
  exact Nat.mod_eq_of_lt (by change 2 * s.toNat < _; omega)

theorem toNat_add {x y : U128} (h : x.toNat + y.toNat < 2 ^ 128) :
    (x + y).toNat = x.toNat + y.toNat := by
  rw [BitVec.toNat_add, Nat.mod_eq_of_lt h]

theorem toNat_twice_half_sub {x y : U128} (h : y.toNat ≤ x.toNat) :
    (2 * ((x - y) / 2)).toNat = 2 * ((x.toNat - y.toNat) / 2) := by
  have hhalf := toNat_half_sub h
  have hx := x.isLt
  rw [toNat_twice (by omega), hhalf]

namespace Bracket

section Operations

variable {M : Type} [LinearOrder M] [Zero M] [Sub M] [Mul M] [Div M] [Yocto M]

/-- The subtractions of a round, each as what is subtracted from and what is subtracted. -/
def differences (min max : M) (p : Bracket M) (a b c : M) : List (M × M) :=
  let m2 : M := ofU128 2
  if a = b ∧ b = c ∧ a = 0 then []
  else if b ≤ a ∧ c ≤ a then
    if min < p.a then [(p.b, p.a), (p.a, (p.b - p.a) / m2)] else [(p.b, p.a)]
  else if a ≤ b ∧ c ≤ b then
    [(p.b, p.a), (p.b, (p.b - p.a) / m2), (p.c, p.b)]
  else
    let step := (p.c - p.b) / m2
    if p.c < max then [(p.c, p.b), (p.c, step)] else [(p.c, p.b), (p.c, step), (p.c, m2 * step)]

def sums (min max : M) (p : Bracket M) (a b c : M) : List (M × M) :=
  let m2 : M := ofU128 2
  if a = b ∧ b = c ∧ a = 0 then []
  else if b ≤ a ∧ c ≤ a then
    let step := (p.b - p.a) / m2
    if min < p.a then [(p.a, step)] else [(p.a, step), (p.a, m2 * step)]
  else if a ≤ b ∧ c ≤ b then [(p.b, (p.c - p.b) / m2)]
  else if p.c < max then [(p.c, (p.c - p.b) / m2)] else []

end Operations

/-- No subtraction of the round goes below zero and no sum above `max`. -/
def Exact (v : U128 → U128) (min max : U128) (p : Bracket U128) : Prop :=
  (∀ d ∈ p.differences min max (v p.a) (v p.b) (v p.c), d.2 ≤ d.1) ∧
    ∀ s ∈ p.sums min max (v p.a) (v p.b) (v p.c), s.1.toNat + s.2.toNat ≤ max.toNat

def toNat (p : Bracket U128) : Bracket ℕ := ⟨p.a.toNat, p.b.toNat, p.c.toNat⟩

def natGains (v : U128 → U128) (n : ℕ) : ℕ := (v (.ofNat 128 n)).toNat

section Words

variable {v : U128 → U128} {min max : U128} {p q : Bracket U128}

theorem natGains_toNat (v : U128 → U128) (x : U128) : natGains v x.toNat = (v x).toNat := by
  rw [natGains, BitVec.ofNat_toNat, BitVec.setWidth_eq]

theorem two_word : (ofU128 2 : U128) = 2 := rfl

theorem allZero_iff {a b c : U128} :
    (a = b ∧ b = c ∧ a = 0) ↔ a.toNat = b.toNat ∧ b.toNat = c.toNat ∧ a.toNat = 0 := by
  rw [BitVec.toNat_inj, BitVec.toNat_inj, ← BitVec.toNat_inj (x := a) (y := 0)]
  rfl

theorem exact_iff_roomy (hp : p.toNat.InRange min.toNat max.toNat) :
    p.Exact v min max ↔ p.toNat.Roomy (natGains v) min.toNat max.toNat := by
  obtain ⟨hmin, hleft, hright, hmax⟩ := hp
  dsimp only [toNat] at hmin hleft hright hmax
  have hl := toNat_half_sub hleft
  have hr := toNat_half_sub hright
  have hl₂ := toNat_twice_half_sub hleft
  have hr₂ := toNat_twice_half_sub hright
  simp only [Exact, differences, sums, two_word, Roomy, toNat, natGains_toNat, allZero_iff,
    BitVec.le_def, BitVec.lt_def]
  generalize (v p.a).toNat = a
  generalize (v p.b).toNat = b
  generalize (v p.c).toNat = c
  split_ifs <;> simp only [List.forall_mem_cons, List.not_mem_nil, hl, hr, hl₂, hr₂, false_imp_iff,
    implies_true, and_true, true_iff] <;> clear hl hr hl₂ hr₂ <;> omega

theorem next_toNat (hp : p.toNat.InRange min.toNat max.toNat)
    (hroom : p.toNat.Roomy (natGains v) min.toNat max.toNat) :
    (p.next min max (v p.a) (v p.b) (v p.c)).map toNat = p.toNat.next min.toNat max.toNat
      (natGains v p.a.toNat) (natGains v p.b.toNat) (natGains v p.c.toNat) := by
  obtain ⟨hmin, hleft, hright, hmax⟩ := hp
  obtain ⟨hroomLeft, hroomRight⟩ := hroom
  dsimp only [toNat] at hmin hleft hright hmax hroomLeft hroomRight
  have hl := toNat_half_sub hleft
  have hr := toNat_half_sub hright
  have hl₂ := toNat_twice_half_sub hleft
  have hr₂ := toNat_twice_half_sub hright
  have hbound := max.isLt
  simp only [natGains_toNat] at hroomLeft hroomRight
  change _ = next min.toNat max.toNat ⟨p.a.toNat, p.b.toNat, p.c.toNat⟩ _ _ _
  simp only [next, two_word, two_nat, natGains_toNat, allZero_iff, BitVec.le_def, BitVec.lt_def]
  generalize (v p.a).toNat = a at hroomLeft hroomRight ⊢
  generalize (v p.b).toNat = b at hroomLeft hroomRight ⊢
  generalize (v p.c).toNat = c at hroomLeft hroomRight ⊢
  -- Each step and its double is a word of its own, known by its value.
  generalize (p.b - p.a) / 2 = left at hl hl₂ ⊢
  generalize (p.c - p.b) / 2 = right at hr hr₂ ⊢
  generalize 2 * left = left₂ at hl₂ ⊢
  generalize 2 * right = right₂ at hr₂ ⊢
  by_cases hzero : a = b ∧ b = c ∧ a = 0
  · rw [if_pos hzero, if_pos hzero]
    rfl
  rw [if_neg hzero, if_neg hzero]
  by_cases ha : b ≤ a ∧ c ≤ a
  · rw [if_pos ha, if_pos ha]
    by_cases hlt : min.toNat < p.a.toNat
    · have hstep := hroomLeft ha.1 ha.2 (by omega) hlt
      rw [if_pos hlt, if_pos hlt, Option.map_some, toNat, toNat_max, toNat_sub (hl ▸ hstep),
        toNat_add (by omega), hl]
    · rw [if_neg hlt, if_neg hlt, Option.map_some, toNat, toNat_add (by omega),
        toNat_add (by omega), hl₂, hl]
  rw [if_neg ha, if_neg ha]
  by_cases hb : a ≤ b ∧ c ≤ b
  · rw [if_pos hb, if_pos hb, Option.map_some, toNat, toNat_sub (by omega), toNat_add (by omega),
      hl, hr]
  rw [if_neg hb, if_neg hb]
  by_cases hlt : p.c.toNat < max.toNat
  · have hstep := hroomRight (by omega) (by omega) hlt
    rw [if_pos hlt, if_pos hlt, Option.map_some, toNat, toNat_min, toNat_sub (by omega),
      toNat_add (by omega), hr]
  · rw [if_neg hlt, if_neg hlt, Option.map_some, toNat, toNat_sub (by omega), toNat_sub (by omega),
      hr₂, hr]

theorem round_toNat (hp : p.toNat.InRange min.toNat max.toNat)
    (hroom : p.toNat.Roomy (natGains v) min.toNat max.toNat) {r : Bracket ℕ} :
    Round (natGains v) min.toNat max.toNat p.toNat r ↔
      ∃ q, Round v min max p q ∧ q.toNat = r := by
  simp only [Round, and_assoc, exists_and_left]
  refine and_congr BitVec.lt_def.symm ?_
  change p.toNat.next min.toNat max.toNat (natGains v p.a.toNat) (natGains v p.b.toNat)
    (natGains v p.c.toNat) = some r ↔ _
  rw [← next_toNat hp hroom, Option.map_eq_some_iff]

theorem reaches_toNat {average : U128} (hmin : min ≤ average) (hmax : average ≤ max)
    (hclear : Clear min.toNat average.toNat max.toNat)
    (h : Relation.ReflTransGen (Round v min max) ⟨min, average, max⟩ p) :
    Relation.ReflTransGen (Round (natGains v) min.toNat max.toNat)
      ⟨min.toNat, average.toNat, max.toNat⟩ p.toNat := by
  induction h with
  | refl => exact .refl
  | tail _ hround ih =>
    obtain ⟨hrange, hroom⟩ := roomy_of_clear hclear (BitVec.le_def.1 hmin) (BitVec.le_def.1 hmax) ih
    exact ih.tail ((round_toNat hrange hroom).2 ⟨_, hround, rfl⟩)

end Words

section Agree

variable {v w : ℕ → ℕ} {min max : ℕ} {p q : Bracket ℕ}

theorem Round.congr (h : ∀ x ≤ max, w x = v x) (hp : p.InRange min max)
    (hround : Round v min max p q) : Round w min max p q := by
  obtain ⟨-, hleft, hright, hmax⟩ := hp
  refine ⟨hround.1, ?_⟩
  rw [h p.a (by omega), h p.b (by omega), h p.c hmax]
  exact hround.2

theorem Roomy.congr (h : ∀ x ≤ max, w x = v x) (hp : p.InRange min max)
    (hroom : p.Roomy w min max) : p.Roomy v min max := by
  obtain ⟨-, hleft, hright, hmax⟩ := hp
  rw [Roomy, h p.a (by omega), h p.b (by omega), h p.c hmax] at hroom
  exact hroom

end Agree

/-- The arithmetic of the search on machine words stays within zero and `max` for all gains, just
if the steps from an odd gap beside the average do not pass either end. -/
theorem search_exact_iff (min average max : U128) (hmin : min ≤ average) (hmax : average ≤ max) :
    (∀ (v : U128 → U128) (p : Bracket U128),
      Relation.ReflTransGen (Round v min max) ⟨min, average, max⟩ p → p.a < p.c →
        p.Exact v min max) ↔ Clear min.toNat average.toNat max.toNat := by
  have hmin' := BitVec.le_def.1 hmin
  have hmax' := BitVec.le_def.1 hmax
  constructor
  · intro hexact
    by_contra hclear
    obtain ⟨v, hbound, r, hreach, hlt, hroom⟩ := crossed_of_not_clear hmin' hmax' hclear
    -- the same gains on machine words lead to the same inputs, as long as each round is exact
    let w : U128 → U128 := fun x ↦ .ofNat 128 (v x.toNat)
    have hw : ∀ x ≤ max.toNat, natGains w x = v x := by
      intro x hx
      have hlast := max.isLt
      have hv := hbound x hx
      simp only [natGains, w, BitVec.toNat_ofNat]
      rw [Nat.mod_eq_of_lt (by omega : x < 2 ^ 128), Nat.mod_eq_of_lt (by omega)]
    have hfollow : r.InRange min.toNat max.toNat ∧ ∃ p,
        Relation.ReflTransGen (Round w min max) ⟨min, average, max⟩ p ∧ p.toNat = r := by
      clear hlt hroom
      induction hreach with
      | refl => exact ⟨⟨le_rfl, hmin', hmax', le_rfl⟩, _, .refl, rfl⟩
      | tail _ hround ih =>
        obtain ⟨hrange, p, hp, rfl⟩ := ih
        obtain ⟨best, hmove, -⟩ := move_of_round hround
        have hexact' := hexact w p hp (BitVec.lt_def.2 hround.1)
        obtain ⟨q, hq, rfl⟩ := (round_toNat hrange ((exact_iff_roomy hrange).1 hexact')).1
          (hround.congr hw hrange)
        exact ⟨hrange.move hmove, q, hp.tail hq, rfl⟩
    obtain ⟨hrange, p, hp, rfl⟩ := hfollow
    have hexact' := hexact w p hp (BitVec.lt_def.2 hlt)
    exact hroom (((exact_iff_roomy hrange).1 hexact').congr hw hrange)
  · intro hclear v p h _
    obtain ⟨hrange, hroom⟩ := roomy_of_clear hclear hmin' hmax' (reaches_toNat hmin hmax hclear h)
    exact (exact_iff_roomy hrange).2 hroom

theorem search_exact_one_two_four :
    (1 : U128) ≤ 2 ∧ (2 : U128) ≤ 4 ∧ ∀ (v : U128 → U128) (p : Bracket U128),
      Relation.ReflTransGen (Round v 1 4) ⟨1, 2, 4⟩ p → p.a < p.c → p.Exact v 1 4 :=
  ⟨by decide, by decide, (search_exact_iff 1 2 4 (by decide) (by decide)).2
    ⟨.inl (by decide), .inr (clearRight_of_le (by decide))⟩⟩

/-- From 1 and 20 the search goes to 2, 11 and 20 and then subtracts 4 from 2. It wraps around and
ends without the result that it has seen at 2. -/
theorem search_underflows :
    let gains : U128 → U128 := fun x ↦ if x = 2 then 2 else if x = 20 then 1 else 0
    Relation.ReflTransGen (Round gains 1 20) ⟨1, 1, 20⟩ ⟨2, 11, 20⟩ ∧
      (2, 4) ∈ (⟨2, 11, 20⟩ : Bracket U128).differences 1 20 (gains 2) (gains 11) (gains 20) ∧
      searchBestPath 3 (1 : U128) 1 20
        (fun x ↦ (.ok (some (gains x)) : Outcome Unit (Option U128))) id = some (.ok none) := by
  refine ⟨.single ⟨by decide, rfl⟩, ?_, rfl⟩
  decide

end Bracket

end Zaciraci.Path
