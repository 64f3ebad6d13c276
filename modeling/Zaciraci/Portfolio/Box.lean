import Zaciraci.Portfolio.Covariance

namespace Zaciraci.Portfolio

open Lib

variable {K : Type} [Field K] [LinearOrder K] {n : ℕ}

section Conditions

variable (excess : Fin n → K) (cov : Matrix (Fin n) (Fin n) K) (M : K)

/-- A whole portfolio with `U` at the cap and nothing outside `F` and `U`, where the covariances of
the assets in `F` with it are in proportion to their excess returns. -/
structure Balanced (F U : Finset (Fin n)) (γ : K) (w : Fin n → K) : Prop where
  free : ∀ i ∈ F, ∑ j, cov i j * w j = γ * excess i
  capped : ∀ i ∈ U, w i = M
  zero : ∀ i, i ∉ F → i ∉ U → w i = 0
  sum_eq : ∑ i, w i = 1

/-- Assets that are kept and assets that can be held. Without a cap, no portfolio is short in an
asset of `A`, and one with an asset outside `R` is short in some asset. With caps, no portfolio
between `A` and `R` is short in an asset of `A`, and none has use for an asset outside `R`. -/
structure Keeps (A R : Finset (Fin n)) : Prop where
  long : ∀ {F γ w}, A ⊆ F → Balanced excess cov M F ∅ γ w → ∀ i ∈ A, -1e-10 ≤ w i
  short : ∀ {F γ w}, A ⊆ F → ¬F ⊆ R → Balanced excess cov M F ∅ γ w → ∃ i ∈ F, w i < -1e-10
  capped : ∀ {F U γ w}, Disjoint F U → A ⊆ F ∪ U → F ∪ U ⊆ R → U.card * M < 1 →
    Balanced excess cov M F U γ w → ∀ i ∈ A, -1e-10 ≤ w i
  unwanted : ∀ {F U γ w}, Disjoint F U → A ⊆ F ∪ U → F ∪ U ⊆ R → U.card * M < 1 →
    Balanced excess cov M F U γ w → ∀ i ∉ R, excess i - γ * ∑ j, cov i j * w j ≤ 1e-10

def Solid : Prop :=
  ∀ F : Finset (Fin n), F.Nonempty → ∀ p : Fin n → K,
    (∀ i ∈ F, ∑ j ∈ F, cov i j * p j = excess i) → 1e-15 ≤ |∑ j ∈ F, p j|

end Conditions

section Moves

variable {lib : Decompositions K} {excess : Fin n → K} {cov : Matrix (Fin n) (Fin n) K} {M γ : K}
  {state state' : Fin n → BoundState} {w : Fin n → K}

def holding (state : Fin n → BoundState) (s : BoundState) : Finset (Fin n) :=
  (assets state s).toFinset

@[simp] theorem mem_holding {s : BoundState} {i : Fin n} : i ∈ holding state s ↔ state i = s := by
  rw [holding, List.mem_toFinset, mem_assets]

theorem card_holding (state : Fin n → BoundState) (s : BoundState) :
    (holding state s).card = (assets state s).length :=
  List.toFinset_card_of_nodup (assets_nodup state s)

variable {wFree : Fin (assets state .free).length → K}

omit [LinearOrder K] in
theorem assemble_free (k : Fin (assets state .free).length) :
    assemble M state wFree ((assets state .free).get k) = wFree k := by
  have hfree := mem_assets.1 (List.get_mem (assets state .free) k)
  rw [assemble, scatter_of_notMem, scatter_get (assets_nodup _ _)]
  rw [mem_assets, hfree]
  decide

omit [LinearOrder K] in
theorem forall_free {P : K → Prop} (h : ∀ k, P (wFree k)) :
    ∀ j, state j = .free → P (assemble M state wFree j) := by
  intro j hj
  obtain ⟨k, rfl⟩ := List.mem_iff_get.1 (mem_assets.2 hj)
  rw [assemble_free]
  exact h k

theorem exists_solutions (hlib : lib.Exact) (hcov : PositiveDefinite cov)
    (excess : Fin n → K) (M : K) (state : Fin n → BoundState) :
    ∃ p q : Fin (assets state .free).length → K,
      (∀ k, ∑ l, cov ((assets state .free).get k) ((assets state .free).get l) * p l =
        excess ((assets state .free).get k)) ∧
      (∀ k, ∑ l, cov ((assets state .free).get k) ((assets state .free).get l) * q l =
        ((assets state .upper).map fun u ↦ cov ((assets state .free).get k) u * M).sum) ∧
      solveFree lib excess cov M state =
        if |∑ k, p k| < 1e-15 then none
        else some ((budgetFree M state + ∑ k, q k) / ∑ k, p k, fun k ↦
          (budgetFree M state + ∑ k, q k) / (∑ k, p k) * p k - q k) := by
  set free := (assets state .free).get with hget
  have hsub : PositiveDefinite fun k l ↦ cov (free k) (free l) :=
    hcov.submatrix (List.nodup_iff_injective_get.1 (assets_nodup state .free))
  obtain ⟨p, hp, hp'⟩ := hlib.solve_eq hsub fun k ↦ excess (free k)
  obtain ⟨q, hq, hq'⟩ : ∃ q, (if assets state .upper = [] then some 0
      else lib.solve (fun k l ↦ cov (free k) (free l)) fun k ↦
        ((assets state .upper).map fun u ↦ cov (free k) u * M).sum) = some q ∧
      ∀ k, ∑ l, cov (free k) (free l) * q l =
        ((assets state .upper).map fun u ↦ cov (free k) u * M).sum := by
    split_ifs with hupper
    · exact ⟨0, rfl, fun k ↦ by simp [hupper]⟩
    · obtain ⟨q, hq, hq'⟩ := hlib.solve_eq hsub fun k ↦
        ((assets state .upper).map fun u ↦ cov (free k) u * M).sum
      exact ⟨q, hq, congrFun hq'⟩
  refine ⟨p, q, congrFun hp', hq', ?_⟩
  simp only [solveFree, ← hget, hp, hq]

variable [IsStrictOrderedRing K]

theorem balanced_assemble (hlib : lib.Exact) (hcov : PositiveDefinite cov)
    (hsolve : solveFree lib excess cov M state = some (γ, wFree)) :
    Balanced excess cov M (holding state .free) (holding state .upper) γ
      (assemble M state wFree) := by
  have hsum := sum_solveFree hsolve
  refine ⟨fun i hi ↦ ?_, fun i hi ↦ ?_, fun i hfree hupper ↦ ?_, ?_⟩
  · obtain ⟨k, rfl⟩ := List.mem_iff_get.1 (mem_assets.2 (mem_holding.1 hi))
    obtain ⟨p, q, hp, hq, heq⟩ := exists_solutions hlib hcov excess M state
    rw [heq] at hsolve
    split_ifs at hsolve
    obtain ⟨rfl, rfl⟩ := Prod.mk.inj (Option.some.inj hsolve)
    rw [sum_mul_assemble, ← hq, ← hp, Finset.mul_sum, ← Finset.sum_add_distrib]
    refine Finset.sum_congr rfl fun l _ ↦ ?_
    ring
  · rw [mem_holding] at hi
    obtain ⟨k, rfl⟩ := List.mem_iff_get.1 (mem_assets.2 hi)
    exact scatter_get (assets_nodup _ _) _ _ k
  · rw [mem_holding] at hfree hupper
    rw [assemble, scatter_of_notMem _ _ fun h ↦ hupper (mem_assets.1 h),
      scatter_of_notMem _ _ fun h ↦ hfree (mem_assets.1 h), Pi.zero_apply]
  · rw [sum_assemble, hsum, budgetFree_eq, sub_add_cancel]

omit [IsStrictOrderedRing K] in
theorem Solid.solveFree_ne_none (h : Solid excess cov) (hlib : lib.Exact)
    (hcov : PositiveDefinite cov) (hfree : assets state .free ≠ []) :
    solveFree lib excess cov M state ≠ none := by
  obtain ⟨p, q, hp, -, heq⟩ := exists_solutions hlib hcov excess M state
  have hnodup := assets_nodup state .free
  have hsum (g : Fin n → K) : ∑ j ∈ holding state .free, g j * scatter (assets state .free) p 0 j =
      ∑ k, g ((assets state .free).get k) * p k := by
    rw [Finset.sum_subset (Finset.subset_univ _) fun j _ hj ↦ ?_, sum_mul_scatter hnodup]
    · simp
    · rw [scatter_of_notMem _ _ fun hmem ↦ hj (mem_holding.2 (mem_assets.1 hmem)), Pi.zero_apply,
        mul_zero]
  have htotal := h (holding state .free) (List.toFinset_nonempty_iff _ |>.2 hfree)
    (scatter (assets state .free) p 0) fun i hi ↦ by
      obtain ⟨k, rfl⟩ := List.mem_iff_get.1 (mem_assets.2 (mem_holding.1 hi))
      rw [hsum, hp]
  have hone := hsum fun _ ↦ 1
  simp only [one_mul] at hone
  rw [hone] at htotal
  rw [heq, if_neg htotal.not_gt]
  exact Option.some_ne_none _

end Moves

section Kept

variable {lib : Decompositions K} {excess : Fin n → K} {cov : Matrix (Fin n) (Fin n) K} {M γ : K}
  {state state' : Fin n → BoundState} {w : Fin n → K} {A R : Finset (Fin n)}

/-- No asset of `A` is at zero, and once an asset is at the cap, those outside `R` are. -/
structure Within (A R : Finset (Fin n)) (state : Fin n → BoundState) : Prop where
  kept : ∀ i ∈ A, state i ≠ .lower
  inside : (∀ i, state i ≠ .upper) ∨ ∀ i, state i ≠ .lower → i ∈ R

theorem disjoint_holding (state : Fin n → BoundState) :
    Disjoint (holding state .free) (holding state .upper) := by
  rw [Finset.disjoint_left]
  intro i hfree hupper
  rw [mem_holding] at hfree hupper
  exact absurd (hfree.symm.trans hupper) (by decide)

theorem mem_union_holding {i : Fin n} :
    i ∈ holding state .free ∪ holding state .upper ↔ state i ≠ .lower := by
  rw [Finset.mem_union, mem_holding, mem_holding]
  cases state i <;> simp

theorem Within.subset_union (h : Within A R state) :
    A ⊆ holding state .free ∪ holding state .upper := fun i hi ↦
  mem_union_holding.2 (h.kept i hi)

theorem holding_eq_empty {s : BoundState} (h : ∀ i, state i ≠ s) : holding state s = ∅ :=
  Finset.eq_empty_of_forall_notMem fun i hi ↦ h i (mem_holding.1 hi)

theorem Within.subset_free (h : Within A R state) (hupper : ∀ i, state i ≠ .upper) :
    A ⊆ holding state .free := by
  have hsubset := h.subset_union
  rwa [holding_eq_empty hupper, Finset.union_empty] at hsubset

theorem Within.inside_of_long (hkeeps : Keeps excess cov M A R) (h : Within A R state)
    (hw : Balanced excess cov M (holding state .free) (holding state .upper) γ w)
    (hlong : ∀ j, state j = .free → -1e-10 ≤ w j) : ∀ i, state i ≠ .lower → i ∈ R := by
  rcases h.inside with hupper | hinside
  · intro i hi
    rw [holding_eq_empty hupper] at hw
    by_contra hR
    have hfree : i ∈ holding state .free := by
      rw [mem_holding]
      cases hstate : state i with
      | free => rfl
      | lower => exact absurd hstate hi
      | upper => exact absurd hstate (hupper i)
    obtain ⟨j, hj, hneg⟩ := hkeeps.short (h.subset_free hupper) (fun hsub ↦ hR (hsub hfree)) hw
    exact (hlong j (mem_holding.1 hj)).not_gt hneg
  · exact hinside

variable [IsStrictOrderedRing K]

theorem Within.long (hkeeps : Keeps excess cov M A R) (h : Within A R state)
    (hbudget : 0 < budgetFree M state)
    (hw : Balanced excess cov M (holding state .free) (holding state .upper) γ w) :
    ∀ i ∈ A, -1e-10 ≤ w i := by
  rcases h.inside with hupper | hinside
  · rw [holding_eq_empty hupper] at hw
    exact hkeeps.long (h.subset_free hupper) hw
  · refine hkeeps.capped (disjoint_holding state) h.subset_union
      (fun i hi ↦ hinside i (mem_union_holding.1 hi)) ?_ hw
    rw [card_holding]
    rw [budgetFree_eq] at hbudget
    linarith

end Kept

section Failing

variable {lib : Decompositions K} {excess : Fin n → K} {cov : Matrix (Fin n) (Fin n) K} {M γ : K}
  {state state' : Fin n → BoundState} {w : Fin n → K} {A R : Finset (Fin n)}

def remaining (state : Fin n → BoundState) : Finset (Fin n) :=
  holding state .free ∪ holding state .upper

theorem card_remaining (state : Fin n → BoundState) :
    (remaining state).card = (assets state .free).length + (assets state .upper).length := by
  rw [remaining, Finset.card_union_of_disjoint (disjoint_holding state), card_holding,
    card_holding]

omit [LinearOrder K] in
theorem Balanced.sum_remaining
    (hw : Balanced excess cov M (holding state .free) (holding state .upper) γ w) :
    ∑ i ∈ remaining state, w i = 1 := by
  rw [← hw.sum_eq]
  refine Finset.sum_subset (Finset.subset_univ _) fun i _ hi ↦ ?_
  rw [remaining, Finset.mem_union, not_or] at hi
  exact hw.zero i hi.1 hi.2

/-- Assets are left that cannot fill a portfolio, or will be when the short ones are dropped. -/
structure Shrinking (M : K) (A R : Finset (Fin n)) (state : Fin n → BoundState) : Prop where
  nonempty : (remaining state).Nonempty
  few : Within A R state ∧ (∀ i, state i ≠ .upper) ∨ (remaining state).card * M < 1 - n / 10 ^ 9

variable [IsStrictOrderedRing K]

theorem few_of_long (hkeeps : Keeps excess cov M A R) (hM : 0 ≤ M)
    (hR : R.card * M < 1 - n / 10 ^ 9) (h : Shrinking M A R state)
    (hw : Balanced excess cov M (holding state .free) (holding state .upper) γ w)
    (hlong : ∀ j, state j = .free → -1e-10 ≤ w j) :
    (remaining state).card * M < 1 - n / 10 ^ 9 := by
  rcases h.few with ⟨hwithin, -⟩ | hfew
  · have hinside := hwithin.inside_of_long hkeeps hw hlong
    have hcard : (remaining state).card ≤ R.card :=
      Finset.card_le_card fun i hi ↦ hinside i (mem_union_holding.1 hi)
    exact (mul_le_mul_of_nonneg_right (Nat.cast_le.2 hcard) hM).trans_lt hR
  · exact hfew

theorem exists_over (hn : 0 < n) (hfew : (remaining state).card * M < 1 - n / 10 ^ 9)
    (hw : Balanced excess cov M (holding state .free) (holding state .upper) γ w) :
    ∃ j, state j = .free ∧ M + 1e-10 < w j := by
  by_contra! hle
  have hsum := hw.sum_remaining
  have hbound : ∑ i ∈ remaining state, w i ≤ (remaining state).card * (M + 1e-10) := by
    rw [← nsmul_eq_mul]
    refine Finset.sum_le_card_nsmul _ _ _ fun i hi ↦ ?_
    rcases Finset.mem_union.1 hi with hfree | hupper
    · exact hle i (mem_holding.1 hfree)
    · rw [hw.capped i hupper]
      exact le_add_of_nonneg_right (by positivity)
  have hcard : ((remaining state).card : K) ≤ n := by
    exact_mod_cast (Finset.card_le_univ _).trans_eq (Fintype.card_fin n)
  have hpos : (0 : K) < n := Nat.cast_pos.2 hn
  rw [tolerance_eq] at hbound
  have hsmall : ((remaining state).card : K) * (1 / 10 ^ 10) ≤ n * (1 / 10 ^ 10) :=
    mul_le_mul_of_nonneg_right hcard (by positivity)
  rw [mul_add] at hbound
  linarith

omit [IsStrictOrderedRing K] in
theorem sharpeRound_again {wFree : Fin (assets state .free).length → K}
    (hfree : assets state .free ≠ []) (hbudget : 0 < budgetFree M state)
    (hsolve : solveFree lib excess cov M state = some (γ, wFree))
    (hout : (∃ k, wFree k < -1e-10) ∨ ∃ k, M + 1e-10 < wFree k) :
    ∃ state', sharpeRound lib excess cov M state = .again state' := by
  unfold sharpeRound
  dsimp only
  rw [if_neg hfree, if_neg hbudget.not_ge, hsolve]
  dsimp only
  split
  · exact ⟨_, rfl⟩
  rename_i hlong
  split
  · exact ⟨_, rfl⟩
  rename_i hover
  rw [List.find?_eq_none] at hlong hover
  rcases hout with ⟨k, hk⟩ | ⟨k, hk⟩
  · exact absurd (decide_eq_true hk) (hlong k (List.mem_finRange k))
  · exact absurd (decide_eq_true hk) (hover k (List.mem_finRange k))

theorem Shrinking.budget_pos (h : Shrinking M A R state) (hM : 0 ≤ M) :
    0 < budgetFree M state := by
  rw [budgetFree_eq]
  rcases h.few with ⟨-, hupper⟩ | hfew
  · rw [← card_holding, holding_eq_empty hupper, Finset.card_empty, Nat.cast_zero, zero_mul,
      sub_zero]
    exact one_pos
  · have hfree : (0 : K) ≤ (assets state .free).length * M := mul_nonneg (Nat.cast_nonneg _) hM
    have hn : (0 : K) ≤ n / 10 ^ 9 := by positivity
    rw [card_remaining, Nat.cast_add, add_mul] at hfew
    linarith

section Run

variable (hlib : lib.Exact) (hcov : PositiveDefinite cov) (hkeeps : Keeps excess cov M A R)
  (hM : 0 ≤ M) (hR : R.card * M < 1 - n / 10 ^ 9)

include hlib hcov hkeeps hM hR

theorem Shrinking.again (hn : 0 < n) (hsolid : Solid excess cov) (h : Shrinking M A R state)
    (hfree : assets state .free ≠ []) :
    ∃ state', sharpeRound lib excess cov M state = .again state' := by
  obtain ⟨⟨γ, wFree⟩, hsolve⟩ := Option.ne_none_iff_exists'.1
    (hsolid.solveFree_ne_none (M := M) hlib hcov hfree)
  refine sharpeRound_again hfree (h.budget_pos hM) hsolve ?_
  have hw := balanced_assemble hlib hcov hsolve
  by_cases hlong : ∀ k, -1e-10 ≤ wFree k
  · obtain ⟨j, hj, hover⟩ := exists_over hn
      (few_of_long hkeeps hM hR h hw (forall_free (P := (-1e-10 ≤ ·)) hlong)) hw
    obtain ⟨k, rfl⟩ := List.mem_iff_get.1 (mem_assets.2 hj)
    rw [assemble_free] at hover
    exact .inr ⟨k, hover⟩
  · push Not at hlong
    exact .inl hlong

end Run

end Failing

section Uncorrelated

variable {excess d : Fin n → K} {M γ : K} {F U : Finset (Fin n)} {w : Fin n → K}

theorem Balanced.weight_eq (hd : ∀ i, 0 < d i)
    (hw : Balanced excess (Matrix.diagonal d) M F U γ w) {i : Fin n} (hi : i ∈ F) :
    w i = γ * (excess i / d i) := by
  have hfree : d i * w i = γ * excess i :=
    (Matrix.mulVec_diagonal d w i).symm.trans (hw.free i hi)
  rw [mul_div_assoc', ← hfree, mul_div_cancel_left₀ _ (hd i).ne']

theorem Balanced.total_eq (hd : ∀ i, 0 < d i) (hFU : Disjoint F U)
    (hw : Balanced excess (Matrix.diagonal d) M F U γ w) :
    γ * ∑ i ∈ F, excess i / d i = 1 - U.card * M := by
  have hsum : ∑ i ∈ F ∪ U, w i = 1 := by
    rw [← hw.sum_eq]
    refine Finset.sum_subset (Finset.subset_univ _) fun i _ hi ↦ ?_
    rw [Finset.mem_union, not_or] at hi
    exact hw.zero i hi.1 hi.2
  rw [Finset.sum_union hFU, Finset.sum_congr rfl fun i hi ↦ hw.weight_eq hd hi,
    Finset.sum_congr rfl hw.capped, Finset.sum_const, nsmul_eq_mul, ← Finset.mul_sum] at hsum
  exact eq_sub_of_add_eq hsum

variable [IsStrictOrderedRing K]

end Uncorrelated

section Result

variable [IsStrictOrderedRing K] {M : K} {A R : Finset (Fin n)}

end Result

end Zaciraci.Portfolio
