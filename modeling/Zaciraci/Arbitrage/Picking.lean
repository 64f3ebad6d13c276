import Mathlib.Data.List.TakeWhile
import Zaciraci.Arbitrage.SingleLoop

namespace Zaciraci.Arbitrage

open Lib Dex Zaciraci.Path Zaciraci.Path.Yocto

section Picking

variable {α : Type}

theorem mem_takeWhile_iff_pairwise {p : α → Bool} {l : List α} (hl : l.Nodup) :
    (∀ x, x ∈ l.takeWhile p ↔ x ∈ l ∧ p x = true) ↔
      l.Pairwise fun x y ↦ p y = true → p x = true := by
  induction l with
  | nil => simp
  | cons x l ih =>
    obtain ⟨hx, hl⟩ := List.nodup_cons.1 hl
    rw [List.pairwise_cons, ← ih hl]
    by_cases hpx : p x = true
    · rw [List.takeWhile_cons_of_pos hpx]
      constructor
      · intro h
        refine ⟨fun _ _ _ ↦ hpx, fun y ↦ ⟨fun hy ↦ ?_, fun hy ↦ ?_⟩⟩
        · exact ⟨List.takeWhile_subset p hy, List.mem_takeWhile_imp hy⟩
        · have hmem := (h y).2 ⟨List.mem_cons_of_mem x hy.1, hy.2⟩
          exact (List.mem_cons.1 hmem).resolve_left fun heq ↦ hx (heq ▸ hy.1)
      · rintro ⟨-, h⟩ y
        rw [List.mem_cons, List.mem_cons, h y, or_and_right]
        exact or_congr_left ⟨fun heq ↦ ⟨heq, heq ▸ hpx⟩, And.left⟩
    · rw [List.takeWhile_cons_of_neg hpx]
      constructor
      · intro h
        have hnone : ∀ y ∈ l, p y ≠ true := fun y hy hpy ↦
          List.not_mem_nil ((h y).2 ⟨List.mem_cons_of_mem x hy, hpy⟩)
        refine ⟨fun y hy hpy ↦ absurd hpy (hnone y hy), fun y ↦ ⟨fun hy ↦ ?_, fun hy ↦ ?_⟩⟩
        · exact ⟨List.takeWhile_subset p hy, List.mem_takeWhile_imp hy⟩
        · exact absurd hy.2 (hnone y hy.1)
      · rintro ⟨h, -⟩ y
        refine iff_of_false List.not_mem_nil fun hy ↦ hpx ?_
        rcases List.mem_cons.1 hy.1 with rfl | hmem
        · exact hy.2
        · exact h y hmem hy.2

variable {M : Type} [Yocto M] {std : Containers} {tokens : TokenGraph} {start : TokenAccount}
  {gasPrice : GasPrice} {amount : M}

def Previews (tokens : TokenGraph) (start : TokenAccount) (gasPrice : GasPrice) (amount : M)
    (e : TokenAccount × U128) (preview : Preview M) : Prop :=
  ∃ path, tokens.getPathWithReturn start e.1 = .ok path ∧
    preview = Preview.new gasPrice amount e.1 path.length e.2

/-- The goal is listed with an output that pays for the amount and the gas. -/
def Gains (tokens : TokenGraph) (start : TokenAccount) (gasPrice : GasPrice) (amount : M)
    (e : TokenAccount × U128) : Prop :=
  ∃ path, tokens.getPathWithReturn start e.1 = .ok path ∧
    0 < Preview.calcGain gasPrice path.length amount e.2

theorem Previews.token {e : TokenAccount × U128} {preview : Preview M}
    (h : Previews tokens start gasPrice amount e preview) : preview.token = e.1 := by
  obtain ⟨path, -, rfl⟩ := h
  rfl

theorem Previews.gain_pos_iff {e : TokenAccount × U128} {preview : Preview M}
    (h : Previews tokens start gasPrice amount e preview) :
    0 < preview.gain ↔ Gains tokens start gasPrice amount e := by
  obtain ⟨path, hpath, rfl⟩ := h
  constructor
  · intro hgain
    exact ⟨path, hpath, hgain⟩
  · rintro ⟨path', hpath', hgain⟩
    obtain rfl := Outcome.ok.inj (hpath.symm.trans hpath')
    exact hgain

variable {list : List (TokenAccount × U128)}

theorem exists_previews (gasPrice : GasPrice)
    (hlist : ∀ e ∈ list, tokens.Estimated (toU128 amount) start e.1 e.2) :
    ∃ previews, List.Forall₂ (Previews tokens start gasPrice amount) list previews := by
  induction list with
  | nil => exact ⟨[], .nil⟩
  | cons e list ih =>
    obtain ⟨⟨path, hpath, -⟩, hrest⟩ := List.forall_mem_cons.1 hlist
    obtain ⟨previews, hpreviews⟩ := ih hrest
    exact ⟨_, .cons ⟨path, hpath, rfl⟩ hpreviews⟩

variable {previews : List (Preview M)}

theorem pickPreviewsOf_eq (h : List.Forall₂ (Previews tokens start gasPrice amount) list previews) :
    pickPreviewsOf tokens start gasPrice amount list =
      .ok (previews.takeWhile fun p ↦ decide (0 < p.gain)) := by
  induction h with
  | nil => rfl
  | @cons e preview list previews hpreview _ ih =>
    obtain ⟨path, hpath, rfl⟩ := hpreview
    simp only [pickPreviewsOf, hpath, Outcome.ok_bind, ih]
    split_ifs with hgain
    · rw [List.takeWhile_cons, if_pos (decide_eq_true hgain)]
      rfl
    · rw [List.takeWhile_cons, if_neg fun h ↦ hgain (of_decide_eq_true h)]
      rfl

theorem map_token (h : List.Forall₂ (Previews tokens start gasPrice amount) list previews) :
    previews.map (·.token) = list.map Prod.fst := by
  induction h with
  | nil => rfl
  | cons hpreview _ ih => rw [List.map_cons, List.map_cons, hpreview.token, ih]

theorem mem_previews (h : List.Forall₂ (Previews tokens start gasPrice amount) list previews)
    {preview : Preview M} :
    preview ∈ previews ↔ ∃ e ∈ list, Previews tokens start gasPrice amount e preview := by
  induction h with
  | nil => simp
  | @cons e p list previews hp _ ih =>
    rw [List.mem_cons, ih]
    simp only [List.mem_cons, exists_eq_or_imp]
    refine or_congr_left ⟨fun heq ↦ heq ▸ hp, fun h ↦ ?_⟩
    obtain ⟨path, hpath, rfl⟩ := hp
    obtain ⟨path', hpath', rfl⟩ := h
    obtain rfl := Outcome.ok.inj (hpath.symm.trans hpath')
    rfl

theorem pairwise_previews (h : List.Forall₂ (Previews tokens start gasPrice amount) list previews) :
    (previews.Pairwise fun p q ↦ decide (0 < q.gain) = true → decide (0 < p.gain) = true) ↔
      list.Pairwise fun e e' ↦
        Gains tokens start gasPrice amount e' → Gains tokens start gasPrice amount e := by
  induction h with
  | nil => simp
  | @cons e p list previews hp hrest ih =>
    rw [List.pairwise_cons, List.pairwise_cons, ih]
    refine and_congr_left fun _ ↦ ?_
    simp only [decide_eq_true_eq, hp.gain_pos_iff]
    constructor
    · intro hfirst e' he' hgain
      obtain ⟨path, hpath, -⟩ := id hgain
      have hq : Previews tokens start gasPrice amount e'
          (Preview.new gasPrice amount e'.1 path.length e'.2) := ⟨path, hpath, rfl⟩
      exact hfirst _ ((mem_previews hrest).2 ⟨e', he', hq⟩) (hq.gain_pos_iff.2 hgain)
    · intro hfirst q hq hgain
      obtain ⟨e', he', hpreview⟩ := (mem_previews hrest).1 hq
      exact hfirst e' he' (hpreview.gain_pos_iff.1 hgain)

theorem listReturns_nodup {initial : U128} {goals : List TokenAccount}
    (h : tokens.listReturns std initial start goals = .ok list) : (list.map Prod.fst).Nodup := by
  obtain ⟨values, -, hlist⟩ := Outcome.bind_eq_ok.1 h
  obtain rfl := Outcome.ok.inj hlist
  have hperm : ((std.iter values.entries).insertionSort fun a b ↦ a.2 ≤ b.2).reverse.Perm
      values.entries :=
    (List.reverse_perm _).trans ((List.perm_insertionSort _ _).trans (std.iter_perm _))
  exact (hperm.map Prod.fst).nodup_iff.2 values.keys_nodup

end Picking

/-- Among the goals that are tried, each one with a gain is picked once and no other, just if none
with a gain comes after one without. -/
theorem pickByAmount_complete_iff {M : Type} [Yocto M] (std : Containers) (tokens : TokenGraph)
    (start : TokenAccount) (goals : List TokenAccount) (gasPrice : GasPrice) (amount : M)
    (limit : ℕ) {list : List (TokenAccount × U128)}
    (hlist : tokens.listReturns std (toU128 amount) start goals = .ok list) :
    ∃ previews, pickByAmount std tokens start goals gasPrice amount limit = .ok (some previews) ∧
      ((previews.list.map (·.token)).Nodup ∧
        (∀ preview, preview ∈ previews.list ↔ ∃ e ∈ list.take limit,
          Previews tokens start gasPrice amount e preview ∧ 0 < preview.gain) ↔
      (list.take limit).Pairwise fun e e' ↦
        Gains tokens start gasPrice amount e' → Gains tokens start gasPrice amount e) := by
  have hestimated : ∀ e ∈ list.take limit, tokens.Estimated (toU128 amount) start e.1 e.2 :=
    fun e he ↦ TokenGraph.estimated_of_listReturns hlist e (List.mem_of_mem_take he)
  obtain ⟨previews, hpreviews⟩ := exists_previews gasPrice hestimated
  have hnodup : (previews.map (·.token)).Nodup := by
    rw [map_token hpreviews, List.map_take]
    exact (listReturns_nodup hlist).sublist (List.take_sublist _ _)
  let picked := previews.takeWhile fun p ↦ decide (0 < p.gain)
  refine ⟨⟨amount, picked, (picked.map Preview.gain).sum⟩, ?_, ?_⟩
  · rw [pickByAmount, hlist, Outcome.ok_bind, pickPreviewsOf_eq hpreviews, Outcome.ok_bind]
    rfl
  · have hsub : picked.Sublist previews := List.takeWhile_sublist _
    rw [← pairwise_previews hpreviews, ← mem_takeWhile_iff_pairwise hnodup.of_map]
    dsimp only
    rw [and_iff_right (hnodup.sublist (hsub.map _))]
    refine forall_congr' fun preview ↦ ?_
    rw [mem_previews hpreviews, decide_eq_true_eq]
    refine iff_congr Iff.rfl ?_
    simp only [exists_and_right, ← and_assoc]

/-- Prices differ between the two pools of each pair, so that there is a gain from `s` to `a` and
back, and a larger one on the longer way to `b` and back. -/
def crossedPool : ℕ → PoolInfo
  | 0 => TokenGraph.twoTokenPool 0 ⟨"s"⟩ ⟨"a"⟩ (10 ^ 24) (3 * 10 ^ 24)
  | 1 => TokenGraph.twoTokenPool 1 ⟨"s"⟩ ⟨"a"⟩ (4 * 10 ^ 24) (12 * 10 ^ 23)
  | 2 => TokenGraph.twoTokenPool 2 ⟨"a"⟩ ⟨"b"⟩ (10 ^ 24) (103 * 10 ^ 22)
  | _ => TokenGraph.twoTokenPool 3 ⟨"a"⟩ ⟨"b"⟩ (106 * 10 ^ 22) (10 ^ 24)

def crossedPools : PoolInfoList := .new [crossedPool 0, crossedPool 1, crossedPool 2, crossedPool 3]

theorem crossedPools_run : ∃ tokens,
    (TokenGraph.new .lists crossedPools).updateGraph .lists 5 ⟨"s"⟩ =
      some (.ok [⟨"a"⟩, ⟨"b"⟩], tokens) ∧
      tokens.listReturns .lists (toU128 (⟨1000⟩ : MicroNear)) ⟨"s"⟩ [⟨"a"⟩, ⟨"b"⟩] =
        .ok [(⟨"b"⟩, 10683534072268306249942), (⟨"a"⟩, 9905598483205512533233)] ∧
      tokens.getPathWithReturn ⟨"s"⟩ ⟨"a"⟩ = .ok [⟨crossedPool 0, 0, 1⟩, ⟨crossedPool 1, 1, 0⟩] ∧
      tokens.getPathWithReturn ⟨"s"⟩ ⟨"b"⟩ = .ok [⟨crossedPool 0, 0, 1⟩, ⟨crossedPool 2, 0, 1⟩,
        ⟨crossedPool 3, 1, 0⟩, ⟨crossedPool 1, 1, 0⟩] := by
  let run := (TokenGraph.new .lists crossedPools).updateGraph .lists 5 ⟨"s"⟩
  have hrun : run.map Prod.fst = some (.ok [⟨"a"⟩, ⟨"b"⟩]) := by decide +kernel
  have hlist : run.map (fun r ↦
      r.2.listReturns .lists (toU128 (⟨1000⟩ : MicroNear)) ⟨"s"⟩ [⟨"a"⟩, ⟨"b"⟩]) =
      some (.ok [(⟨"b"⟩, 10683534072268306249942), (⟨"a"⟩, 9905598483205512533233)]) := by
    decide +kernel
  have ha : run.map (fun r ↦ r.2.getPathWithReturn ⟨"s"⟩ ⟨"a"⟩) =
      some (.ok [⟨crossedPool 0, 0, 1⟩, ⟨crossedPool 1, 1, 0⟩]) := by decide +kernel
  have hb : run.map (fun r ↦ r.2.getPathWithReturn ⟨"s"⟩ ⟨"b"⟩) =
      some (.ok [⟨crossedPool 0, 0, 1⟩, ⟨crossedPool 2, 0, 1⟩, ⟨crossedPool 3, 1, 0⟩,
        ⟨crossedPool 1, 1, 0⟩]) := by decide +kernel
  obtain ⟨⟨r, tokens⟩, h, rfl⟩ := Option.map_eq_some_iff.1 hrun
  rw [h] at hlist ha hb
  exact ⟨tokens, h, Option.some.inj hlist, Option.some.inj ha, Option.some.inj hb⟩

theorem pickByAmount_complete_cheapGas : ∃ tokens previews,
    pickByAmount .lists tokens ⟨"s"⟩ [⟨"a"⟩, ⟨"b"⟩] (10 ^ 8) (⟨1000⟩ : MicroNear) 2 =
      .ok (some previews) ∧ previews.list ≠ [] ∧
      ∀ preview, preview ∈ previews.list →
        ∃ e, Previews tokens ⟨"s"⟩ (10 ^ 8) (⟨1000⟩ : MicroNear) e preview := by
  obtain ⟨tokens, -, hlist, ha, hb⟩ := crossedPools_run
  obtain ⟨previews, hpick, hiff⟩ := pickByAmount_complete_iff .lists tokens ⟨"s"⟩ [⟨"a"⟩, ⟨"b"⟩]
    (10 ^ 8) (⟨1000⟩ : MicroNear) 2 hlist
  have hgain : Gains tokens ⟨"s"⟩ (10 ^ 8) (⟨1000⟩ : MicroNear)
      (⟨"b"⟩, 10683534072268306249942) := ⟨_, hb, by decide +kernel⟩
  obtain ⟨-, hmem⟩ := hiff.2 (List.pairwise_pair.2 fun _ ↦ hgain)
  refine ⟨tokens, previews, hpick, ?_, fun preview hpreview ↦ ?_⟩
  · refine List.ne_nil_of_mem ((hmem (.new (10 ^ 8) ⟨1000⟩ ⟨"b"⟩ 4 _)).2
      ⟨_, List.mem_cons_self, ⟨_, hb, rfl⟩, ?_⟩)
    decide +kernel
  · obtain ⟨e, -, he, -⟩ := (hmem preview).1 hpreview
    exact ⟨e, he⟩

/-- With dearer gas the longer way, which is listed first, no longer pays, and the shorter one,
which still does, is not reached. -/
theorem pickByAmount_drops_gain : ∃ tokens previews,
    (TokenGraph.new .lists crossedPools).updateGraph .lists 5 ⟨"s"⟩ =
      some (.ok [⟨"a"⟩, ⟨"b"⟩], tokens) ∧
      tokens.listReturns .lists (toU128 (⟨1000⟩ : MicroNear)) ⟨"s"⟩ [⟨"a"⟩, ⟨"b"⟩] =
        .ok [(⟨"b"⟩, 10683534072268306249942), (⟨"a"⟩, 9905598483205512533233)] ∧
      pickByAmount .lists tokens ⟨"s"⟩ [⟨"a"⟩, ⟨"b"⟩] (8 * 10 ^ 8) (⟨1000⟩ : MicroNear) 2 =
        .ok (some previews) ∧ previews.list = [] ∧
      Gains tokens ⟨"s"⟩ (8 * 10 ^ 8) (⟨1000⟩ : MicroNear) (⟨"a"⟩, 9905598483205512533233) := by
  obtain ⟨tokens, hrun, hlist, ha, hb⟩ := crossedPools_run
  refine ⟨tokens, ⟨⟨1000⟩, [], 0⟩, hrun, hlist, ?_, rfl, _, ha, by decide +kernel⟩
  have hpreviews : List.Forall₂ (Previews tokens ⟨"s"⟩ (8 * 10 ^ 8) (⟨1000⟩ : MicroNear))
      (List.take 2 [(⟨"b"⟩, 10683534072268306249942), (⟨"a"⟩, 9905598483205512533233)]) _ :=
    .cons ⟨_, hb, rfl⟩ (.cons ⟨_, ha, rfl⟩ .nil)
  rw [pickByAmount, hlist, Outcome.ok_bind, pickPreviewsOf_eq hpreviews]
  decide +kernel

end Zaciraci.Arbitrage
