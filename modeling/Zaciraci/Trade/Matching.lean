import Mathlib.Algebra.Order.BigOperators.Group.List
import Zaciraci.Lib.Ties
import Zaciraci.Trade.Execution

namespace Zaciraci.Trade

open Lib

section Worth

variable {α : Type} {p : TokenAccount → Bool} {token : α → TokenAccount}
  {nearValue : α → BigDecimal}

def worth (p : TokenAccount → Bool) (token : α → TokenAccount) (nearValue : α → BigDecimal)
    (l : List α) : BigDecimal :=
  (l.map fun x ↦ if p (token x) then nearValue x else 0).sum

@[simp] theorem worth_nil : worth p token nearValue [] = 0 := rfl

@[simp] theorem worth_cons (x : α) (l : List α) :
    worth p token nearValue (x :: l) =
      (if p (token x) then nearValue x else 0) + worth p token nearValue l := List.sum_cons

@[simp] theorem worth_append (l l' : List α) :
    worth p token nearValue (l ++ l') = worth p token nearValue l + worth p token nearValue l' := by
  simp [worth]

@[simp] theorem worth_map {β : Type} (f : β → α) (l : List β) :
    worth p token nearValue (l.map f) =
      worth p (fun x ↦ token (f x)) (fun x ↦ nearValue (f x)) l := by
  simp [worth, Function.comp_def]

variable {l : List α}

theorem worth_eq_zero (h : ∀ x ∈ l, p (token x) = false) :
    worth p token nearValue l = 0 := by
  induction l with
  | nil => rfl
  | cons x l ih =>
    rw [List.forall_mem_cons] at h
    rw [worth_cons, h.1, ih h.2]
    exact add_zero 0

theorem worth_of_mem (hnodup : (l.map token).Nodup) {x : α} (hx : x ∈ l) :
    worth (· = token x) token nearValue l = nearValue x := by
  induction l with
  | nil => cases hx
  | cons y l ih =>
    rw [List.map_cons, List.nodup_cons] at hnodup
    rw [worth_cons]
    rcases List.mem_cons.1 hx with rfl | hx
    · rw [worth_eq_zero, if_pos (decide_eq_true rfl), add_zero]
      intro y hy
      exact decide_eq_false fun h ↦ hnodup.1 (h ▸ List.mem_map_of_mem hy)
    · rw [ih hnodup.2 hx, if_neg, zero_add]
      rw [decide_eq_true_eq]
      exact fun h ↦ hnodup.1 (h ▸ List.mem_map_of_mem hx)

theorem worth_filter_of_mem (hnodup : (l.map token).Nodup) {x : α} (hx : x ∈ l) (q : α → Bool) :
    worth (· = token x) token nearValue (l.filter q) = if q x then nearValue x else 0 := by
  split_ifs with hq
  · exact worth_of_mem (hnodup.sublist (List.filter_sublist.map token)) (List.mem_filter.2 ⟨hx, hq⟩)
  · refine worth_eq_zero fun y hy ↦ decide_eq_false fun htoken ↦ hq ?_
    rw [← List.inj_on_of_nodup_map hnodup (List.mem_of_mem_filter hy) hx htoken]
    exact (List.mem_filter.1 hy).2

theorem worth_perm {l l' : List α} (h : l.Perm l') :
    worth p token nearValue l = worth p token nearValue l' := (h.map _).sum_eq

theorem worth_nonneg (h : ∀ x ∈ l, 0 ≤ nearValue x) :
    0 ≤ worth p token nearValue l := by
  refine List.sum_nonneg fun v hv ↦ ?_
  obtain ⟨x, hx, rfl⟩ := List.mem_map.1 hv
  split_ifs
  · exact h x hx
  · exact le_rfl

theorem worth_true_pos (hl : l ≠ []) (h : ∀ x ∈ l, 0 < nearValue x) :
    0 < worth (fun _ ↦ true) token nearValue l := by
  obtain ⟨x, l, rfl⟩ := List.exists_cons_of_ne_nil hl
  rw [List.forall_mem_cons] at h
  rw [worth_cons, if_pos rfl]
  exact add_pos_of_pos_of_nonneg h.1 (worth_nonneg fun y hy ↦ (h.2 y hy).le)

end Worth

abbrev SellOperation.worth (p : TokenAccount → Bool) : List SellOperation → BigDecimal :=
  Trade.worth p token nearValue

abbrev BuyOperation.worth (p : TokenAccount → Bool) : List BuyOperation → BigDecimal :=
  Trade.worth p token nearValue

abbrev DirectSwap.sold (p : TokenAccount → Bool) : List DirectSwap → BigDecimal :=
  Trade.worth p sellToken nearValue

abbrev DirectSwap.bought (p : TokenAccount → Bool) : List DirectSwap → BigDecimal :=
  Trade.worth p buyToken nearValue

/-- What the matching comes to: while both lists last, their first operations are swapped for
the smaller of the two values and keep what is left. One without value may be dropped. -/
inductive Matched : List SellOperation → List BuyOperation → MatchResult → Prop
  | sellsDone (buys : List BuyOperation) : Matched [] buys ⟨[], [], buys⟩
  | buysDone (sells : List SellOperation) : Matched sells [] ⟨[], sells, []⟩
  | dropSell {sell : SellOperation} {sells : List SellOperation} {buys : List BuyOperation}
      {result : MatchResult} : sell.nearValue = 0 → Matched sells buys result →
      Matched (sell :: sells) buys result
  | dropBuy {buy : BuyOperation} {sells : List SellOperation} {buys : List BuyOperation}
      {result : MatchResult} : buy.nearValue = 0 → Matched sells buys result →
      Matched sells (buy :: buys) result
  | swap {sell : SellOperation} {sells : List SellOperation} {buy : BuyOperation}
      {buys : List BuyOperation} {m : BigDecimal} {result : MatchResult}
      (hm : m = min sell.nearValue buy.nearValue) : 0 < m →
      Matched (remainder (sell.nearValue - m) { sell with nearValue := sell.nearValue - m } sells)
        (remainder (buy.nearValue - m) { buy with nearValue := buy.nearValue - m } buys) result →
      Matched (sell :: sells) (buy :: buys)
        ⟨⟨sell.token, buy.token, m, sell.exchangeRate⟩ :: result.directSwaps,
          result.remainingSells, result.remainingBuys⟩

section Remainder

variable {α : Type} {v : BigDecimal} {operation : α} {rest : List α}

theorem remainder_of_pos (h : 0 < v) : remainder v operation rest = operation :: rest := if_pos h

@[simp] theorem remainder_zero : remainder 0 operation rest = rest := if_neg (lt_irrefl 0)

theorem forall_remainder {P : α → Prop} (h : 0 < v → P operation) (hrest : ∀ x ∈ rest, P x) :
    ∀ x ∈ remainder v operation rest, P x := by
  rw [remainder]
  split_ifs with hv
  · exact List.forall_mem_cons.2 ⟨h hv, hrest⟩
  · exact hrest

theorem worth_remainder {p : TokenAccount → Bool} {m : BigDecimal} {kept : α}
    (token : α → TokenAccount) (nearValue : α → BigDecimal) (operation : α)
    (htoken : token kept = token operation) (hvalue : nearValue kept = nearValue operation - m)
    (hm : m ≤ nearValue operation) :
    worth p token nearValue (remainder (nearValue operation - m) kept rest) =
      worth p token nearValue (operation :: rest) - if p (token operation) then m else 0 := by
  rcases hm.eq_or_lt with rfl | hlt
  · rw [sub_self, remainder_zero, worth_cons, add_sub_cancel_left]
  · rw [remainder_of_pos (sub_pos.2 hlt), worth_cons, worth_cons, htoken, hvalue]
    split_ifs <;> ring

theorem SellOperation.worth_remainder {p : TokenAccount → Bool} {sell : SellOperation}
    {sells : List SellOperation} {m : BigDecimal} (hm : m ≤ sell.nearValue) :
    SellOperation.worth p
        (remainder (sell.nearValue - m) { sell with nearValue := sell.nearValue - m } sells) =
      SellOperation.worth p (sell :: sells) - if p sell.token then m else 0 :=
  Trade.worth_remainder token nearValue sell rfl rfl hm

theorem BuyOperation.worth_remainder {p : TokenAccount → Bool} {buy : BuyOperation}
    {buys : List BuyOperation} {m : BigDecimal} (hm : m ≤ buy.nearValue) :
    BuyOperation.worth p
        (remainder (buy.nearValue - m) { buy with nearValue := buy.nearValue - m } buys) =
      BuyOperation.worth p (buy :: buys) - if p buy.token then m else 0 :=
  Trade.worth_remainder token nearValue buy rfl rfl hm

end Remainder

section Loop

variable {directSwaps : List DirectSwap} {sell : SellOperation} {sells : List SellOperation}
  {buy : BuyOperation} {buys : List BuyOperation} {s b : BigDecimal} {final : MatchResult}

theorem matched_round (hs : 0 ≤ s) (hb : 0 ≤ b)
    (h : ∃ result, Matched (remainder (s - min s b) { sell with nearValue := s - min s b } sells)
        (remainder (b - min s b) { buy with nearValue := b - min s b } buys) result ∧
      final = { result with directSwaps := (if 0 < min s b then directSwaps ++
        [⟨sell.token, buy.token, min s b, sell.exchangeRate⟩] else directSwaps) ++
          result.directSwaps }) :
    ∃ result, Matched ({ sell with nearValue := s } :: sells) ({ buy with nearValue := b } :: buys)
        result ∧ final = { result with directSwaps := directSwaps ++ result.directSwaps } := by
  obtain ⟨result, hmatched, rfl⟩ := h
  split_ifs with hm
  · exact ⟨_, .swap rfl hm hmatched, by simp⟩
  · have hzero : min s b = 0 := le_antisymm (not_lt.1 hm) (le_min hs hb)
    rw [hzero, sub_zero, sub_zero] at hmatched
    refine ⟨result, ?_, rfl⟩
    rcases min_eq_iff.1 hzero with ⟨rfl, -⟩ | ⟨rfl, -⟩
    · rw [remainder_zero] at hmatched
      refine .dropSell rfl ?_
      rcases hb.eq_or_lt with rfl | hpos
      · rw [remainder_zero] at hmatched
        exact .dropBuy rfl hmatched
      · rwa [remainder_of_pos hpos] at hmatched
    · rw [remainder_zero] at hmatched
      refine .dropBuy rfl ?_
      rcases hs.eq_or_lt with rfl | hpos
      · rw [remainder_zero] at hmatched
        exact .dropSell rfl hmatched
      · rwa [remainder_of_pos hpos] at hmatched

theorem sub_min_ne_zero (h : s - min s b ≠ 0) : 0 < s - min s b ∧ b - min s b = 0 := by
  rcases le_total s b with hle | hle
  · simp [hle] at h
  · rw [min_eq_right hle] at h ⊢
    exact ⟨lt_of_le_of_ne (sub_nonneg.2 hle) h.symm, sub_self b⟩

theorem matched_matchOperations (directSwaps : List DirectSwap) (sell : SellOperation)
    (s : BigDecimal) (sells : List SellOperation) (buy : BuyOperation) (b : BigDecimal)
    (buys : List BuyOperation) (hs : 0 ≤ s) (hb : 0 ≤ b)
    (hsells : ∀ x ∈ sells, 0 ≤ x.nearValue) (hbuys : ∀ x ∈ buys, 0 ≤ x.nearValue) :
    ∃ result, Matched ({ sell with nearValue := s } :: sells) ({ buy with nearValue := b } :: buys)
        result ∧
      matchOperations directSwaps sell s sells buy b buys =
        { result with directSwaps := directSwaps ++ result.directSwaps } := by
  fun_induction matchOperations directSwaps sell s sells buy b buys with
  | case1 directSwaps sell s buy b buys m swaps sellLeft buyLeft hzero =>
    apply matched_round hs hb
    rw [show s - min s b = 0 from hzero, remainder_zero]
    exact ⟨_, .sellsDone _, by simp [swaps, m, buyLeft]⟩
  | case2 directSwaps sell s buy b m swaps sellLeft buyLeft hzero next sells hbuyLeft =>
    apply matched_round hs hb
    rw [show s - min s b = 0 from hzero, show b - min s b = 0 from hbuyLeft, remainder_zero,
      remainder_zero]
    rw [List.forall_mem_cons] at hsells
    rcases hsells.1.eq_or_lt with hnext | hnext
    · exact ⟨_, .dropSell hnext.symm (.buysDone _), by simp [swaps, m, ← hnext]⟩
    · exact ⟨_, .buysDone _, by simp [swaps, m, remainder_of_pos hnext]⟩
  | case3 directSwaps sell s buy b m swaps sellLeft buyLeft hzero next sells hbuyLeft nextBuy buys
      ih =>
    rw [List.forall_mem_cons] at hsells hbuys
    apply matched_round hs hb
    rw [show s - min s b = 0 from hzero, show b - min s b = 0 from hbuyLeft, remainder_zero,
      remainder_zero]
    exact ih hsells.1 hbuys.1 hsells.2 hbuys.2
  | case4 directSwaps sell s buy b buys m swaps sellLeft buyLeft hzero next sells hbuyLeft ih =>
    rw [List.forall_mem_cons] at hsells
    apply matched_round hs hb
    have hpos : 0 < buyLeft := lt_of_le_of_ne (sub_nonneg.2 (min_le_right s b)) (Ne.symm hbuyLeft)
    rw [show s - min s b = 0 from hzero, remainder_zero, remainder_of_pos hpos]
    exact ih hsells.1 hpos.le hsells.2 hbuys
  | case5 directSwaps sell s sells buy b m swaps sellLeft hne =>
    apply matched_round hs hb
    rw [(sub_min_ne_zero hne).2, remainder_zero]
    exact ⟨_, .buysDone _, by simp [swaps, m, sellLeft]⟩
  | case6 directSwaps sell s sells buy b m swaps sellLeft hne nextBuy buys ih =>
    rw [List.forall_mem_cons] at hbuys
    apply matched_round hs hb
    rw [(sub_min_ne_zero hne).2, remainder_zero, remainder_of_pos (sub_min_ne_zero hne).1]
    exact ih (sub_min_ne_zero hne).1.le hbuys.1 hsells hbuys.2

theorem matched_matchSorted (hsells : ∀ x ∈ sells, 0 ≤ x.nearValue)
    (hbuys : ∀ x ∈ buys, 0 ≤ x.nearValue) : Matched sells buys (matchSorted sells buys) := by
  rcases sells with _ | ⟨sell, sells⟩
  · exact .sellsDone buys
  rcases buys with _ | ⟨buy, buys⟩
  · exact .buysDone _
  rw [List.forall_mem_cons] at hsells hbuys
  obtain ⟨result, hmatched, heq⟩ := matched_matchOperations [] sell sell.nearValue sells buy
    buy.nearValue buys hsells.1 hbuys.1 hsells.2 hbuys.2
  rw [matchSorted, heq]
  exact hmatched

end Loop

/-- What the matching may come to. Unless one side has nothing, both are sorted by value, where
equal values come in any order. -/
inductive MayMatch (sells : List SellOperation) (buys : List BuyOperation) : MatchResult → Prop
  | oneSided : sells = [] ∨ buys = [] → MayMatch sells buys ⟨[], sells, buys⟩
  | sorted {sells' : List SellOperation} {buys' : List BuyOperation} :
      Descending SellOperation.nearValue sells sells' →
      Descending BuyOperation.nearValue buys buys' →
      MayMatch sells buys (matchSorted sells' buys')

theorem mayMatch_matchRebalanceOperations (sells : List SellOperation) (buys : List BuyOperation) :
    MayMatch sells buys (matchRebalanceOperations sells buys) := by
  rw [matchRebalanceOperations]
  split_ifs with hempty
  · exact .oneSided (by simpa using hempty)
  · exact .sorted (.insertionSort _ _) (.insertionSort _ _)

namespace Matched

variable {sells : List SellOperation} {buys : List BuyOperation} {result : MatchResult}
  {p : TokenAccount → Bool}

theorem sold (h : Matched sells buys result) :
    DirectSwap.sold p result.directSwaps + SellOperation.worth p result.remainingSells =
      SellOperation.worth p sells := by
  induction h with
  | sellsDone buys => simp
  | buysDone sells => simp
  | dropSell hzero _ ih => rw [ih, SellOperation.worth, worth_cons, hzero, ite_self, zero_add]
  | dropBuy _ _ ih => exact ih
  | swap hm _ _ ih =>
    rw [SellOperation.worth_remainder (hm.trans_le (min_le_left _ _))] at ih
    rw [DirectSwap.sold, worth_cons, add_assoc, ih, add_sub_cancel]

theorem bought (h : Matched sells buys result) :
    DirectSwap.bought p result.directSwaps + BuyOperation.worth p result.remainingBuys =
      BuyOperation.worth p buys := by
  induction h with
  | sellsDone buys => simp
  | buysDone sells => simp
  | dropSell _ _ ih => exact ih
  | dropBuy hzero _ ih => rw [ih, BuyOperation.worth, worth_cons, hzero, ite_self, zero_add]
  | swap hm _ _ ih =>
    rw [BuyOperation.worth_remainder (hm.trans_le (min_le_right _ _))] at ih
    rw [DirectSwap.bought, worth_cons, add_assoc, ih, add_sub_cancel]

theorem forall_sales {P : TokenAccount → ExchangeRate → Prop} (h : Matched sells buys result)
    (hsells : ∀ x ∈ sells, 0 < x.nearValue ∧ P x.token x.exchangeRate)
    (hbuys : ∀ x ∈ buys, 0 < x.nearValue) :
    (∀ d ∈ result.directSwaps, 0 < d.nearValue ∧ P d.sellToken d.sellExchangeRate) ∧
      (∀ x ∈ result.remainingSells, 0 < x.nearValue ∧ P x.token x.exchangeRate) ∧
      ∀ x ∈ result.remainingBuys, 0 < x.nearValue := by
  induction h with
  | sellsDone buys => exact ⟨nofun, nofun, hbuys⟩
  | buysDone sells => exact ⟨nofun, hsells, nofun⟩
  | dropSell _ _ ih => exact ih (List.forall_mem_cons.1 hsells).2 hbuys
  | dropBuy _ _ ih => exact ih hsells (List.forall_mem_cons.1 hbuys).2
  | swap _ hpos _ ih =>
    rw [List.forall_mem_cons] at hsells hbuys
    obtain ⟨hswaps, hrest⟩ := ih (forall_remainder (fun hv ↦ ⟨hv, hsells.1.2⟩) hsells.2)
      (forall_remainder id hbuys.2)
    exact ⟨List.forall_mem_cons.2 ⟨⟨hpos, hsells.1.2⟩, hswaps⟩, hrest⟩

theorem one_side (h : Matched sells buys result) :
    result.remainingSells = [] ∨ result.remainingBuys = [] := by
  induction h with
  | sellsDone buys => exact .inl rfl
  | buysDone sells => exact .inr rfl
  | dropSell _ _ ih => exact ih
  | dropBuy _ _ ih => exact ih
  | swap _ _ _ ih => exact ih

end Matched

theorem MayMatch.matched {sells : List SellOperation} {buys : List BuyOperation}
    {result : MatchResult} (h : MayMatch sells buys result)
    (hsells : ∀ x ∈ sells, 0 ≤ x.nearValue) (hbuys : ∀ x ∈ buys, 0 ≤ x.nearValue) :
    ∃ sells' buys', sells'.Perm sells ∧ buys'.Perm buys ∧ Matched sells' buys' result := by
  cases h with
  | oneSided hempty =>
    refine ⟨sells, buys, .refl _, .refl _, ?_⟩
    rcases hempty with rfl | rfl
    · exact .sellsDone buys
    · exact .buysDone sells
  | sorted hs hb =>
    exact ⟨_, _, hs.perm, hb.perm, matched_matchSorted
      (fun x hx ↦ hsells x (hs.perm.subset hx)) fun x hx ↦ hbuys x (hb.perm.subset hx)⟩

/-- What is left of the purchases, taken in their order, when sales of value `s` are set
against them. -/
def unmatched (s : BigDecimal) : List BuyOperation → List BuyOperation
  | [] => []
  | buy :: buys =>
    if buy.nearValue ≤ s then unmatched (s - buy.nearValue) buys
    else { buy with nearValue := buy.nearValue - s } :: buys

theorem unmatched_zero {buys : List BuyOperation} (hbuys : ∀ x ∈ buys, 0 < x.nearValue) :
    unmatched 0 buys = buys := by
  cases buys with
  | nil => rfl
  | cons buy buys =>
    rw [unmatched, if_neg (hbuys buy List.mem_cons_self).not_ge, sub_zero]

theorem forall_unmatched {P : TokenAccount → Prop} {s : BigDecimal} {buys : List BuyOperation}
    (h : ∀ x ∈ buys, P x.token) : ∀ x ∈ unmatched s buys, P x.token := by
  induction buys generalizing s with
  | nil => exact h
  | cons buy buys ih =>
    rw [List.forall_mem_cons] at h
    rw [unmatched]
    split_ifs
    · exact ih h.2
    · exact List.forall_mem_cons.2 h

theorem worth_unmatched_of_mem {s : BigDecimal} {l m : List BuyOperation} {buy : BuyOperation}
    (hs : 0 ≤ s) (hl : ∀ x ∈ l, 0 < x.nearValue) (hbuy : 0 < buy.nearValue)
    (hl' : ∀ x ∈ l, x.token ≠ buy.token) (hm : ∀ x ∈ m, x.token ≠ buy.token) :
    BuyOperation.worth (· = buy.token) (unmatched s (l ++ buy :: m)) =
      max 0 (min buy.nearValue
        (BuyOperation.worth (fun _ ↦ true) l + buy.nearValue - s)) := by
  simp only [BuyOperation.worth]
  induction l generalizing s with
  | nil =>
    rw [List.nil_append, unmatched, worth_nil, zero_add]
    split_ifs with hle
    · have hnone : ∀ x ∈ unmatched (s - buy.nearValue) m, x.token ≠ buy.token :=
        forall_unmatched (P := (· ≠ buy.token)) hm
      rw [worth_eq_zero fun x hx ↦ decide_eq_false (hnone x hx), min_eq_right (by linarith),
        max_eq_left (by linarith)]
    · rw [worth_cons, worth_eq_zero fun x hx ↦ decide_eq_false (hm x hx),
        if_pos (decide_eq_true rfl), add_zero, min_eq_right (by linarith),
        max_eq_right (by linarith)]
  | cons x l ih =>
    rw [List.forall_mem_cons] at hl hl'
    rw [List.cons_append, unmatched, worth_cons _ l, if_pos rfl]
    split_ifs with hle
    · rw [ih (by linarith) hl.2 hl'.2]
      congr 2
      ring
    · have hrest : 0 ≤ Trade.worth (fun _ ↦ true) BuyOperation.token BuyOperation.nearValue l :=
        worth_nonneg fun x hx ↦ (hl.2 x hx).le
      rw [worth_cons, worth_append, worth_cons, if_neg, if_pos (decide_eq_true rfl),
        worth_eq_zero fun x hx ↦ decide_eq_false (hl'.2 x hx),
        worth_eq_zero fun x hx ↦ decide_eq_false (hm x hx), min_eq_left (by linarith),
        max_eq_right hbuy.le]
      · ring
      · simpa using hl'.1

theorem worth_unmatched {s : BigDecimal} {buys : List BuyOperation} (hs : 0 ≤ s)
    (hbuys : ∀ x ∈ buys, 0 < x.nearValue) :
    BuyOperation.worth (fun _ ↦ true) (unmatched s buys) =
      max 0 (BuyOperation.worth (fun _ ↦ true) buys - s) := by
  simp only [BuyOperation.worth]
  induction buys generalizing s with
  | nil => rw [unmatched, worth_nil, zero_sub, max_eq_left (neg_nonpos.2 hs)]
  | cons buy buys ih =>
    rw [List.forall_mem_cons] at hbuys
    have hrest : 0 ≤ Trade.worth (fun _ ↦ true) BuyOperation.token BuyOperation.nearValue buys :=
      worth_nonneg fun x hx ↦ (hbuys.2 x hx).le
    rw [unmatched, worth_cons, if_pos rfl]
    split_ifs with hle
    · rw [ih (sub_nonneg.2 hle) hbuys.2]
      congr 1
      ring
    · rw [worth_cons, if_pos rfl, max_eq_right (by linarith)]
      ring

theorem Matched.remainingBuys_eq {sells : List SellOperation} {buys : List BuyOperation}
    {result : MatchResult} (h : Matched sells buys result)
    (hsells : ∀ x ∈ sells, 0 < x.nearValue) (hbuys : ∀ x ∈ buys, 0 < x.nearValue) :
    result.remainingBuys = unmatched (SellOperation.worth (fun _ ↦ true) sells) buys := by
  induction h with
  | sellsDone buys => exact (unmatched_zero hbuys).symm
  | buysDone sells => rfl
  | dropSell hzero _ _ => exact absurd hzero (hsells _ List.mem_cons_self).ne'
  | dropBuy hzero _ _ => exact absurd hzero (hbuys _ List.mem_cons_self).ne'
  | @swap sell sells buy buys m result hm _ _ ih =>
    rw [List.forall_mem_cons] at hsells hbuys
    have hrest : 0 ≤ SellOperation.worth (fun _ ↦ true) sells :=
      worth_nonneg fun x hx ↦ (hsells.2 x hx).le
    have ih := ih (forall_remainder id hsells.2) (forall_remainder id hbuys.2)
    rw [SellOperation.worth_remainder (hm.trans_le (min_le_left _ _)), if_pos rfl] at ih
    have htotal : SellOperation.worth (fun _ ↦ true) (sell :: sells) =
      sell.nearValue + SellOperation.worth (fun _ ↦ true) sells := worth_cons _ _
    rw [ih, unmatched]
    rcases le_or_gt buy.nearValue sell.nearValue with hle | hlt
    · rw [min_eq_right hle] at hm
      rw [if_pos (by linarith), hm, sub_self, remainder_zero]
    · rw [min_eq_left hlt.le] at hm
      rw [hm, remainder_of_pos (sub_pos.2 hlt), unmatched]
      simp only [sub_le_sub_iff_right, sub_sub_sub_cancel_right]

section Rest

variable {sells sells' : List SellOperation} {buys buys' : List BuyOperation}
  {result : MatchResult}

theorem remainingBuys_matchSorted (hs : Descending SellOperation.nearValue sells sells')
    (hb : Descending BuyOperation.nearValue buys buys') (hsells : ∀ x ∈ sells, 0 < x.nearValue)
    (hbuys : ∀ x ∈ buys, 0 < x.nearValue) : (matchSorted sells' buys').remainingBuys =
      unmatched (SellOperation.worth (fun _ ↦ true) sells) buys' := by
  have hs' := fun x hx ↦ hsells x (hs.perm.subset hx)
  have hb' := fun x hx ↦ hbuys x (hb.perm.subset hx)
  have hworth : SellOperation.worth (fun _ ↦ true) sells' =
    SellOperation.worth (fun _ ↦ true) sells := worth_perm hs.perm
  have hmatched := matched_matchSorted (fun x hx ↦ (hs' x hx).le) fun x hx ↦ (hb' x hx).le
  rw [hmatched.remainingBuys_eq hs' hb', hworth]

theorem MayMatch.exists_remainingBuys (h : MayMatch sells buys result)
    (hsells : ∀ x ∈ sells, 0 < x.nearValue) (hbuys : ∀ x ∈ buys, 0 < x.nearValue) :
    ∃ buys', Descending BuyOperation.nearValue buys buys' ∧ ∀ p,
      BuyOperation.worth p result.remainingBuys =
        BuyOperation.worth p (unmatched (SellOperation.worth (fun _ ↦ true) sells) buys') := by
  cases h with
  | oneSided hempty =>
    refine ⟨_, .insertionSort _ _, fun p ↦ ?_⟩
    have hsorted := List.perm_insertionSort
      (fun a b : BuyOperation ↦ b.nearValue ≤ a.nearValue) buys
    rcases hempty with rfl | rfl
    · rw [SellOperation.worth, worth_nil, unmatched_zero fun x hx ↦ hbuys x (hsorted.subset hx)]
      exact (worth_perm hsorted).symm
    · rfl
  | sorted hs hb => exact ⟨_, hb, fun p ↦ by rw [remainingBuys_matchSorted hs hb hsells hbuys]⟩

theorem exists_matching (hbuys : Descending BuyOperation.nearValue buys buys') :
    ∃ matching : List SellOperation → List BuyOperation → MatchResult,
      (∀ sells buys, MayMatch sells buys (matching sells buys)) ∧
      ∀ sells, matching sells buys =
        matchSorted (sells.insertionSort fun a b ↦ b.nearValue ≤ a.nearValue) buys' := by
  classical
  refine ⟨fun sells orders ↦ if orders = buys then
    matchSorted (sells.insertionSort fun a b ↦ b.nearValue ≤ a.nearValue) buys'
    else matchRebalanceOperations sells orders, fun sells orders ↦ ?_, fun sells ↦ if_pos rfl⟩
  dsimp only
  split_ifs with h
  · exact .sorted (.insertionSort _ _) (h ▸ hbuys)
  · exact mayMatch_matchRebalanceOperations sells orders

theorem MayMatch.worth_remainingBuys_eq_zero {token : TokenAccount}
    (h : MayMatch sells buys result) (hsells : ∀ x ∈ sells, 0 < x.nearValue)
    (hbuys : ∀ x ∈ buys, 0 < x.nearValue) (hnone : ∀ x ∈ buys, x.token ≠ token) :
    BuyOperation.worth (· = token) result.remainingBuys = 0 := by
  obtain ⟨buys', hdescending, hworth⟩ := h.exists_remainingBuys hsells hbuys
  have hleft : ∀ x ∈ unmatched (SellOperation.worth (fun _ ↦ true) sells) buys', x.token ≠ token :=
    forall_unmatched (P := (· ≠ token)) fun x hx ↦ hnone x (hdescending.perm.subset hx)
  rw [hworth]
  exact worth_eq_zero fun x hx ↦ decide_eq_false (hleft x hx)

end Rest

end Zaciraci.Trade
