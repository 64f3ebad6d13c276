import Mathlib.Algebra.BigOperators.Fin
import Zaciraci.Trade.Matching

namespace Zaciraci.Trade

open Lib

section Tally

variable {ι α : Type} [DecidableEq ι] {i : ι} {label : α → ι} {value : α → BigDecimal}

def tally (i : ι) (label : α → ι) (value : α → BigDecimal) (l : List α) : BigDecimal :=
  (l.map fun x ↦ if label x = i then value x else 0).sum

@[simp] theorem tally_nil : tally i label value [] = 0 := rfl

@[simp] theorem tally_cons (x : α) (l : List α) :
    tally i label value (x :: l) = (if label x = i then value x else 0) + tally i label value l :=
  List.sum_cons

theorem tally_perm {l l' : List α} (h : l.Perm l') :
    tally i label value l = tally i label value l' := (h.map _).sum_eq

theorem tally_finRange {n : ℕ} (f : Fin n → α) (i : Fin n) (value : Fin n × α → BigDecimal) :
    tally i Prod.fst value ((List.finRange n).map fun j ↦ (j, f j)) = value (i, f i) := by
  rw [tally, List.map_map, ← List.ofFn_eq_map, List.sum_ofFn]
  simp

end Tally

/-- A direct swap with the labels of the sale and of the purchase it comes from. -/
structure Link (ι κ : Type) where
  sale : ι
  purchase : κ
  swap : DirectSwap

variable {ι κ : Type}

/-- A matching of labelled operations. What is left of an operation keeps its label, and one
without value may be dropped. -/
inductive Attributed : List (ι × SellOperation) → List (κ × BuyOperation) → List (Link ι κ) →
    List (ι × SellOperation) → List (κ × BuyOperation) → Prop
  | sellsDone (buys : List (κ × BuyOperation)) : Attributed [] buys [] [] buys
  | buysDone (sells : List (ι × SellOperation)) : Attributed sells [] [] sells []
  | dropSell {sell : ι × SellOperation} {sells leftSells : List (ι × SellOperation)}
      {buys leftBuys : List (κ × BuyOperation)} {links : List (Link ι κ)} :
      sell.2.nearValue = 0 → Attributed sells buys links leftSells leftBuys →
      Attributed (sell :: sells) buys links leftSells leftBuys
  | dropBuy {buy : κ × BuyOperation} {sells leftSells : List (ι × SellOperation)}
      {buys leftBuys : List (κ × BuyOperation)} {links : List (Link ι κ)} :
      buy.2.nearValue = 0 → Attributed sells buys links leftSells leftBuys →
      Attributed sells (buy :: buys) links leftSells leftBuys
  | swap {i : ι} {sell : SellOperation} {sells leftSells : List (ι × SellOperation)} {j : κ}
      {buy : BuyOperation} {buys leftBuys : List (κ × BuyOperation)} {m : BigDecimal}
      {links : List (Link ι κ)} (hm : m = min sell.nearValue buy.nearValue) : 0 < m →
      Attributed
        (remainder (sell.nearValue - m) (i, { sell with nearValue := sell.nearValue - m }) sells)
        (remainder (buy.nearValue - m) (j, { buy with nearValue := buy.nearValue - m }) buys) links
        leftSells leftBuys →
      Attributed ((i, sell) :: sells) ((j, buy) :: buys)
        (⟨i, j, sell.token, buy.token, m, sell.exchangeRate⟩ :: links) leftSells leftBuys

theorem map_remainder {α β : Type} (f : α → β) (v : BigDecimal) (operation : α) (rest : List α) :
    (remainder v operation rest).map f = remainder v (f operation) (rest.map f) := by
  rw [remainder, remainder]
  split_ifs <;> rfl

def Explains (is : List (ι × SellOperation)) (js : List (κ × BuyOperation))
    (final : MatchResult) : Prop :=
  ∃ links leftSells leftBuys, Attributed is js links leftSells leftBuys ∧
    final = ⟨links.map Link.swap, leftSells.map Prod.snd, leftBuys.map Prod.snd⟩

theorem Matched.explains {sells : List SellOperation} {buys : List BuyOperation}
    {result : MatchResult} (h : Matched sells buys result) :
    ∀ (is : List (ι × SellOperation)) (js : List (κ × BuyOperation)),
      is.map Prod.snd = sells → js.map Prod.snd = buys → Explains is js result := by
  induction h with
  | sellsDone buys =>
    rintro is js his rfl
    obtain rfl := List.map_eq_nil_iff.1 his
    exact ⟨[], [], js, .sellsDone js, rfl⟩
  | buysDone sells =>
    rintro is js rfl hjs
    obtain rfl := List.map_eq_nil_iff.1 hjs
    exact ⟨[], is, [], .buysDone is, rfl⟩
  | dropSell hzero _ ih =>
    rintro is js his rfl
    obtain ⟨⟨i, _⟩, is, rfl, rfl, rfl⟩ := List.map_eq_cons_iff.1 his
    obtain ⟨links, leftSells, leftBuys, hattr, heq⟩ := ih is js rfl rfl
    exact ⟨links, leftSells, leftBuys, .dropSell hzero hattr, heq⟩
  | dropBuy hzero _ ih =>
    rintro is js rfl hjs
    obtain ⟨⟨j, _⟩, js, rfl, rfl, rfl⟩ := List.map_eq_cons_iff.1 hjs
    obtain ⟨links, leftSells, leftBuys, hattr, heq⟩ := ih is js rfl rfl
    exact ⟨links, leftSells, leftBuys, .dropBuy hzero hattr, heq⟩
  | swap hm hpos _ ih =>
    rintro is js his hjs
    obtain ⟨⟨i, _⟩, is, rfl, rfl, rfl⟩ := List.map_eq_cons_iff.1 his
    obtain ⟨⟨j, _⟩, js, rfl, rfl, rfl⟩ := List.map_eq_cons_iff.1 hjs
    obtain ⟨links, leftSells, leftBuys, hattr, rfl⟩ :=
      ih _ _ (map_remainder Prod.snd _ (i, _) is) (map_remainder Prod.snd _ (j, _) js)
    exact ⟨_, leftSells, leftBuys, .swap hm hpos hattr, rfl⟩

namespace Attributed

variable {sells leftSells : List (ι × SellOperation)} {buys leftBuys : List (κ × BuyOperation)}
  {links : List (Link ι κ)}

theorem tally_remainder {ι α : Type} [DecidableEq ι] {i l : ι} {m : BigDecimal} {kept : α}
    {rest : List (ι × α)} (value : α → BigDecimal) (operation : α)
    (hvalue : value kept = value operation - m) (hm : m ≤ value operation) :
    tally i Prod.fst (fun x ↦ value x.2) (remainder (value operation - m) (l, kept) rest) =
      tally i Prod.fst (fun x ↦ value x.2) ((l, operation) :: rest) - if l = i then m else 0 := by
  rcases hm.eq_or_lt with rfl | hlt
  · rw [sub_self, remainder_zero, tally_cons, add_sub_cancel_left]
  · rw [remainder_of_pos (sub_pos.2 hlt), tally_cons, tally_cons, hvalue]
    split_ifs <;> ring

theorem sold [DecidableEq ι] (h : Attributed sells buys links leftSells leftBuys) (i : ι) :
    tally i Link.sale (fun l ↦ l.swap.nearValue) links +
        tally i Prod.fst (fun x ↦ x.2.nearValue) leftSells =
      tally i Prod.fst (fun x ↦ x.2.nearValue) sells := by
  induction h with
  | sellsDone buys => simp
  | buysDone sells => rw [tally_nil, zero_add]
  | dropSell hzero _ ih => rw [tally_cons, hzero, ite_self, zero_add, ih]
  | dropBuy _ _ ih => exact ih
  | swap hm _ _ ih =>
    rw [tally_remainder SellOperation.nearValue _ rfl (hm.trans_le (min_le_left _ _))] at ih
    rw [tally_cons, add_assoc, ih, add_sub_cancel]

theorem bought [DecidableEq κ] (h : Attributed sells buys links leftSells leftBuys) (j : κ) :
    tally j Link.purchase (fun l ↦ l.swap.nearValue) links +
        tally j Prod.fst (fun x ↦ x.2.nearValue) leftBuys =
      tally j Prod.fst (fun x ↦ x.2.nearValue) buys := by
  induction h with
  | sellsDone buys => rw [tally_nil, zero_add]
  | buysDone sells => simp
  | dropSell _ _ ih => exact ih
  | dropBuy hzero _ ih => rw [tally_cons, hzero, ite_self, zero_add, ih]
  | swap hm _ _ ih =>
    rw [tally_remainder BuyOperation.nearValue _ rfl (hm.trans_le (min_le_right _ _))] at ih
    rw [tally_cons, add_assoc, ih, add_sub_cancel]

theorem forall_links {P : ι → TokenAccount → ExchangeRate → Prop} {R : κ → TokenAccount → Prop}
    (h : Attributed sells buys links leftSells leftBuys)
    (hsells : ∀ x ∈ sells, P x.1 x.2.token x.2.exchangeRate) (hbuys : ∀ x ∈ buys, R x.1 x.2.token) :
    (∀ l ∈ links, 0 < l.swap.nearValue ∧ P l.sale l.swap.sellToken l.swap.sellExchangeRate ∧
      R l.purchase l.swap.buyToken) ∧
    (∀ x ∈ leftSells, P x.1 x.2.token x.2.exchangeRate) ∧ ∀ x ∈ leftBuys, R x.1 x.2.token := by
  induction h with
  | sellsDone buys => exact ⟨nofun, nofun, hbuys⟩
  | buysDone sells => exact ⟨nofun, hsells, nofun⟩
  | dropSell _ _ ih => exact ih (List.forall_mem_cons.1 hsells).2 hbuys
  | dropBuy _ _ ih => exact ih hsells (List.forall_mem_cons.1 hbuys).2
  | swap hm hpos _ ih =>
    rw [List.forall_mem_cons] at hsells hbuys
    obtain ⟨hlinks, hleft⟩ := ih (forall_remainder (fun _ ↦ hsells.1) hsells.2)
      (forall_remainder (fun _ ↦ hbuys.1) hbuys.2)
    exact ⟨List.forall_mem_cons.2 ⟨⟨hpos, hsells.1, hbuys.1⟩, hlinks⟩, hleft⟩

theorem labels_remainder {ι α : Type} {l : ι} {v : BigDecimal} {a b : α} {rest : List (ι × α)} :
    ((remainder v (l, a) rest).map Prod.fst).Sublist (((l, b) :: rest).map Prod.fst) := by
  rw [remainder]
  split_ifs
  · exact List.Sublist.refl _
  · exact List.sublist_cons_self _ _

theorem labels (h : Attributed sells buys links leftSells leftBuys) :
    (leftSells.map Prod.fst).Sublist (sells.map Prod.fst) ∧
      (leftBuys.map Prod.fst).Sublist (buys.map Prod.fst) := by
  induction h with
  | sellsDone buys => exact ⟨.refl _, .refl _⟩
  | buysDone sells => exact ⟨.refl _, .refl _⟩
  | dropSell _ _ ih => exact ⟨ih.1.cons _, ih.2⟩
  | dropBuy _ _ ih => exact ⟨ih.1, ih.2.cons _⟩
  | swap _ _ _ ih => exact ⟨ih.1.trans labels_remainder, ih.2.trans labels_remainder⟩

theorem one_side (h : Attributed sells buys links leftSells leftBuys) :
    leftSells = [] ∨ leftBuys = [] := by
  induction h with
  | sellsDone buys => exact .inl rfl
  | buysDone sells => exact .inr rfl
  | dropSell _ _ ih => exact ih
  | dropBuy _ _ ih => exact ih
  | swap _ _ _ ih => exact ih

theorem length_links (h : Attributed sells buys links leftSells leftBuys) :
    links.length ≤ sells.length + buys.length - 1 := by
  induction h with
  | sellsDone buys => exact Nat.zero_le _
  | buysDone sells => exact Nat.zero_le _
  | dropSell _ _ ih => simp only [List.length_cons]; omega
  | dropBuy _ _ ih => simp only [List.length_cons]; omega
  | @swap i sell sells _ j buy buys _ m links hm _ _ ih =>
    have hle : ∀ {α : Type} (v : BigDecimal) (x : α) (l : List α),
        (remainder v x l).length ≤ l.length + 1 := by
      intro α v x l
      rw [remainder]
      split_ifs <;> simp
    have hone : (remainder (sell.nearValue - m)
          (i, { sell with nearValue := sell.nearValue - m }) sells).length +
        (remainder (buy.nearValue - m)
          (j, { buy with nearValue := buy.nearValue - m }) buys).length ≤
          sells.length + buys.length + 1 := by
      rcases min_choice sell.nearValue buy.nearValue with hs | hb
      · rw [hm, hs, sub_self, remainder_zero]
        have := hle (buy.nearValue - sell.nearValue)
          (j, ({ buy with nearValue := buy.nearValue - sell.nearValue } : BuyOperation)) buys
        omega
      · rw [hm, hb, sub_self, remainder_zero]
        have := hle (sell.nearValue - buy.nearValue)
          (i, ({ sell with nearValue := sell.nearValue - buy.nearValue } : SellOperation)) sells
        omega
    simp only [List.length_cons]
    omega

end Attributed

def labelled {α : Type} (l : List α) : List (Fin l.length × α) :=
  (List.finRange l.length).map fun i ↦ (i, l.get i)

section Labelled

variable {α : Type} {l : List α}

theorem map_snd_labelled : (labelled l).map Prod.snd = l := by
  rw [labelled, List.map_map]
  exact List.map_get_finRange l

theorem nodup_labels : ((labelled l).map Prod.fst).Nodup := by
  have h : (labelled l).map Prod.fst = List.finRange l.length := by
    rw [labelled, List.map_map]
    exact List.map_id _
  rw [h]
  exact List.nodup_finRange _

theorem mem_labelled {x : Fin l.length × α} (h : x ∈ labelled l) : x.2 = l.get x.1 := by
  obtain ⟨i, -, rfl⟩ := List.mem_map.1 h
  rfl

theorem exists_labels {l' : List α} (h : l'.Perm l) :
    ∃ is : List (Fin l.length × α), is.Perm (labelled l) ∧ is.map Prod.snd = l' := by
  have hentries : List.Forall₂ (fun a (x : Fin l.length × α) ↦ a = x.2) l (labelled l) := by
    rw [← List.forall₂_map_right_iff, map_snd_labelled, List.forall₂_eq_eq_eq]
  obtain ⟨is, his, hperm⟩ := List.perm_comp_forall₂ h hentries
  rw [← List.forall₂_map_right_iff, List.forall₂_eq_eq_eq] at his
  exact ⟨is, hperm, his.symm⟩

end Labelled

section Match

variable {sells : List SellOperation} {buys : List BuyOperation}

theorem MayMatch.explains {result : MatchResult} (h : MayMatch sells buys result)
    (hsells : ∀ x ∈ sells, 0 ≤ x.nearValue) (hbuys : ∀ x ∈ buys, 0 ≤ x.nearValue) :
    ∃ is js, is.Perm (labelled sells) ∧ js.Perm (labelled buys) ∧ Explains is js result := by
  obtain ⟨sells', buys', hs, hb, hmatched⟩ := h.matched hsells hbuys
  obtain ⟨is, hperm, his⟩ := exists_labels hs
  obtain ⟨js, hperm', hjs⟩ := exists_labels hb
  exact ⟨is, js, hperm, hperm', hmatched.explains is js his hjs⟩

/-- Every swap belongs to one sale and one purchase, the swaps and what is left of an operation add
up to it, and only one side has anything left. -/
theorem matchRebalanceOperations_spec (sells : List SellOperation) (buys : List BuyOperation)
    (hsells : ∀ x ∈ sells, 0 ≤ x.nearValue) (hbuys : ∀ x ∈ buys, 0 ≤ x.nearValue) :
    ∃ (links : List (Link (Fin sells.length) (Fin buys.length)))
      (leftSells : List (Fin sells.length × SellOperation))
      (leftBuys : List (Fin buys.length × BuyOperation)),
      matchRebalanceOperations sells buys =
        ⟨links.map Link.swap, leftSells.map Prod.snd, leftBuys.map Prod.snd⟩ ∧
      (leftSells.map Prod.fst).Nodup ∧ (leftBuys.map Prod.fst).Nodup ∧
      (∀ i, tally i Link.sale (fun l ↦ l.swap.nearValue) links +
        tally i Prod.fst (fun x ↦ x.2.nearValue) leftSells = (sells.get i).nearValue) ∧
      (∀ j, tally j Link.purchase (fun l ↦ l.swap.nearValue) links +
        tally j Prod.fst (fun x ↦ x.2.nearValue) leftBuys = (buys.get j).nearValue) ∧
      (∀ l ∈ links, 0 < l.swap.nearValue ∧
        (l.swap.sellToken = (sells.get l.sale).token ∧
          l.swap.sellExchangeRate = (sells.get l.sale).exchangeRate) ∧
        l.swap.buyToken = (buys.get l.purchase).token) ∧
      (∀ x ∈ leftSells, x.2.token = (sells.get x.1).token ∧
        x.2.exchangeRate = (sells.get x.1).exchangeRate) ∧
      (∀ x ∈ leftBuys, x.2.token = (buys.get x.1).token) ∧
      (leftSells = [] ∨ leftBuys = []) ∧ links.length ≤ sells.length + buys.length - 1 := by
  obtain ⟨is, js, hperm, hperm', links, leftSells, leftBuys, hattr, heq⟩ :=
    (mayMatch_matchRebalanceOperations sells buys).explains hsells hbuys
  have hlabels := hattr.labels
  have hlength := hattr.length_links
  have hvalues := hattr.forall_links
    (P := fun i token rate ↦ token = (sells.get i).token ∧ rate = (sells.get i).exchangeRate)
    (R := fun j token ↦ token = (buys.get j).token)
    (fun x hx ↦ by rw [mem_labelled (hperm.subset hx)]; exact ⟨rfl, rfl⟩)
    fun x hx ↦ by rw [mem_labelled (hperm'.subset hx)]
  refine ⟨links, leftSells, leftBuys, heq, ?_, ?_, fun i ↦ ?_, fun j ↦ ?_, hvalues.1, hvalues.2.1,
    hvalues.2.2, hattr.one_side, ?_⟩
  · exact ((hperm.map Prod.fst).nodup_iff.2 nodup_labels).sublist hlabels.1
  · exact ((hperm'.map Prod.fst).nodup_iff.2 nodup_labels).sublist hlabels.2
  · rw [hattr.sold i, tally_perm hperm, labelled, tally_finRange]
  · rw [hattr.bought j, tally_perm hperm', labelled, tally_finRange]
  · rw [hperm.length_eq, hperm'.length_eq] at hlength
    simpa [labelled] using hlength

def twins : List SellOperation :=
  [⟨⟨"a.near"⟩, 3, .wnear⟩, ⟨⟨"a.near"⟩, 0, .wnear⟩, ⟨⟨"a.near"⟩, 3, .wnear⟩]

def orders : List BuyOperation := [⟨⟨"b.near"⟩, 4⟩, ⟨⟨"c.near"⟩, 2⟩]

theorem matchRebalanceOperations_twins :
    (∀ x ∈ twins, 0 ≤ x.nearValue) ∧ (∀ x ∈ orders, 0 ≤ x.nearValue) ∧
    ∃ (links : List (Link (Fin 3) (Fin 2))) (leftSells : List (Fin 3 × SellOperation)),
      (matchRebalanceOperations twins orders).directSwaps = links.map Link.swap ∧
      (∀ i, tally i Link.sale (fun l ↦ l.swap.nearValue) links +
        tally i Prod.fst (fun x ↦ x.2.nearValue) leftSells = (twins.get i).nearValue) ∧
      links.length ≤ 4 := by
  have hsells : ∀ x ∈ twins, 0 ≤ x.nearValue := by decide
  have hbuys : ∀ x ∈ orders, 0 ≤ x.nearValue := by decide
  obtain ⟨links, leftSells, leftBuys, heq, -, -, hsold, -, -, -, -, -, hlength⟩ :=
    matchRebalanceOperations_spec twins orders hsells hbuys
  exact ⟨hsells, hbuys, links, leftSells, congrArg MatchResult.directSwaps heq, hsold, hlength⟩

end Match

end Zaciraci.Trade
