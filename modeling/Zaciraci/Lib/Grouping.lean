import Mathlib.Data.List.Induction
import Mathlib.Data.List.Sort
import Zaciraci.Lib.SortedMap

namespace Zaciraci.Lib

section Sorting

variable {α : Type} (r : α → α → Prop) [DecidableRel r] [IsTrans α r]

theorem filter_orderedInsert (p : α → Bool) (a : α) {l : List α} (h : l.Pairwise r) :
    (l.orderedInsert r a).filter p =
      if p a then (l.filter p).orderedInsert r a else l.filter p := by
  induction l with
  | nil => by_cases hp : p a <;> simp [hp]
  | cons b l ih =>
    obtain ⟨hb, hl⟩ := List.pairwise_cons.1 h
    by_cases hab : r a b
    · -- What is kept of the rest comes after `a` as well.
      have hfirst : ((b :: l).filter p).orderedInsert r a = a :: (b :: l).filter p := by
        cases hfilter : (b :: l).filter p with
        | nil => rfl
        | cons c m =>
          refine List.orderedInsert_cons_of_le r _ ?_
          have hc : c ∈ b :: l := List.mem_of_mem_filter (hfilter ▸ List.mem_cons_self)
          rcases List.mem_cons.1 hc with rfl | hc
          · exact hab
          · exact IsTrans.trans a b c hab (hb c hc)
      rw [List.orderedInsert_cons_of_le r _ hab, hfirst, List.filter_cons]
    · rw [List.orderedInsert_of_not_le r _ hab, List.filter_cons, ih hl, List.filter_cons]
      by_cases hp : p b
      · rw [if_pos hp, if_pos hp]
        split_ifs
        · rw [List.orderedInsert_of_not_le r _ hab]
        · rfl
      · rw [if_neg hp, if_neg hp]

variable [Std.Total r]

/-- Sorting keeps the order of equal elements, so it commutes with any selection. -/
theorem filter_insertionSort (p : α → Bool) (l : List α) :
    (l.insertionSort r).filter p = (l.filter p).insertionSort r := by
  induction l with
  | nil => rfl
  | cons a l ih =>
    rw [List.insertionSort_cons, filter_orderedInsert r p a (List.pairwise_insertionSort r l), ih,
      List.filter_cons]
    split_ifs <;> rfl

end Sorting

section Congruence

variable {α : Type} {r s : α → α → Prop} [DecidableRel r] [DecidableRel s]

theorem orderedInsert_congr {a : α} {l : List α} (h : ∀ b ∈ l, r a b ↔ s a b) :
    l.orderedInsert r a = l.orderedInsert s a := by
  induction l with
  | nil => rfl
  | cons b l ih =>
    rw [List.orderedInsert_cons, List.orderedInsert_cons, ih fun c hc ↦ h c (.tail b hc)]
    simp only [h b List.mem_cons_self]

theorem insertionSort_congr {l : List α} (h : ∀ a ∈ l, ∀ b ∈ l, r a b ↔ s a b) :
    l.insertionSort r = l.insertionSort s := by
  induction l with
  | nil => rfl
  | cons a l ih =>
    rw [List.insertionSort_cons, List.insertionSort_cons,
      ih fun b hb c hc ↦ h b (.tail a hb) c (.tail a hc)]
    apply orderedInsert_congr
    intro b hb
    exact h a List.mem_cons_self b (.tail a ((List.perm_insertionSort s l).mem_iff.1 hb))

end Congruence

section Limit

variable {α : Type} (p : α → Bool) (l : List α)

theorem filter_take (m : ℕ) : (l.take m).filter p = (l.filter p).take ((l.take m).countP p) := by
  have hprefix : (l.take m).filter p <+: l.filter p := (List.take_prefix m l).filter p
  rw [List.countP_eq_length_filter]
  exact List.prefix_iff_eq_take.1 hprefix

/-- A limit on all elements leaves the first `k` that are selected exactly if so many of them, or
all, are within the limit. -/
theorem take_filter_take_eq_iff (m k : ℕ) :
    ((l.take m).filter p).take k = (l.filter p).take k ↔
      k ≤ (l.take m).countP p ∨ (l.take m).countP p = l.countP p := by
  have hle : (l.take m).countP p ≤ l.countP p := (List.take_sublist m l).countP_le
  rw [filter_take, List.take_take, List.countP_eq_length_filter (l := l)] at *
  constructor
  · intro h
    have hlength := congrArg List.length h
    rw [List.length_take, List.length_take] at hlength
    omega
  · rintro (h | h)
    · rw [min_eq_left h]
    · rw [h, List.take_eq_take_iff]
      omega

end Limit

section Keys

variable {K V : Type}

theorem sublist_keys_filterMap (f : K → Option V) (l : List K) :
    ((l.filterMap fun k ↦ (f k).map (k, ·)).map Prod.fst).Sublist l := by
  induction l with
  | nil => exact .slnil
  | cons k l ih =>
    cases hf : f k with
    | none =>
      rw [List.filterMap_cons_none (by rw [hf]; rfl)]
      exact ih.cons k
    | some v =>
      rw [List.filterMap_cons_some (b := (k, v)) (by rw [hf]; rfl)]
      exact ih.cons_cons k

end Keys

section Groups

variable {K α : Type} [LinearOrder K] (key : α → K)

/-- Each element is appended to the group of its key. -/
def groupBy (l : List α) : SortedMap K (List α) :=
  l.foldl (fun groups a ↦ groups.insert (key a) ((groups.get (key a)).getD [] ++ [a])) .empty

theorem get_groupBy (l : List α) (k : K) :
    (groupBy key l).get k =
      if l.filter (key · = k) = [] then none else some (l.filter (key · = k)) := by
  induction l using List.reverseRecOn with
  | nil => rfl
  | append_singleton l a ih =>
    rw [groupBy, List.foldl_append, List.foldl_cons, List.foldl_nil, ← groupBy, List.filter_append,
      SortedMap.get_insert]
    by_cases hk : k = key a
    · subst hk
      rw [if_pos rfl, ih]
      by_cases hnil : l.filter (key · = key a) = [] <;> simp [hnil]
    · rw [if_neg hk, ih]
      simp [Ne.symm hk]

end Groups

end Zaciraci.Lib
