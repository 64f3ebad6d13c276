import Mathlib.Data.List.Forall2
import Mathlib.Order.Bounds.Basic
import Zaciraci.Lib.RustStd

namespace Zaciraci.Lib

variable {α β ε : Type}

theorem mapM_eq_ok_iff {f : α → Except ε β} {l : List α} {bs : List β} :
    l.mapM f = .ok bs ↔ List.Forall₂ (fun a b ↦ f a = .ok b) l bs := by
  induction l generalizing bs with
  | nil => cases bs <;> simp [pure, Except.pure]
  | cons a l ih =>
    simp only [List.mapM_cons, except_bind_eq_ok, ih, List.forall₂_cons_left_iff]
    constructor
    · rintro ⟨b, hb, bs', hbs, ⟨⟩⟩
      exact ⟨b, bs', hb, hbs, rfl⟩
    · rintro ⟨b, bs', hb, hbs, rfl⟩
      exact ⟨b, hb, bs', hbs, rfl⟩

section Related

variable {R : α → β → Prop} {l : List α} {bs : List β}

theorem exists_of_forall₂ (h : List.Forall₂ R l bs) {b : β} (hb : b ∈ bs) : ∃ a ∈ l, R a b := by
  induction h with
  | nil => cases hb
  | @cons a b' l bs hab _ ih =>
    rcases List.mem_cons.1 hb with rfl | hb
    · exact ⟨a, List.mem_cons_self, hab⟩
    · obtain ⟨a', ha', hab'⟩ := ih hb
      exact ⟨a', List.mem_cons_of_mem a ha', hab'⟩

theorem pairwise_of_forall₂ {S : α → α → Prop} {T : β → β → Prop} (h : List.Forall₂ R l bs)
    (hl : l.Pairwise S) (hT : ∀ a a' b b', R a b → R a' b' → S a a' → T b b') :
    bs.Pairwise T := by
  induction h with
  | nil => exact .nil
  | @cons a b l bs hab hrest ih =>
    rw [List.pairwise_cons] at hl
    refine List.pairwise_cons.2 ⟨fun b' hb' ↦ ?_, ih hl.2⟩
    obtain ⟨a', ha', hab'⟩ := exists_of_forall₂ hrest hb'
    exact hT a a' b b' hab hab' (hl.1 a' ha')

end Related

theorem exists_last {p : α → Prop} {l : List α} (h : ∃ a ∈ l, p a) :
    ∃ before a after, l = before ++ a :: after ∧ p a ∧ ∀ b ∈ after, ¬ p b := by
  induction l with
  | nil => simp at h
  | cons a l ih =>
    by_cases hl : ∃ b ∈ l, p b
    · obtain ⟨before, b, after, rfl, hb, hafter⟩ := ih hl
      exact ⟨a :: before, b, after, rfl, hb, hafter⟩
    · have ha : p a := by
        obtain ⟨b, hb, hpb⟩ := h
        rcases List.mem_cons.1 hb with rfl | hb
        · exact hpb
        · exact absurd ⟨b, hb, hpb⟩ hl
      exact ⟨[], a, l, rfl, ha, fun b hb hpb ↦ hl ⟨b, hb, hpb⟩⟩

theorem filterMap_unless (f : α → β) (p : β → Prop) [DecidablePred p] (l : List α) :
    l.filterMap (fun a ↦ if p (f a) then none else some (f a)) =
      (l.map f).filter fun b ↦ ¬ p b := by
  induction l with
  | nil => rfl
  | cons a l ih =>
    rw [List.filterMap_cons, ih, List.map_cons, List.filter_cons]
    by_cases h : p (f a) <;> simp [h]

section Search

def Earliest (s : Set ℕ) : Option ℕ → Prop
  | none => s = ∅
  | some j => IsLeast s j

variable {f : α → Option β} {l : List α} {k : ℕ}

theorem findSome?_drop_of_earliest {place : Option ℕ}
    (h : Earliest {j | k ≤ j ∧ (l[j]?.bind f).isSome} place) :
    (l.drop k).findSome? f = place.bind fun j ↦ l[j]?.bind f := by
  have hplace : ∀ m a, (l.drop k)[m]? = some a → f a ≠ none →
      k + m ∈ {j | k ≤ j ∧ (l[j]?.bind f).isSome} := by
    intro m a hm ha
    rw [List.getElem?_drop] at hm
    exact ⟨Nat.le_add_right k m, by rwa [hm, Option.bind_some, Option.isSome_iff_ne_none]⟩
  cases place with
  | none =>
    refine List.findSome?_eq_none_iff.2 fun a ha ↦ ?_
    obtain ⟨m, hm⟩ := List.mem_iff_getElem?.1 ha
    by_contra hsome
    exact Set.eq_empty_iff_forall_notMem.1 h _ (hplace m a hm hsome)
  | some j =>
    obtain ⟨⟨hkj, hj⟩, hleast⟩ := h
    obtain ⟨b, hb⟩ := Option.isSome_iff_exists.1 hj
    obtain ⟨a, ha, hab⟩ := Option.bind_eq_some_iff.1 hb
    obtain ⟨hlt, hget⟩ := List.getElem?_eq_some_iff.1 ha
    rw [Option.bind_some, hb]
    refine List.findSome?_eq_some_iff.2 ⟨(l.drop k).take (j - k), a, l.drop (j + 1), ?_, hab,
      fun a' ha' ↦ ?_⟩
    · have hsplit := (List.take_append_drop (j - k) (l.drop k)).symm
      rwa [List.drop_drop, Nat.add_sub_cancel' hkj, List.drop_eq_getElem_cons hlt, hget] at hsplit
    · obtain ⟨m, hm⟩ := List.mem_iff_getElem?.1 ha'
      rw [List.getElem?_take] at hm
      split_ifs at hm with hmj
      by_contra hsome
      have hle := hleast (hplace m a' hm hsome)
      omega

end Search

end Zaciraci.Lib
