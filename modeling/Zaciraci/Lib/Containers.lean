import Mathlib.Data.Multiset.Basic
import Zaciraci.Lib.SortedMap

namespace Zaciraci.Lib

/-- `less` compares the ranks of its arguments: a strict weak order. -/
structure Ranking {α : Type} (less : α → α → Bool) : Prop where
  asymm : ∀ a b, less a b = true → less b a = false
  split : ∀ a b c, less a c = true → less a b = true ∨ less b c = true

/-- The standard containers whose documentation leaves an order open: which of several greatest
elements a `BinaryHeap` yields, and in which order a `HashMap` is iterated. -/
structure Containers where
  Heap : (α : Type) → (α → α → Bool) → Type
  empty : ∀ {α less}, Heap α less
  push : ∀ {α less}, Heap α less → α → Heap α less
  pop : ∀ {α less}, Heap α less → Option (α × Heap α less)
  items : ∀ {α less}, Heap α less → Multiset α
  items_empty : ∀ {α less}, items (empty : Heap α less) = 0
  items_push : ∀ {α less} (h : Heap α less) (a : α), items (push h a) = a ::ₘ items h
  pop_none : ∀ {α less} {h : Heap α less}, pop h = none ↔ items h = 0
  items_pop : ∀ {α less} {h h' : Heap α less} {a : α}, pop h = some (a, h') →
    items h = a ::ₘ items h'
  pop_greatest : ∀ {α less} {h h' : Heap α less} {a : α}, Ranking less → pop h = some (a, h') →
    ∀ b ∈ items h, less a b = false
  iter : ∀ {α : Type}, List α → List α
  iter_perm : ∀ {α : Type} (l : List α), (iter l).Perm l

namespace Containers

variable (std : Containers)

def peek {α : Type} {less : α → α → Bool} (h : std.Heap α less) : Option α :=
  (std.pop h).map Prod.fst

theorem peek_none {α : Type} {less : α → α → Bool} {h : std.Heap α less} :
    std.peek h = none ↔ std.items h = 0 := by
  rw [peek, Option.map_eq_none_iff, std.pop_none]

theorem mem_of_peek {α : Type} {less : α → α → Bool} {h : std.Heap α less} {a : α}
    (ha : std.peek h = some a) : a ∈ std.items h := by
  obtain ⟨⟨a', h'⟩, hp, rfl⟩ := Option.map_eq_some_iff.mp ha
  rw [std.items_pop hp]
  exact Multiset.mem_cons_self _ _

@[simp]
theorem mem_iter {α : Type} {l : List α} {a : α} : a ∈ std.iter l ↔ a ∈ l :=
  (std.iter_perm l).mem_iff

theorem nodup_iter {α : Type} {l : List α} : (std.iter l).Nodup ↔ l.Nodup :=
  (std.iter_perm l).nodup_iff

end Containers

def enqueue {α : Type} (less : α → α → Bool) (a : α) : List α → List α
  | [] => [a]
  | b :: l => if less b a then a :: b :: l else b :: enqueue less a l

theorem enqueue_perm {α : Type} (less : α → α → Bool) (a : α) (l : List α) :
    (enqueue less a l).Perm (a :: l) := by
  induction l with
  | nil => rfl
  | cons b l ih =>
    rw [enqueue]
    split_ifs
    · rfl
    · exact (ih.cons b).trans (List.Perm.swap a b l)

theorem enqueue_ranked {α : Type} {less : α → α → Bool} (hr : Ranking less) {a : α} {l : List α}
    (h : l.Pairwise fun x y ↦ less x y = false) :
    (enqueue less a l).Pairwise fun x y ↦ less x y = false := by
  induction l with
  | nil => simp [enqueue]
  | cons b l ih =>
    obtain ⟨hb, hl⟩ := List.pairwise_cons.mp h
    rw [enqueue]
    split_ifs with hba
    · refine List.pairwise_cons.mpr ⟨fun c hc ↦ ?_, h⟩
      rcases List.mem_cons.mp hc with rfl | hc
      · exact hr.asymm _ _ hba
      · rw [← Bool.not_eq_true]
        intro hac
        rcases hr.split a b c hac with hab | hbc
        · rw [hr.asymm _ _ hba] at hab
          cases hab
        · rw [hb c hc] at hbc
          cases hbc
    · refine List.pairwise_cons.mpr ⟨fun c hc ↦ ?_, ih hl⟩
      rcases List.mem_cons.mp ((enqueue_perm less a l).mem_iff.mp hc) with rfl | hc
      · exact Bool.not_eq_true _ ▸ hba
      · exact hb c hc

def Containers.lists : Containers where
  Heap α less := { l : List α // Ranking less → l.Pairwise fun x y ↦ less x y = false }
  empty := ⟨[], fun _ ↦ .nil⟩
  push h a := ⟨enqueue _ a h.1, fun hr ↦ enqueue_ranked hr (h.2 hr)⟩
  pop h := match h with
    | ⟨[], _⟩ => none
    | ⟨a :: l, hl⟩ => some (a, ⟨l, fun hr ↦ (List.pairwise_cons.mp (hl hr)).2⟩)
  items h := h.1
  items_empty := rfl
  items_push h a := Multiset.coe_eq_coe.mpr (enqueue_perm _ a h.1)
  pop_none := by rintro α less ⟨_ | ⟨a, l⟩, hl⟩ <;> simp
  items_pop := by
    rintro α less ⟨_ | ⟨b, l⟩, hl⟩ h' a h
    · cases h
    · cases h
      rfl
  pop_greatest := by
    rintro α less ⟨_ | ⟨b, l⟩, hl⟩ h' a hr h c hc
    · cases h
    · cases h
      rcases List.mem_cons.mp (Multiset.mem_coe.mp hc) with rfl | hc
      · cases hcc : less c c with
        | false => rfl
        | true => rw [hr.asymm _ _ hcc] at hcc; cases hcc
      · exact (List.pairwise_cons.mp (hl hr)).1 c hc
  iter l := l
  iter_perm l := .refl l

end Zaciraci.Lib
