import Mathlib.Algebra.BigOperators.Group.List.Basic
import Mathlib.Data.List.Sort
import Mathlib.Data.List.Nodup
import Mathlib.Order.Defs.LinearOrder

namespace Zaciraci.Lib

variable {K V : Type} [LinearOrder K]

instance lawfulBEq_of_linearOrder : LawfulBEq K := instLawfulBEq

/-- A map that is iterated in the order of its keys. -/
structure SortedMap (K V : Type) [LinearOrder K] where
  entries : List (K × V)
  sorted : entries.Pairwise fun a b ↦ a.1 < b.1

namespace SortedMap

def empty : SortedMap K V := ⟨[], .nil⟩

def map {W : Type} (f : V → W) (m : SortedMap K V) : SortedMap K W :=
  ⟨m.entries.map fun e ↦ (e.1, f e.2), List.pairwise_map.mpr m.sorted⟩

def filter (p : K → Bool) (m : SortedMap K V) : SortedMap K V :=
  ⟨m.entries.filter fun e ↦ p e.1, m.sorted.filter _⟩

def size (m : SortedMap K V) : ℕ := m.entries.length

def get (m : SortedMap K V) (k : K) : Option V := (m.entries.find? (·.1 = k)).map Prod.snd

def contains (m : SortedMap K V) (k : K) : Bool := m.entries.any (·.1 = k)

def keys (m : SortedMap K V) : List K := m.entries.map Prod.fst

theorem keys_sorted (m : SortedMap K V) : m.keys.Pairwise (· < ·) :=
  List.pairwise_map.mpr m.sorted

theorem keys_nodup (m : SortedMap K V) : m.keys.Nodup := m.keys_sorted.imp fun h ↦ h.ne

variable {m : SortedMap K V} {k : K}

theorem mem_keys : k ∈ m.keys ↔ ∃ v, (k, v) ∈ m.entries := by
  simp [keys]

theorem contains_iff : m.contains k = true ↔ k ∈ m.keys := by
  simp [contains, keys]

theorem contains_eq_false : m.contains k = false ↔ k ∉ m.keys := by
  rw [← contains_iff, Bool.not_eq_true]

theorem value_unique {v w : V} (hv : (k, v) ∈ m.entries) (hw : (k, w) ∈ m.entries) : v = w := by
  have h := List.inj_on_of_nodup_map m.keys_nodup hv hw rfl
  exact (Prod.mk.inj h).2

variable {v : V}

theorem get_eq_some :
    m.get k = some v ↔ (k, v) ∈ m.entries := by
  constructor
  · intro h
    obtain ⟨⟨k', v'⟩, hf, rfl⟩ := Option.map_eq_some_iff.mp h
    have hk : k' = k := by simpa using List.find?_some hf
    exact hk ▸ List.mem_of_find?_eq_some hf
  · intro h
    have hs : (m.entries.find? (·.1 = k)).isSome := by
      rw [List.find?_isSome]
      exact ⟨(k, v), h, by simp⟩
    obtain ⟨⟨k', v'⟩, hf⟩ := Option.isSome_iff_exists.mp hs
    have hk : k' = k := by simpa using List.find?_some hf
    subst hk
    rw [get, hf, Option.map_some, value_unique (List.mem_of_find?_eq_some hf) h]

theorem get_eq_none : m.get k = none ↔ k ∉ m.keys := by
  constructor
  · intro h hk
    obtain ⟨v, hv⟩ := mem_keys.mp hk
    rw [get_eq_some.mpr hv] at h
    cases h
  · intro h
    cases hg : m.get k with
    | none => rfl
    | some v => exact absurd (mem_keys.mpr ⟨v, get_eq_some.mp hg⟩) h

theorem ext {m n : SortedMap K V} (h : m.entries = n.entries) : m = n := by
  cases m
  cases n
  subst h
  rfl

instance [DecidableEq V] : DecidableEq (SortedMap K V) := fun m n ↦
  decidable_of_iff (m.entries = n.entries) ⟨ext, fun h ↦ h ▸ rfl⟩

def addEntry (k : K) (v : V) : List (K × V) → List (K × V)
  | [] => [(k, v)]
  | e :: l => if k < e.1 then (k, v) :: e :: l else if k = e.1 then e :: l else e :: addEntry k v l

variable {l : List (K × V)}

theorem mem_addEntry {e : K × V} (he : e ∈ addEntry k v l) :
    e = (k, v) ∨ e ∈ l := by
  induction l with
  | nil => simpa [addEntry] using he
  | cons x l ih =>
    simp only [addEntry] at he
    split_ifs at he with h₁ h₂
    · simpa using he
    · exact .inr he
    · rcases List.mem_cons.mp he with rfl | he
      · exact .inr List.mem_cons_self
      · exact (ih he).imp id (List.mem_cons_of_mem x)

theorem addEntry_sorted (h : l.Pairwise fun a b ↦ a.1 < b.1) :
    (addEntry k v l).Pairwise fun a b ↦ a.1 < b.1 := by
  induction l with
  | nil => simp [addEntry]
  | cons x l ih =>
    obtain ⟨hx, hl⟩ := List.pairwise_cons.mp h
    simp only [addEntry]
    split_ifs with h₁ h₂
    · refine List.pairwise_cons.mpr ⟨fun e he ↦ ?_, h⟩
      rcases List.mem_cons.mp he with rfl | he
      · exact h₁
      · exact h₁.trans (hx e he)
    · exact h
    · refine List.pairwise_cons.mpr ⟨fun e he ↦ ?_, ih hl⟩
      rcases mem_addEntry he with rfl | he
      · exact lt_of_le_of_ne (not_lt.mp h₁) (Ne.symm h₂)
      · exact hx e he

def add (m : SortedMap K V) (k : K) (v : V) : SortedMap K V :=
  ⟨addEntry k v m.entries, addEntry_sorted m.sorted⟩

variable {k k' : K}

theorem mem_keys_add :
    k' ∈ (m.add k v).keys ↔ k' = k ∨ k' ∈ m.keys := by
  obtain ⟨l, hl⟩ := m
  simp only [add, keys]
  clear hl
  induction l with
  | nil => simp [addEntry]
  | cons x l ih =>
    simp only [addEntry]
    split_ifs with h₁ h₂
    · simp
    · simp only [List.map_cons, List.mem_cons]
      constructor
      · exact fun h ↦ .inr h
      · rintro (rfl | h)
        · exact .inl h₂
        · exact h
    · simp only [List.map_cons, List.mem_cons, ih]
      tauto

theorem addEntry_of_mem (h : l.Pairwise fun a b ↦ a.1 < b.1) (hk : k ∈ l.map Prod.fst) :
    addEntry k v l = l := by
  induction l with
  | nil => simp at hk
  | cons x l ih =>
    obtain ⟨hx, hl⟩ := List.pairwise_cons.mp h
    rw [List.map_cons, List.mem_cons] at hk
    rcases hk with rfl | hk
    · simp [addEntry]
    · obtain ⟨e, he, rfl⟩ := List.mem_map.mp hk
      have hlt := hx e he
      rw [addEntry, if_neg hlt.asymm, if_neg hlt.ne', ih hl hk]

theorem length_addEntry (hk : k ∉ l.map Prod.fst) :
    (addEntry k v l).length = l.length + 1 := by
  induction l with
  | nil => rfl
  | cons x l ih =>
    rw [List.map_cons, List.mem_cons, not_or] at hk
    simp only [addEntry]
    split_ifs with h
    · rfl
    · exact absurd ‹k = x.1› hk.1
    · rw [List.length_cons, ih hk.2, List.length_cons]

theorem add_of_mem (hk : k ∈ m.keys) : m.add k v = m :=
  ext (addEntry_of_mem m.sorted hk)

theorem size_add (hk : k ∉ m.keys) :
    (m.add k v).size = m.size + 1 := length_addEntry hk

def erase (m : SortedMap K V) (k : K) : SortedMap K V :=
  ⟨m.entries.filter (·.1 ≠ k), m.sorted.filter _⟩

theorem mem_keys_erase :
    k' ∈ (m.erase k).keys ↔ k' ≠ k ∧ k' ∈ m.keys := by
  simp only [erase, keys, List.mem_map, List.mem_filter, decide_eq_true_eq]
  constructor
  · rintro ⟨e, ⟨he, hk⟩, rfl⟩
    exact ⟨hk, e, he, rfl⟩
  · rintro ⟨hk, e, he, rfl⟩
    exact ⟨e, ⟨he, hk⟩, rfl⟩

theorem size_erase_le (m : SortedMap K V) (k : K) : (m.erase k).size ≤ m.size :=
  List.length_filter_le _ _

theorem get_erase_self (m : SortedMap K V) (k : K) : (m.erase k).get k = none :=
  get_eq_none.mpr fun h ↦ (mem_keys_erase.mp h).1 rfl

theorem get_erase_of_ne (h : k' ≠ k) :
    (m.erase k).get k' = m.get k' := by
  cases hg : m.get k' with
  | none =>
    rw [get_eq_none] at hg ⊢
    exact fun hk ↦ hg (mem_keys_erase.mp hk).2
  | some v =>
    rw [get_eq_some] at hg ⊢
    exact List.mem_filter.mpr ⟨hg, by simpa using h⟩

theorem get_isSome : (m.get k).isSome ↔ k ∈ m.keys := by
  rw [← not_iff_not, ← get_eq_none, Option.not_isSome_iff_eq_none]

theorem mem_keys_of_get (h : m.get k = some v) :
    k ∈ m.keys := mem_keys.mpr ⟨v, get_eq_some.mp h⟩

theorem exists_get (h : k ∈ m.keys) : ∃ v, m.get k = some v :=
  Option.isSome_iff_exists.mp (get_isSome.mpr h)

theorem mem_addEntry_of_mem {e : K × V} (he : e ∈ l) :
    e ∈ addEntry k v l := by
  induction l with
  | nil => cases he
  | cons x l ih =>
    simp only [addEntry]
    split_ifs
    · exact List.mem_cons_of_mem _ he
    · exact he
    · rcases List.mem_cons.mp he with rfl | he
      · exact List.mem_cons_self
      · exact List.mem_cons_of_mem x (ih he)

theorem get_add_of_ne (h : k' ≠ k) :
    (m.add k v).get k' = m.get k' := by
  cases hg : m.get k' with
  | none =>
    rw [get_eq_none] at hg ⊢
    exact fun hk ↦ (mem_keys_add.mp hk).elim h hg
  | some w =>
    rw [get_eq_some] at hg ⊢
    exact mem_addEntry_of_mem hg

theorem get_add_self (h : k ∉ m.keys) :
    (m.add k v).get k = some v := by
  obtain ⟨w, hw⟩ := exists_get (m := m.add k v) (mem_keys_add.mpr (.inl rfl))
  rcases mem_addEntry (get_eq_some.mp hw) with he | he
  · rw [hw, (Prod.mk.inj he).2]
  · exact absurd (mem_keys.mpr ⟨w, he⟩) h

def insert (m : SortedMap K V) (k : K) (v : V) : SortedMap K V := (m.erase k).add k v

@[simp]
theorem get_insert_self (m : SortedMap K V) (k : K) (v : V) : (m.insert k v).get k = some v :=
  get_add_self fun h ↦ (mem_keys_erase.mp h).1 rfl

theorem get_insert_of_ne (h : k' ≠ k) :
    (m.insert k v).get k' = m.get k' := by
  rw [insert, get_add_of_ne h, get_erase_of_ne h]

theorem get_insert (m : SortedMap K V) (k k' : K) (v : V) :
    (m.insert k v).get k' = if k' = k then some v else m.get k' := by
  split_ifs with h
  · rw [h, get_insert_self]
  · exact get_insert_of_ne h

theorem of_get_foldl_insert (h : (l.foldl (fun m e ↦ m.insert e.1 e.2) m).get k = some v) :
    m.get k = some v ∨ (k, v) ∈ l := by
  induction l generalizing m with
  | nil => exact .inl h
  | cons e l ih =>
    obtain hget | hmem := ih h
    · rw [get_insert] at hget
      split_ifs at hget with hk
      · subst hk
        exact .inr (by simp [← Option.some.inj hget])
      · exact .inl hget
    · exact .inr (List.mem_cons_of_mem _ hmem)

theorem get_foldl_insert_of_notMem (h : k ∉ l.map Prod.fst) :
    (l.foldl (fun m e ↦ m.insert e.1 e.2) m).get k = m.get k := by
  induction l generalizing m with
  | nil => rfl
  | cons e l ih =>
    rw [List.map_cons, List.mem_cons, not_or] at h
    rw [List.foldl_cons, ih h.2, get_insert_of_ne h.1]

theorem get_foldl_insert_of_mem (hnodup : (l.map Prod.fst).Nodup) (h : (k, v) ∈ l) :
    (l.foldl (fun m e ↦ m.insert e.1 e.2) m).get k = some v := by
  induction l generalizing m with
  | nil => cases h
  | cons e l ih =>
    rw [List.map_cons, List.nodup_cons] at hnodup
    rcases List.mem_cons.1 h with rfl | h
    · rw [List.foldl_cons, get_foldl_insert_of_notMem hnodup.1, get_insert_self]
    · exact ih hnodup.2 h

theorem mem_keys_insert :
    k' ∈ (m.insert k v).keys ↔ k' = k ∨ k' ∈ m.keys := by
  rw [insert, mem_keys_add, mem_keys_erase]
  tauto

@[simp]
theorem get_empty (k : K) : (empty : SortedMap K V).get k = none := rfl

theorem ext_get {m n : SortedMap K V} (h : ∀ k, m.get k = n.get k) : m = n := by
  apply ext
  have hperm : m.entries.Perm n.entries := by
    rw [List.perm_ext_iff_of_nodup (List.Nodup.of_map _ m.keys_nodup)
      (List.Nodup.of_map _ n.keys_nodup)]
    rintro ⟨k, v⟩
    rw [← get_eq_some, ← get_eq_some, h k]
  exact hperm.eq_of_pairwise (fun a b _ _ hab hba ↦ absurd hba hab.asymm) m.sorted n.sorted

theorem perm_foldl_insert (hnodup : (l.map Prod.fst).Nodup) :
    (l.foldl (fun m e ↦ m.insert e.1 e.2) (empty : SortedMap K V)).entries.Perm l := by
  rw [List.perm_ext_iff_of_nodup (List.Nodup.of_map _ (keys_nodup _)) (List.Nodup.of_map _ hnodup)]
  rintro ⟨k, v⟩
  rw [← get_eq_some]
  constructor
  · intro h
    obtain hempty | hmem := of_get_foldl_insert h
    · cases hempty
    · exact hmem
  · exact get_foldl_insert_of_mem hnodup

theorem insert_comm {a b : K × V} (h : a.1 = b.1 → a = b) :
    (m.insert a.1 a.2).insert b.1 b.2 = (m.insert b.1 b.2).insert a.1 a.2 := by
  apply ext_get
  intro k
  simp only [get_insert]
  by_cases ha : k = a.1
  · by_cases hb : k = b.1
    · rw [h (ha.symm.trans hb)]
    · rw [if_neg hb, if_pos ha, if_pos ha]
  · simp only [if_neg ha]

theorem foldl_insert_perm {l₁ l₂ : List (K × V)} (h : l₁.Perm l₂)
    (hnodup : (l₁.map Prod.fst).Nodup) (m : SortedMap K V) :
    l₁.foldl (fun m e ↦ m.insert e.1 e.2) m = l₂.foldl (fun m e ↦ m.insert e.1 e.2) m := by
  apply h.foldl_eq'
  intro a ha b hb m
  exact insert_comm (List.inj_on_of_nodup_map hnodup ha hb)

theorem insert_of_get (h : m.get k = some v) :
    m.insert k v = m := by
  refine ext_get fun k' ↦ ?_
  rw [get_insert]
  split_ifs with hk
  · rw [hk, h]
  · rfl

section Total

variable [AddCommGroup V]

def total (m : SortedMap K V) : V := (m.entries.map Prod.snd).sum

theorem total_empty : (empty : SortedMap K V).total = 0 := rfl

theorem total_add {m : SortedMap K V} {k : K} {v : V} (hk : k ∉ m.keys) :
    (m.add k v).total = m.total + v := by
  obtain ⟨l, hl⟩ := m
  simp only [keys, add, total] at hk ⊢
  clear hl
  induction l with
  | nil => simp [addEntry]
  | cons x l ih =>
    rw [List.map_cons, List.mem_cons, not_or] at hk
    simp only [addEntry]
    split_ifs with h
    · simp [add_comm]
    · exact absurd ‹k = x.1› hk.1
    · simp [ih hk.2, add_assoc]

theorem total_erase (m : SortedMap K V) (k : K) :
    (m.erase k).total = m.total - (m.get k).getD 0 := by
  obtain ⟨l, hl⟩ := m
  simp only [erase, total, get]
  induction l with
  | nil => simp
  | cons x l ih =>
    obtain ⟨hx, hl'⟩ := List.pairwise_cons.mp hl
    by_cases h : x.1 = k
    · subst h
      have hf : l.filter (·.1 ≠ x.1) = l := by
        rw [List.filter_eq_self]
        intro e he
        simpa using (hx e he).ne'
      rw [List.filter_cons_of_neg (by simp), hf]
      simp
    · rw [List.filter_cons_of_pos (by simpa using h), List.map_cons, List.sum_cons, ih hl']
      simp [h, add_sub_assoc]

theorem total_insert (m : SortedMap K V) (k : K) (v : V) :
    (m.insert k v).total = m.total - (m.get k).getD 0 + v := by
  rw [insert, total_add (fun h ↦ (mem_keys_erase.mp h).1 rfl), total_erase]

end Total

end SortedMap

end Zaciraci.Lib
