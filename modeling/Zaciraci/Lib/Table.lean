import Mathlib.Data.List.Nodup

namespace Zaciraci.Lib

structure Table (α κ : Type) (key : α → κ) where
  rows : List α
  unique : (rows.map key).Nodup

namespace Table

variable {α κ : Type} {key : α → κ}

def empty : Table α κ key := ⟨[], .nil⟩

theorem row_unique (t : Table α κ key) {a b : α} (ha : a ∈ t.rows) (hb : b ∈ t.rows)
    (h : key a = key b) : a = b :=
  List.inj_on_of_nodup_map t.unique ha hb h

variable [DecidableEq κ]

def find (t : Table α κ key) (k : κ) : Option α := t.rows.find? (key · = k)

variable {t : Table α κ key}

theorem find_eq_some {k : κ} {a : α} :
    t.find k = some a ↔ a ∈ t.rows ∧ key a = k := by
  constructor
  · intro h
    exact ⟨List.mem_of_find?_eq_some h, by simpa using List.find?_some h⟩
  · rintro ⟨ha, rfl⟩
    cases h : t.find (key a) with
    | none => simpa using List.find?_eq_none.1 h a ha
    | some b =>
      have hkey : key b = key a := by simpa using List.find?_some h
      rw [t.row_unique (List.mem_of_find?_eq_some h) ha hkey]

theorem find_eq_none {k : κ} : t.find k = none ↔ ∀ a ∈ t.rows, key a ≠ k := by
  simp [find]

/-- What `INSERT .. ON CONFLICT (key) DO UPDATE` leaves. -/
def upsertRows (key : α → κ) (rows : List α) (new : α) (update : α → α) : List α :=
  if rows.any (key · = key new) then rows.map fun a ↦ if key a = key new then update a else a
  else rows ++ [new]

variable {update : α → α}

theorem key_update (h : ∀ a, key (update a) = key a) (k : κ) (a : α) :
    key (if key a = k then update a else a) = key a := by
  split_ifs
  · exact h a
  · rfl

theorem upsertRows_unique {rows : List α} {new : α} (hrows : (rows.map key).Nodup)
    (h : ∀ a, key (update a) = key a) :
    ((upsertRows key rows new update).map key).Nodup := by
  rw [upsertRows]
  split_ifs with hany
  · have hsame : (rows.map fun a ↦ if key a = key new then update a else a).map key =
        rows.map key := by
      rw [List.map_map]
      exact List.map_congr_left fun a _ ↦ key_update h _ a
    rwa [hsame]
  · rw [List.map_append, List.map_singleton, List.nodup_append]
    refine ⟨hrows, List.nodup_singleton _, fun k hk k' hk' ↦ ?_⟩
    obtain ⟨a, ha, rfl⟩ := List.mem_map.1 hk
    rw [List.mem_singleton.1 hk']
    intro heq
    exact hany (List.any_eq_true.2 ⟨a, ha, by simpa using heq⟩)

def upsert (t : Table α κ key) (new : α) (update : α → α) (h : ∀ a, key (update a) = key a) :
    Table α κ key :=
  ⟨upsertRows key t.rows new update, upsertRows_unique t.unique h⟩

theorem mem_upsert {new : α} {h : ∀ a, key (update a) = key a} {a : α} :
    a ∈ (t.upsert new update h).rows ↔
      (a ∈ t.rows ∧ key a ≠ key new) ∨ a = (t.find (key new)).elim new update := by
  change a ∈ upsertRows key t.rows new update ↔ _
  rw [upsertRows]
  split_ifs with hany
  · obtain ⟨b, hb, hkey⟩ := List.any_eq_true.1 hany
    have hkey : key b = key new := by simpa using hkey
    rw [find_eq_some.2 ⟨hb, hkey⟩, Option.elim_some, List.mem_map]
    constructor
    · rintro ⟨c, hc, rfl⟩
      split_ifs with hck
      · rw [t.row_unique hc hb (hck.trans hkey.symm)]
        exact .inr rfl
      · exact .inl ⟨hc, hck⟩
    · rintro (⟨ha, hne⟩ | rfl)
      · exact ⟨a, ha, if_neg hne⟩
      · exact ⟨b, hb, if_pos hkey⟩
  · have hne : ∀ b ∈ t.rows, key b ≠ key new := by simpa using hany
    rw [find_eq_none.2 hne, Option.elim_none, List.mem_append, List.mem_singleton]
    constructor
    · rintro (ha | rfl)
      · exact .inl ⟨ha, hne a ha⟩
      · exact .inr rfl
    · rintro (⟨ha, -⟩ | rfl)
      · exact .inl ha
      · exact .inr rfl

theorem key_elim_find {new : α} (h : ∀ a, key (update a) = key a) :
    key ((t.find (key new)).elim new update) = key new := by
  cases hfind : t.find (key new) with
  | none => rfl
  | some b => exact (h b).trans (find_eq_some.1 hfind).2

theorem find_upsert (t : Table α κ key) (new : α) (update : α → α)
    (h : ∀ a, key (update a) = key a) (k : κ) :
    (t.upsert new update h).find k =
      if k = key new then some ((t.find k).elim new update) else t.find k := by
  ext a
  rw [find_eq_some, mem_upsert]
  split_ifs with hk
  · subst hk
    rw [Option.some_inj]
    constructor
    · rintro ⟨⟨-, hne⟩ | ha, hkey⟩
      · exact absurd hkey hne
      · exact ha.symm
    · rintro rfl
      exact ⟨.inr rfl, key_elim_find h⟩
  · rw [find_eq_some]
    constructor
    · rintro ⟨⟨ha, -⟩ | rfl, hkey⟩
      · exact ⟨ha, hkey⟩
      · exact absurd (hkey.symm.trans (key_elim_find h)) hk
    · rintro ⟨ha, rfl⟩
      exact ⟨.inl ⟨ha, hk⟩, rfl⟩

def delete (t : Table α κ key) (k : κ) : Table α κ key :=
  ⟨t.rows.filter (key · ≠ k), t.unique.sublist (t.rows.filter_sublist.map key)⟩

theorem find_delete (t : Table α κ key) (k k' : κ) :
    (t.delete k).find k' = if k' = k then none else t.find k' := by
  ext a
  rw [find_eq_some, delete, List.mem_filter, decide_eq_true_eq]
  split_ifs with hk
  · subst hk
    simp
  · rw [find_eq_some]
    constructor
    · rintro ⟨⟨ha, -⟩, hkey⟩
      exact ⟨ha, hkey⟩
    · rintro ⟨ha, rfl⟩
      exact ⟨⟨ha, hk⟩, rfl⟩

end Table

end Zaciraci.Lib
