import Zaciraci.Persistence.Database

namespace Zaciraci.Persistence

open Lib

section Queries

variable {K α : Type} [LinearOrder K] (key : α → K) (stamp : α → Time)

/-- `WHERE key = k AND stamp < t ORDER BY stamp DESC LIMIT 1`. -/
def latestBefore (rows : List α) (k : K) (t : Time) : Option α :=
  (rows.filter fun row ↦ key row = k ∧ stamp row < t).argmax stamp

/-- `SELECT DISTINCT ON (key) .. WHERE start <= stamp AND stamp <= stop`. -/
def uniqueBetween (rows : List α) (start stop : Time) : List α :=
  (latestPer key stamp (rows.filter fun row ↦ start ≤ stamp row ∧ stamp row ≤ stop)).entries.map
    (·.2)

end Queries

section Snapshots

variable {K α : Type} {key : α → K} {stamp : α → Time}
  {rows older batch newer : List α} {first : α} {t : Time}

/-- A batch that begins with the row `first`, between rows that are older than all of it and rows
that are newer than `t`. -/
structure Bracketed (key : α → K) (stamp : α → Time) (older batch newer : List α) (first : α)
    (t : Time) : Prop where
  older_lt : ∀ row ∈ older, stamp row < stamp first
  first_mem : first ∈ batch
  first_le : ∀ row ∈ batch, stamp first ≤ stamp row
  batch_lt : ∀ row ∈ batch, stamp row < t
  newer_gt : ∀ row ∈ newer, t < stamp row
  keys_nodup : (batch.map key).Nodup

theorem Bracketed.filter_eq (h : Bracketed key stamp older batch newer first t) :
    ((older ++ batch ++ newer).filter fun row ↦ stamp first ≤ stamp row ∧ stamp row ≤ t) =
      batch := by
  have holder : older.filter (fun row ↦ stamp first ≤ stamp row ∧ stamp row ≤ t) = [] := by
    refine List.filter_eq_nil_iff.2 fun row hrow hsel ↦ ?_
    exact absurd (of_decide_eq_true hsel).1 (h.older_lt row hrow).not_ge
  have hbatch : batch.filter (fun row ↦ stamp first ≤ stamp row ∧ stamp row ≤ t) = batch :=
    List.filter_eq_self.2 fun row hrow ↦
      decide_eq_true ⟨h.first_le row hrow, (h.batch_lt row hrow).le⟩
  have hnewer : newer.filter (fun row ↦ stamp first ≤ stamp row ∧ stamp row ≤ t) = [] := by
    refine List.filter_eq_nil_iff.2 fun row hrow hsel ↦ ?_
    exact absurd (of_decide_eq_true hsel).2 (h.newer_gt row hrow).not_ge
  rw [List.filter_append, List.filter_append, holder, hbatch, hnewer, List.nil_append,
    List.append_nil]

variable [LinearOrder K]

theorem mem_latestPer_of_nodup (h : (rows.map key).Nodup) {k : K} {row : α} :
    (latestPer key stamp rows).get k = some row ↔ row ∈ rows ∧ key row = k := by
  induction rows using List.reverseRecOn generalizing k row with
  | nil => simp [latestPer, SortedMap.get_empty]
  | append_singleton rows new ih =>
    rw [List.map_append, List.map_singleton, List.nodup_append] at h
    obtain ⟨hrows, -, hdisjoint⟩ := h
    have hnew : (latestPer key stamp rows).get (key new) = none := by
      rw [Option.eq_none_iff_forall_ne_some]
      intro row' hrow'
      obtain ⟨hmem, hkey⟩ := (ih hrows).1 hrow'
      exact hdisjoint (key row') (List.mem_map_of_mem hmem) (key new) (by simp) hkey
    have hstep : latestPer key stamp (rows ++ [new]) =
        (latestPer key stamp rows).insert (key new) new := by
      rw [latestPer, List.foldl_append, List.foldl_cons, List.foldl_nil, ← latestPer, hnew]
    rw [hstep, SortedMap.get_insert, List.mem_append, List.mem_singleton]
    split_ifs with hk
    · subst hk
      rw [Option.some_inj]
      constructor
      · rintro rfl
        exact ⟨.inr rfl, rfl⟩
      · rintro ⟨hmem | rfl, hkey⟩
        · have hget := (ih hrows).2 ⟨hmem, hkey⟩
          rw [hnew] at hget
          cases hget
        · rfl
    · rw [ih hrows]
      constructor
      · rintro ⟨hmem, hkey⟩
        exact ⟨.inl hmem, hkey⟩
      · rintro ⟨hmem | rfl, hkey⟩
        · exact ⟨hmem, hkey⟩
        · exact absurd hkey.symm hk

theorem latestPer_perm (h : (rows.map key).Nodup) :
    ((latestPer key stamp rows).entries.map (·.2)).Perm rows := by
  set latest := latestPer key stamp rows with hlatest
  have hkeys : latest.entries.map (key ∘ (·.2)) = latest.keys := by
    refine List.map_congr_left fun entry hentry ↦ ?_
    have hget : latest.get entry.1 = some entry.2 := SortedMap.get_eq_some.2 hentry
    have hkey := latestPer_key hget
    exact hkey
  have hnodup : (latest.entries.map (·.2)).Nodup := by
    refine List.Nodup.of_map key ?_
    rw [List.map_map, hkeys]
    exact latest.keys_nodup
  refine (List.perm_ext_iff_of_nodup hnodup (List.Nodup.of_map key h)).2 fun row ↦ ?_
  rw [List.mem_map]
  constructor
  · rintro ⟨entry, hentry, rfl⟩
    exact ((mem_latestPer_of_nodup h).1 (SortedMap.get_eq_some.2 hentry)).1
  · intro hmem
    have hget : latest.get (key row) = some row := (mem_latestPer_of_nodup h).2 ⟨hmem, rfl⟩
    exact ⟨_, SortedMap.get_eq_some.1 hget, rfl⟩

theorem Bracketed.latestBefore_eq (h : Bracketed key stamp older batch newer first t) :
    latestBefore key stamp (older ++ batch ++ newer) (key first) t = some first := by
  set selected := (older ++ batch ++ newer).filter fun row ↦ key row = key first ∧ stamp row < t
  have hfirst : first ∈ selected := by
    refine List.mem_filter.2 ⟨by simp [h.first_mem], ?_⟩
    exact decide_eq_true ⟨rfl, h.batch_lt first h.first_mem⟩
  cases hmax : selected.argmax stamp with
  | none =>
    rw [List.argmax_eq_none] at hmax
    rw [hmax] at hfirst
    cases hfirst
  | some row =>
    refine hmax.trans (congrArg some ?_)
    have hle := List.le_of_mem_argmax hfirst hmax
    obtain ⟨hmem, hrow⟩ := List.mem_filter.1 (List.argmax_mem hmax)
    obtain ⟨hkey, hlt⟩ := of_decide_eq_true hrow
    rw [List.mem_append, List.mem_append] at hmem
    rcases hmem with (holder | hbatch) | hnewer
    · exact absurd hle (h.older_lt row holder).not_ge
    · exact List.inj_on_of_nodup_map h.keys_nodup hbatch h.first_mem hkey
    · exact absurd hlt (h.newer_gt row hnewer).not_gt

theorem latestBefore_eq_none {k : K} (h : ∀ row ∈ rows, key row = k → ¬ stamp row < t) :
    latestBefore key stamp rows k t = none := by
  refine List.argmax_eq_none.2 (List.filter_eq_nil_iff.2 fun row hrow hsel ↦ ?_)
  obtain ⟨hkey, hlt⟩ := of_decide_eq_true hsel
  exact h row hrow hkey hlt

theorem Bracketed.uniqueBetween_perm (h : Bracketed key stamp older batch newer first t) :
    (uniqueBetween key stamp (older ++ batch ++ newer) (stamp first) t).Perm batch := by
  rw [uniqueBetween, h.filter_eq]
  exact latestPer_perm h.keys_nodup

end Snapshots

namespace Database

end Database

end Zaciraci.Persistence
