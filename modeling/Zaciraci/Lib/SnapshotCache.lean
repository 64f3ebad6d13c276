import Mathlib.Logic.Function.Basic
import Mathlib.Data.Nat.Notation

namespace Zaciraci.Lib.SnapshotCache

variable {D S ε : Type}

/-- A reload that waits for its query, or that holds what the query returned. -/
inductive Reload (S : Type)
  | querying
  | loaded (snapshot : S)

/-- A database, a cache of a snapshot of it, and the reloads in progress. -/
structure World (D S : Type) where
  db : D
  cache : S
  reloads : ℕ → Option (Reload S)

inductive Event (D : Type)
  | write (db : D)
  | start (i : ℕ)
  | query (i : ℕ)
  | fail (i : ℕ)
  | publish (i : ℕ)

/-- A reload reads the database and publishes what it read in separate steps. A failed one leaves
the cache as it is. -/
inductive Step (read : D → Except ε S) : World D S → Event D → World D S → Prop
  | write {w : World D S} (db : D) : Step read w (.write db) { w with db }
  | start {w : World D S} {i : ℕ} : w.reloads i = none →
      Step read w (.start i) { w with reloads := Function.update w.reloads i (some .querying) }
  | query {w : World D S} {i : ℕ} {snapshot : S} : w.reloads i = some .querying →
      read w.db = .ok snapshot → Step read w (.query i)
        { w with reloads := Function.update w.reloads i (some (.loaded snapshot)) }
  | fail {w : World D S} {i : ℕ} : w.reloads i = some .querying →
      Step read w (.fail i) { w with reloads := Function.update w.reloads i none }
  | publish {w : World D S} {i : ℕ} {snapshot : S} : w.reloads i = some (.loaded snapshot) →
      Step read w (.publish i)
        { w with cache := snapshot, reloads := Function.update w.reloads i none }

inductive Run (read : D → Except ε S) : World D S → List (Event D) → World D S → Prop
  | nil {w : World D S} : Run read w [] w
  | cons {w₁ w₂ w₃ : World D S} {e : Event D} {es : List (Event D)} :
      Step read w₁ e w₂ → Run read w₂ es w₃ → Run read w₁ (e :: es) w₃

/-- Every write of `es` is to a database with the property. -/
def Writes (P : D → Prop) (es : List (Event D)) : Prop := ∀ db, .write db ∈ es → P db

section Invariants

variable {read : D → Except ε S} {Clean : D → Prop} {Old : S → Prop} {w w₁ w₂ w₃ : World D S}
  {e : Event D} {es : List (Event D)}

/-- None of the reloads chosen by `who` holds an old snapshot. -/
def NoneOld (Old : S → Prop) (who : ℕ → Prop) (w : World D S) : Prop :=
  ∀ i snapshot, who i → w.reloads i = some (.loaded snapshot) → ¬Old snapshot

theorem Run.of_append {es' : List (Event D)} (h : Run read w₁ (es ++ es') w₃) :
    ∃ w₂, Run read w₁ es w₂ ∧ Run read w₂ es' w₃ := by
  induction es generalizing w₁ with
  | nil => exact ⟨w₁, .nil, h⟩
  | cons e es ih =>
    cases h with
    | cons hstep hrest =>
      obtain ⟨w₂, h₁, h₂⟩ := ih hrest
      exact ⟨w₂, .cons hstep h₁, h₂⟩

theorem Step.clean (h : Step read w₁ e w₂) (hw : Writes Clean [e]) (hdb : Clean w₁.db) :
    Clean w₂.db := by
  cases h with
  | write db => exact hw db (List.mem_singleton.mpr rfl)
  | _ => exact hdb

theorem Step.noneOld {who : ℕ → Prop}
    (hread : ∀ db snapshot, Clean db → read db = .ok snapshot → ¬Old snapshot)
    (h : Step read w₁ e w₂) (hdb : Clean w₁.db) (hold : NoneOld Old who w₁) :
    NoneOld Old who w₂ := by
  intro j snapshot hj hloaded
  cases h with
  | write db => exact hold j snapshot hj hloaded
  | @query i s hi hs =>
    by_cases hij : j = i
    · subst hij
      obtain rfl : s = snapshot := by simpa using hloaded
      exact hread _ _ hdb hs
    · exact hold j snapshot hj (by simpa [hij] using hloaded)
  | @start i | @fail i | @publish i =>
    by_cases hij : j = i
    · simp [hij] at hloaded
    · exact hold j snapshot hj (by simpa [hij] using hloaded)

theorem Run.noneOld (who : ℕ → Prop)
    (hread : ∀ db snapshot, Clean db → read db = .ok snapshot → ¬Old snapshot)
    (h : Run read w₁ es w₂) (hw : Writes Clean es) (hdb : Clean w₁.db)
    (hold : NoneOld Old who w₁) : Clean w₂.db ∧ NoneOld Old who w₂ := by
  induction h with
  | nil => exact ⟨hdb, hold⟩
  | @cons w₁ w₂ w₃ e es hstep _ ih =>
    have hfirst : Writes Clean [e] := fun db hmem ↦ hw db (by simp_all)
    refine ih (fun db hmem ↦ hw db (List.mem_cons_of_mem _ hmem)) (hstep.clean hfirst hdb) ?_
    exact hstep.noneOld hread hdb hold

theorem Step.cache (h : Step read w₁ e w₂) (hold : NoneOld Old (fun _ ↦ True) w₁)
    (hcache : ¬Old w₁.cache) : ¬Old w₂.cache := by
  cases h with
  | publish hi => exact hold _ _ trivial hi
  | _ => exact hcache

theorem Run.cache (hread : ∀ db snapshot, Clean db → read db = .ok snapshot → ¬Old snapshot)
    (h : Run read w₁ es w₂) (hw : Writes Clean es) (hdb : Clean w₁.db)
    (hold : NoneOld Old (fun _ ↦ True) w₁) (hcache : ¬Old w₁.cache) : ¬Old w₂.cache := by
  induction h with
  | nil => exact hcache
  | @cons w₁ w₂ w₃ e es hstep _ ih =>
    have hfirst : Writes Clean [e] := fun db hmem ↦ hw db (by simp_all)
    refine ih (fun db hmem ↦ hw db (List.mem_cons_of_mem _ hmem)) (hstep.clean hfirst hdb) ?_ ?_
    · exact hstep.noneOld hread hdb hold
    · exact hstep.cache hold hcache

theorem Run.cache_of_reload
    (hread : ∀ db snapshot, Clean db → read db = .ok snapshot → ¬Old snapshot) {i : ℕ}
    {es₁ es₂ : List (Event D)} (h : Run read w₁ (es₁ ++ .start i :: es₂ ++ [.publish i]) w₂)
    (hw : Writes Clean (es₁ ++ es₂)) (hdb : Clean w₁.db) : Clean w₂.db ∧ ¬Old w₂.cache := by
  obtain ⟨w₅, h₁₅, hpublish⟩ := h.of_append
  obtain ⟨w₃, h₁₃, h₃₅⟩ := h₁₅.of_append
  have hw₁ : Writes Clean es₁ := fun db hmem ↦ hw db (List.mem_append_left _ hmem)
  have hw₂ : Writes Clean es₂ := fun db hmem ↦ hw db (List.mem_append_right _ hmem)
  have hdb₃ : Clean w₃.db :=
    (h₁₃.noneOld (fun _ ↦ False) hread hw₁ hdb fun _ _ hfalse ↦ hfalse.elim).1
  cases h₃₅ with
  | cons hstart h₄₅ =>
    cases hstart with
    | start hnone =>
      obtain ⟨hdb₅, hold₅⟩ := h₄₅.noneOld (· = i) hread hw₂ hdb₃ (by
        rintro j snapshot rfl hloaded
        simp at hloaded)
      cases hpublish with
      | cons hstep hnil =>
        cases hstep with
        | publish hi =>
          cases hnil
          exact ⟨hdb₅, hold₅ i _ rfl hi⟩

/-- After such a reload the old snapshots stay away exactly when no reload in progress holds
one. -/
theorem never_old_iff
    (hread : ∀ db snapshot, Clean db → read db = .ok snapshot → ¬Old snapshot)
    (hdb : Clean w.db) (hcache : ¬Old w.cache) :
    (∀ es w', Run read w es w' → Writes Clean es → ¬Old w'.cache) ↔
      NoneOld Old (fun _ ↦ True) w := by
  constructor
  · intro h i snapshot _ hi
    refine h [.publish i] _ (.cons (.publish hi) .nil) ?_
    intro db hmem
    simp at hmem
  · intro hold es w' hrun hw
    exact hrun.cache hread hw hdb hold hcache

end Invariants

end Zaciraci.Lib.SnapshotCache
