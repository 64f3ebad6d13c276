import Zaciraci.Auth.User
import Zaciraci.Lib.SnapshotCache

namespace Zaciraci.Auth

open Lib SnapshotCache

def loadUsers (table : List DbAuthorizedUser) : Except String (SortedMap Email Role) :=
  (listAll table).map fromEntries

/-- The table `authorized_users`, the cached map and the calls of `reload` in progress, from the
background task and from elsewhere. -/
abbrev UserCache := World (List DbAuthorizedUser) (SortedMap Email Role)

def Grants (email : Email) (role : Role) (table : List DbAuthorizedUser) : Prop :=
  ∃ user ∈ table, toEntry user = some (email, role)

theorem lookup_loadUsers {table : List DbAuthorizedUser} {users : SortedMap Email Role}
    {email : Email} {role : Role} (hload : loadUsers table = .ok users)
    (h : lookup users email = some role) : Grants email role table := by
  simp only [loadUsers, listAll] at hload
  split at hload
  · cases hload
  · cases hload
    obtain hempty | hmem := SortedMap.of_get_foldl_insert h
    · cases hempty
    · obtain ⟨user, huser, hentry⟩ := List.mem_filterMap.mp hmem
      refine ⟨user, ?_, hentry⟩
      exact (List.mem_insertionSort _).mp (List.mem_of_mem_take huser)

/-- The table no longer gives `email` the role and some reload that started since has returned.
The role stays away exactly when no other reload still in progress holds a map from before. -/
theorem revocation_kept_iff {email : Email} {role : Role} {i : ℕ} {w w' : UserCache}
    {es₁ es₂ : List (Event (List DbAuthorizedUser))} (hrevoked : ¬Grants email role w.db)
    (hrun : Run loadUsers w (es₁ ++ .start i :: es₂ ++ [.publish i]) w')
    (hwrites : Writes (fun table ↦ ¬Grants email role table) (es₁ ++ es₂)) :
    (∀ es w'', Run loadUsers w' es w'' → Writes (fun table ↦ ¬Grants email role table) es →
        lookup w''.cache email ≠ some role) ↔
      ∀ j users, w'.reloads j = some (.loaded users) → lookup users email ≠ some role := by
  have hread : ∀ table users, ¬Grants email role table → loadUsers table = .ok users →
      ¬lookup users email = some role := by
    intro table users htable hload hlookup
    exact htable (lookup_loadUsers hload hlookup)
  obtain ⟨hdb, hcache⟩ := hrun.cache_of_reload hread hwrites hrevoked
  rw [never_old_iff hread hdb hcache]
  simp [NoneOld]

def aliceRow : DbAuthorizedUser := ⟨alice.text, "writer"⟩

theorem loadUsers_alice : loadUsers [aliceRow] = .ok (fromEntries [(alice, .writer)]) := by
  have hentry : toEntry aliceRow = some (alice, .writer) := by
    simp [toEntry, aliceRow, Email.new_text, Except.toOption, Role.fromStr]
  simp [loadUsers, listAll, listAllHardLimit, hentry, Except.map]

theorem loadUsers_nil : loadUsers [] = .ok (fromEntries []) := rfl

/-- While the reload `1`, which began after the row was deleted, still holds its map. -/
theorem revocation_kept_fresh :
    ∃ w : UserCache, w.cache = fromEntries [] ∧ w.reloads 1 = some (.loaded (fromEntries [])) ∧
      ∀ es w', Run loadUsers w es w' → Writes (fun table ↦ ¬Grants alice .writer table) es →
        lookup w'.cache alice ≠ some .writer := by
  let w : UserCache := ⟨[], fromEntries [(alice, .writer)], fun _ ↦ none⟩
  have hrun : Run loadUsers w
      ([] ++ .start 0 :: [.query 0, .start 1, .query 1] ++ [.publish 0]) _ :=
    .cons (.start rfl) (.cons (.query (by simp) loadUsers_nil) (.cons (.start (by simp [w]))
      (.cons (.query (by simp) loadUsers_nil)
        (.cons (@Step.publish _ _ _ _ _ _ (fromEntries []) (by simp)) .nil))))
  refine ⟨_, rfl, by simp, (revocation_kept_iff (by simp [Grants, w]) hrun
    (by simp [Writes])).mpr ?_⟩
  intro j users hj
  by_cases h0 : j = 0
  · simp [h0] at hj
  · by_cases h1 : j = 1
    · have husers : fromEntries [] = users := by simpa [h1] using hj
      rw [← husers]
      nofun
    · simp [h0, h1, w] at hj

/-- The reload `0` has read the row before it is deleted and publishes it after the reload `1`
has returned. -/
theorem revocation_undone :
    ∃ w : UserCache,
      Run loadUsers ⟨[aliceRow], fromEntries [(alice, .writer)], fun _ ↦ none⟩
        [.start 0, .query 0, .write [], .start 1, .query 1, .publish 1, .publish 0] w ∧
      w.db = [] ∧ lookup w.cache alice = some .writer := by
  refine ⟨_, .cons (.start rfl) (.cons (.query (by simp) loadUsers_alice) (.cons (.write [])
    (.cons (.start (by simp)) (.cons (.query (by simp) loadUsers_nil)
      (.cons (@Step.publish _ _ _ _ _ _ (fromEntries []) (by simp))
        (.cons (@Step.publish _ _ _ _ _ _ (fromEntries [(alice, .writer)]) (by simp)) .nil)))))),
    rfl, ?_⟩
  simp [lookup, fromEntries]

end Zaciraci.Auth
