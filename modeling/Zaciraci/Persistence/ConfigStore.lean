import Mathlib.Data.List.Lex
import Zaciraci.Config
import Zaciraci.Lib.SortedMap
import Zaciraci.Lib.Table
import Zaciraci.Units

namespace Zaciraci.Persistence

open Lib

structure DbConfigEntry where
  instanceId : String
  key : String
  value : String
  description : Option String
  updatedAt : Time
  createdAt : Time

def DbConfigEntry.primaryKey (entry : DbConfigEntry) : String × String :=
  (entry.instanceId, entry.key)

def DbConfigEntry.overwrite (now : Time) (value : String) (description : Option String)
    (entry : DbConfigEntry) : DbConfigEntry :=
  { entry with value, description, updatedAt := now }

theorem DbConfigEntry.primaryKey_overwrite (now : Time) (value : String)
    (description : Option String) (entry : DbConfigEntry) :
    (entry.overwrite now value description).primaryKey = entry.primaryKey := rfl

structure ConfigHistory where
  instanceId : String
  key : String
  oldValue : Option String
  newValue : String
  changedAt : Time
deriving DecidableEq

structure ConfigStore where
  entries : Table DbConfigEntry (String × String) DbConfigEntry.primaryKey
  history : List ConfigHistory

/-- Texts are ordered by their bytes. -/
def bytes (s : String) : List ℕ := s.toByteArray.data.toList.map UInt8.toNat

/-- `ORDER BY instance_id DESC`. -/
abbrev InstanceDesc (a b : DbConfigEntry) : Prop := bytes b.instanceId ≤ bytes a.instanceId

namespace ConfigStore

variable (store : ConfigStore)

def visible (instanceId : String) : List DbConfigEntry :=
  store.entries.rows.filter fun entry ↦
    entry.instanceId = instanceId ∨ entry.instanceId = "*"

def overlay (configs : SortedMap String String) (entries : List DbConfigEntry) :
    SortedMap String String :=
  entries.foldl (fun configs entry ↦ configs.insert entry.key entry.value) configs

def getAllForInstance (instanceId : String) : SortedMap String String :=
  let results := (store.visible instanceId).insertionSort InstanceDesc
  let configs := overlay .empty (results.filter (·.instanceId = "*"))
  overlay configs (results.filter (·.instanceId ≠ "*"))

def getOne (instanceId key : String) : Option String :=
  let results :=
    ((store.visible instanceId).filter (·.key = key)).insertionSort InstanceDesc
  results.head?.map (·.value)

def upsert (now : Time) (instanceId key value : String) (description : Option String) :
    ConfigStore :=
  let oldValue := (store.entries.find (instanceId, key)).map (·.value)
  { entries := store.entries.upsert ⟨instanceId, key, value, description, now, now⟩
      (DbConfigEntry.overwrite now value description) (DbConfigEntry.primaryKey_overwrite _ _ _)
    history := store.history ++ [⟨instanceId, key, oldValue, value, now⟩] }

def delete (now : Time) (instanceId key : String) : ConfigStore :=
  match store.entries.find (instanceId, key) with
  | none => store
  | some entry =>
    { entries := store.entries.delete (instanceId, key)
      history := store.history ++ [⟨instanceId, key, some entry.value, "(deleted)", now⟩] }

/-- Never is less than a week of the history kept. -/
def minRetentionDays : ℕ := 7

def cleanupOldHistory (now : Time) (retentionDays : UInt32) : ConfigStore :=
  if retentionDays = 0 then store
  else
    let cutoffDate := now - max retentionDays.toNat minRetentionDays * day
    { store with history := store.history.filter fun entry ↦ ¬ entry.changedAt < cutoffDate }

def reloadToConfig (instanceId : String) (src : Config.Sources) : Config.Sources :=
  { src with dbStore := (store.getAllForInstance instanceId).get }

def value (instanceId key : String) : Option String :=
  (store.entries.find (instanceId, key)).map (·.value)

end ConfigStore

section Readers

open ConfigStore

variable {store : ConfigStore} {instanceId key text : String}

theorem bytes_injective : Function.Injective bytes := by
  intro s t h
  have hlist := List.map_injective_iff.2 (fun _ _ ↦ UInt8.toNat_inj.1) h
  exact String.toByteArray_inj.1 (ByteArray.ext (Array.toList_inj.1 hlist))

instance : IsTrans DbConfigEntry InstanceDesc := ⟨fun _ _ _ hab hbc ↦ le_trans hbc hab⟩

instance : Std.Total InstanceDesc := ⟨fun a b ↦ le_total (bytes b.instanceId) (bytes a.instanceId)⟩

theorem value_eq_some : store.value instanceId key = some text ↔
    ∃ entry ∈ store.entries.rows, entry.instanceId = instanceId ∧ entry.key = key ∧
      entry.value = text := by
  simp only [value, Option.map_eq_some_iff, Table.find_eq_some, DbConfigEntry.primaryKey,
    Prod.mk.injEq, and_assoc]

theorem value_eq_none : store.value instanceId key = none ↔
    ∀ entry ∈ store.entries.rows, entry.instanceId = instanceId → entry.key ≠ key := by
  simp [value, Table.find_eq_none, DbConfigEntry.primaryKey]

theorem mem_visible {entry : DbConfigEntry} : entry ∈ store.visible instanceId ↔
    entry ∈ store.entries.rows ∧ (entry.instanceId = instanceId ∨ entry.instanceId = "*") := by
  simp [visible]

variable {entries : List DbConfigEntry}

theorem nodup_keys (hnodup : (entries.map DbConfigEntry.primaryKey).Nodup)
    (h : ∀ entry ∈ entries, entry.instanceId = instanceId) : (entries.map (·.key)).Nodup := by
  have hpairs : entries.map DbConfigEntry.primaryKey =
      (entries.map (·.key)).map fun key ↦ (instanceId, key) := by
    rw [List.map_map]
    exact List.map_congr_left fun entry hentry ↦ congrArg (·, entry.key) (h entry hentry)
  rw [hpairs] at hnodup
  exact hnodup.of_map

theorem nodup_results (p : DbConfigEntry → Bool) :
    ((((store.visible instanceId).insertionSort InstanceDesc).filter p).map
      DbConfigEntry.primaryKey).Nodup := by
  have hperm := (List.perm_insertionSort InstanceDesc (store.visible instanceId)).filter p
  refine (hperm.map _).nodup_iff.2 (store.entries.unique.sublist ?_)
  exact (List.filter_sublist.trans List.filter_sublist).map _

theorem get_overlay {configs : SortedMap String String}
    (hnodup : (entries.map DbConfigEntry.primaryKey).Nodup)
    (h : ∀ entry, entry ∈ entries ↔ entry ∈ store.entries.rows ∧ entry.instanceId = instanceId) :
    (overlay configs entries).get key = (store.value instanceId key).or (configs.get key) := by
  have hfold : overlay configs entries = (entries.map fun entry ↦ (entry.key, entry.value)).foldl
      (fun configs entry ↦ configs.insert entry.1 entry.2) configs := by
    rw [overlay, List.foldl_map]
  have hkeys : (entries.map fun entry ↦ (entry.key, entry.value)).map Prod.fst =
      entries.map (·.key) := List.map_map
  rw [hfold]
  cases hvalue : store.value instanceId key with
  | some text =>
    obtain ⟨entry, hentry, hinstance, rfl, rfl⟩ := value_eq_some.1 hvalue
    refine SortedMap.get_foldl_insert_of_mem ?_
      (List.mem_map.2 ⟨entry, (h entry).2 ⟨hentry, hinstance⟩, rfl⟩)
    rw [hkeys]
    exact nodup_keys hnodup fun entry hentry ↦ ((h entry).1 hentry).2
  | none =>
    refine SortedMap.get_foldl_insert_of_notMem fun hkey ↦ ?_
    rw [hkeys] at hkey
    obtain ⟨entry, hentry, heq⟩ := List.mem_map.1 hkey
    obtain ⟨hrow, hinstance⟩ := (h entry).1 hentry
    exact value_eq_none.1 hvalue entry hrow hinstance heq

theorem get_getAllForInstance (store : ConfigStore) (instanceId key : String) :
    (store.getAllForInstance instanceId).get key =
      (store.value instanceId key).or (store.value "*" key) := by
  have hglobal : ∀ entry, entry ∈ ((store.visible instanceId).insertionSort InstanceDesc).filter
      (·.instanceId = "*") ↔ entry ∈ store.entries.rows ∧ entry.instanceId = "*" := by
    intro entry
    rw [List.mem_filter, List.mem_insertionSort, mem_visible, decide_eq_true_eq]
    tauto
  have hbase : (overlay .empty (((store.visible instanceId).insertionSort InstanceDesc).filter
      (·.instanceId = "*"))).get key = store.value "*" key := by
    rw [get_overlay (nodup_results _) hglobal, SortedMap.get_empty, Option.or_none]
  rw [getAllForInstance]
  by_cases hinstance : instanceId = "*"
  · -- The second loop meets no row.
    have hnone : ((store.visible instanceId).insertionSort InstanceDesc).filter
        (·.instanceId ≠ "*") = [] := by
      refine List.filter_eq_nil_iff.2 fun entry hentry ↦ ?_
      rw [List.mem_insertionSort, mem_visible, hinstance, or_self] at hentry
      simp [hentry.2]
    have hself : (store.value instanceId key).or (store.value "*" key) = store.value "*" key := by
      rw [hinstance, Option.or_self]
    rw [hnone, hself]
    exact hbase
  · have hown : ∀ entry, entry ∈ ((store.visible instanceId).insertionSort InstanceDesc).filter
        (·.instanceId ≠ "*") ↔ entry ∈ store.entries.rows ∧ entry.instanceId = instanceId := by
      intro entry
      rw [List.mem_filter, List.mem_insertionSort, mem_visible, decide_eq_true_eq]
      constructor
      · rintro ⟨⟨hrow, heq | heq⟩, hne⟩
        · exact ⟨hrow, heq⟩
        · exact absurd heq hne
      · rintro ⟨hrow, rfl⟩
        exact ⟨⟨hrow, .inl rfl⟩, hinstance⟩
    rw [get_overlay (nodup_results _) hown, hbase]

theorem head_insertionSort {entry : DbConfigEntry}
    (h : (entries.insertionSort InstanceDesc).head? = some entry) :
    entry ∈ entries ∧ ∀ other ∈ entries, bytes other.instanceId ≤ bytes entry.instanceId := by
  obtain ⟨rest, hsorted⟩ := List.head?_eq_some_iff.1 h
  have hmem : ∀ other, other ∈ entries ↔ other ∈ entry :: rest := by
    intro other
    rw [← hsorted, List.mem_insertionSort]
  have hpairwise := List.pairwise_insertionSort InstanceDesc entries
  rw [hsorted, List.pairwise_cons] at hpairwise
  refine ⟨(hmem entry).2 List.mem_cons_self, fun other hother ↦ ?_⟩
  obtain rfl | hrest := List.mem_cons.1 ((hmem other).1 hother)
  · exact le_rfl
  · exact hpairwise.1 other hrest

/-- The row that `getOne` reads is that of the instance only if the instance is not sorted
before `*`. -/
theorem getOne_eq (store : ConfigStore) (instanceId key : String) :
    store.getOne instanceId key =
      if bytes instanceId < bytes "*" then (store.value "*" key).or (store.value instanceId key)
      else (store.value instanceId key).or (store.value "*" key) := by
  have hmem : ∀ entry, entry ∈ (store.visible instanceId).filter (·.key = key) ↔
      entry ∈ store.entries.rows ∧ (entry.instanceId = instanceId ∨ entry.instanceId = "*") ∧
        entry.key = key := by
    intro entry
    rw [List.mem_filter, mem_visible, decide_eq_true_eq, and_assoc]
  rw [getOne]
  cases hhead : (((store.visible instanceId).filter (·.key = key)).insertionSort
      InstanceDesc).head? with
  | none =>
    rw [List.head?_eq_none_iff] at hhead
    have hempty : ∀ entry ∈ store.entries.rows,
        entry.instanceId = instanceId ∨ entry.instanceId = "*" → entry.key ≠ key := by
      intro entry hrow hinstance hkey
      have hselected := (hmem entry).2 ⟨hrow, hinstance, hkey⟩
      rw [← List.mem_insertionSort InstanceDesc, hhead] at hselected
      cases hselected
    have hown : store.value instanceId key = none :=
      value_eq_none.2 fun entry hrow h ↦ hempty entry hrow (.inl h)
    have hglobal : store.value "*" key = none :=
      value_eq_none.2 fun entry hrow h ↦ hempty entry hrow (.inr h)
    rw [hown, hglobal, Option.or_none, ite_self]
    rfl
  | some entry =>
    obtain ⟨hentry, hgreatest⟩ := head_insertionSort hhead
    obtain ⟨hrow, hinstance, hkey⟩ := (hmem entry).1 hentry
    have hread : store.value entry.instanceId key = some entry.value :=
      value_eq_some.2 ⟨entry, hrow, rfl, hkey, rfl⟩
    have hle : ∀ j, j = instanceId ∨ j = "*" → store.value j key ≠ none →
        bytes j ≤ bytes entry.instanceId := by
      intro j hj hne
      obtain ⟨text, htext⟩ := Option.ne_none_iff_exists'.1 hne
      obtain ⟨other, hother, rfl, hotherKey, -⟩ := value_eq_some.1 htext
      exact hgreatest other ((hmem other).2 ⟨hother, hj, hotherKey⟩)
    rw [Option.map_some, ← hread]
    split_ifs with hbefore
    · obtain heq | heq := hinstance
      · have hglobal : store.value "*" key = none := by
          by_contra hne
          exact absurd (heq ▸ hle "*" (.inr rfl) hne) hbefore.not_ge
        rw [hglobal, Option.none_or, heq]
      · rw [← heq, hread, Option.some_or]
    · obtain heq | heq := hinstance
      · rw [← heq, hread, Option.some_or]
      · cases hown : store.value instanceId key with
        | none => rw [Option.none_or, heq]
        | some text =>
          have hge := hle instanceId (.inl rfl) (by simp [hown])
          have hsame : instanceId = "*" :=
            bytes_injective (le_antisymm (heq ▸ hge) (not_lt.1 hbefore))
          rw [Option.some_or, ← hown, heq, hsame]

theorem exists_conflict_iff :
    (∃ own ∈ store.entries.rows, ∃ shared ∈ store.entries.rows, own.instanceId = instanceId ∧
      own.key = key ∧ shared.instanceId = "*" ∧ shared.key = key ∧ own.value ≠ shared.value) ↔
      ∃ own shared, store.value instanceId key = some own ∧ store.value "*" key = some shared ∧
        own ≠ shared := by
  constructor
  · rintro ⟨own, hown, shared, hshared, rfl, rfl, hglobal, hkey, hne⟩
    exact ⟨own.value, shared.value, value_eq_some.2 ⟨own, hown, rfl, rfl, rfl⟩,
      value_eq_some.2 ⟨shared, hshared, hglobal, hkey, rfl⟩, hne⟩
  · rintro ⟨_, _, hvalue, hglobal, hne⟩
    obtain ⟨own, hown, hinstance, hkey, rfl⟩ := value_eq_some.1 hvalue
    obtain ⟨shared, hshared, hstar, hsharedKey, rfl⟩ := value_eq_some.1 hglobal
    exact ⟨own, hown, shared, hshared, hinstance, hkey, hstar, hsharedKey, hne⟩

/-- The two readers agree unless the name of the instance is sorted before `*` and both have a row
for the key, with different values. -/
theorem getOne_eq_getAllForInstance_iff (store : ConfigStore) (instanceId key : String) :
    (store.getAllForInstance instanceId).get key =
        (store.value instanceId key).or (store.value "*" key) ∧
      (store.getOne instanceId key = (store.getAllForInstance instanceId).get key ↔
        ¬ (bytes instanceId < bytes "*" ∧ ∃ own ∈ store.entries.rows,
          ∃ shared ∈ store.entries.rows, own.instanceId = instanceId ∧ own.key = key ∧
            shared.instanceId = "*" ∧ shared.key = key ∧ own.value ≠ shared.value)) := by
  refine ⟨get_getAllForInstance store instanceId key, ?_⟩
  rw [getOne_eq, get_getAllForInstance, exists_conflict_iff]
  by_cases hbefore : bytes instanceId < bytes "*"
  · cases hown : store.value instanceId key <;> cases hshared : store.value "*" key <;>
      simp [hbefore, eq_comm]
  · simp [hbefore]

/-- The settings after one for all instances and one for the instance `instanceId`. -/
def tradingStore (instanceId : String) : ConfigStore :=
  (ConfigStore.upsert ⟨.empty, []⟩ 0 "*" "TRADE_ENABLED" "true" none).upsert 1 instanceId
    "TRADE_ENABLED" "false" none

theorem getOne_agrees_inst1 :
    (tradingStore "inst-1").getOne "inst-1" "TRADE_ENABLED" =
      ((tradingStore "inst-1").getAllForInstance "inst-1").get "TRADE_ENABLED" :=
  (getOne_eq_getAllForInstance_iff (tradingStore "inst-1") "inst-1" "TRADE_ENABLED").2.2
    fun h ↦ absurd h.1 (by decide)

/-- An instance called `!` trades for one reader and not for the other. -/
theorem getOne_differs_exclamation :
    (tradingStore "!").getOne "!" "TRADE_ENABLED" = some "true" ∧
      ((tradingStore "!").getAllForInstance "!").get "TRADE_ENABLED" = some "false" := by
  decide

end Readers

section Runs

open ConfigStore

/-- What the settings are for: each instance has a value of its own for a key, or none. -/
abbrev Settings := String → String → Option String

def Settings.set (settings : Settings) (instanceId key : String) (text : Option String) :
    Settings :=
  fun i k ↦ if (i, k) = (instanceId, key) then text else settings i k

def Settings.effective (settings : Settings) (instanceId key : String) : Option String :=
  (settings instanceId key).or (settings "*" key)

inductive ConfigChange
  | upsert (instanceId key value : String) (description : Option String)
  | delete (instanceId key : String)
  | cleanupOldHistory (retentionDays : UInt32)

def ConfigStore.apply (store : ConfigStore) (now : Time) : ConfigChange → ConfigStore
  | .upsert instanceId key value description => store.upsert now instanceId key value description
  | .delete instanceId key => store.delete now instanceId key
  | .cleanupOldHistory retentionDays => store.cleanupOldHistory now retentionDays

def Settings.apply (settings : Settings) : ConfigChange → Settings
  | .upsert instanceId key value _ => settings.set instanceId key (some value)
  | .delete instanceId key => settings.set instanceId key none
  | .cleanupOldHistory _ => settings

def ConfigStore.run (store : ConfigStore) (changes : List (Time × ConfigChange)) : ConfigStore :=
  changes.foldl (fun store change ↦ store.apply change.1 change.2) store

variable {store : ConfigStore} {now : Time}

theorem value_upsert (instanceId key text : String) (description : Option String) :
    (store.upsert now instanceId key text description).value =
      Settings.set store.value instanceId key (some text) := by
  funext i k
  rw [value, ConfigStore.upsert, Table.find_upsert, Settings.set, DbConfigEntry.primaryKey]
  split_ifs
  · cases store.entries.find (i, k) <;> rfl
  · rfl

theorem value_delete (instanceId key : String) :
    (store.delete now instanceId key).value = Settings.set store.value instanceId key none := by
  funext i k
  rw [Settings.set, ConfigStore.delete]
  cases hfind : store.entries.find (instanceId, key) with
  | none =>
    split_ifs with hkey
    · rw [value, hkey, hfind]
      rfl
    · rfl
  | some entry =>
    rw [value, Table.find_delete]
    split_ifs
    · rfl
    · rfl

theorem value_cleanupOldHistory (retentionDays : UInt32) :
    (store.cleanupOldHistory now retentionDays).value = store.value := by
  rw [ConfigStore.cleanupOldHistory]
  split_ifs <;> rfl

theorem value_apply (change : ConfigChange) :
    (store.apply now change).value = Settings.apply store.value change := by
  cases change with
  | upsert instanceId key text description => exact value_upsert instanceId key text description
  | delete instanceId key => exact value_delete instanceId key
  | cleanupOldHistory retentionDays => exact value_cleanupOldHistory retentionDays

theorem value_run (store : ConfigStore) (changes : List (Time × ConfigChange)) :
    (store.run changes).value = (changes.map Prod.snd).foldl Settings.apply store.value := by
  induction changes generalizing store with
  | nil => rfl
  | cons change changes ih =>
    have hrest := ih (store.apply change.1 change.2)
    rw [value_apply] at hrest
    exact hrest

/-- After any changes an instance reads, for every key, the value that is in force for it. -/
theorem get_getAllForInstance_run (changes : List (Time × ConfigChange))
    (instanceId key : String) :
    ((store.run changes).getAllForInstance instanceId).get key =
      Settings.effective ((changes.map Prod.snd).foldl Settings.apply store.value) instanceId
        key := by
  rw [get_getAllForInstance, value_run]
  rfl

theorem get_reloadToConfig {src : Config.Sources} {instanceId key text : String}
    (hsrc : src.configStore key = none)
    (hvalue : Settings.effective store.value instanceId key = some text) (htext : text ≠ "") :
    Config.get (store.reloadToConfig instanceId src) key = .ok text := by
  have hdb : (store.reloadToConfig instanceId src).dbStore key = some text :=
    (get_getAllForInstance store instanceId key).trans hvalue
  have hown : (store.reloadToConfig instanceId src).configStore key = none := hsrc
  rw [Config.get, hown, hdb]
  exact if_neg htext

theorem mem_history_apply {entry : ConfigHistory} (h : entry ∈ store.history)
    (hrecent : now - minRetentionDays * day ≤ entry.changedAt) (change : ConfigChange) :
    entry ∈ (store.apply now change).history := by
  cases change with
  | upsert => exact List.mem_append_left _ h
  | delete instanceId key =>
    change entry ∈ (store.delete now instanceId key).history
    rw [ConfigStore.delete]
    split
    · exact h
    · exact List.mem_append_left _ h
  | cleanupOldHistory retentionDays =>
    change entry ∈ (store.cleanupOldHistory now retentionDays).history
    rw [ConfigStore.cleanupOldHistory]
    split_ifs
    · exact h
    · have hdays : (minRetentionDays : ℤ) * day ≤
          max retentionDays.toNat minRetentionDays * day := by
        refine mul_le_mul_of_nonneg_right ?_ (by decide)
        exact_mod_cast le_max_right retentionDays.toNat minRetentionDays
      refine List.mem_filter.2 ⟨h, decide_eq_true (not_lt.2 ?_)⟩
      exact (sub_le_sub_left hdays now).trans hrecent

theorem mem_history_run {entry : ConfigHistory} {changes : List (Time × ConfigChange)}
    (h : entry ∈ store.history)
    (hrecent : ∀ change ∈ changes, change.1 - minRetentionDays * day ≤ entry.changedAt) :
    entry ∈ (store.run changes).history := by
  induction changes generalizing store with
  | nil => exact h
  | cons change changes ih =>
    rw [List.forall_mem_cons] at hrecent
    exact ih (mem_history_apply h hrecent.1 change.2) hrecent.2

theorem run_append (before after : List (Time × ConfigChange)) :
    store.run (before ++ after) = (store.run before).run after := List.foldl_append

/-- Every setting made stays on record for a week, with the value that it replaced. -/
theorem upsert_recorded (before after : List (Time × ConfigChange)) (now : Time)
    (instanceId key text : String) (description : Option String)
    (hafter : ∀ change ∈ after, change.1 ≤ now + minRetentionDays * day) :
    ⟨instanceId, key, (store.run before).value instanceId key, text, now⟩ ∈
      (store.run (before ++ (now, .upsert instanceId key text description) :: after)).history := by
  have hmade : ⟨instanceId, key, (store.run before).value instanceId key, text, now⟩ ∈
      ((store.run before).upsert now instanceId key text description).history :=
    List.mem_append_right _ (List.mem_singleton.2 rfl)
  have hkept : ∀ change ∈ after, change.1 - minRetentionDays * day ≤ now := fun change h ↦
    sub_le_iff_le_add.2 (hafter change h)
  rw [run_append]
  exact (mem_history_run hmade hkept :)

/-- A cleanup that is to keep one day keeps the setting of five days ago. -/
theorem upsert_recorded_fiveDays :
    ⟨"inst-1", "TRADE_ENABLED", some "false", "true", 2⟩ ∈
      ((tradingStore "inst-1").run [(2, .upsert "inst-1" "TRADE_ENABLED" "true" none),
        (5 * day, .cleanupOldHistory 1)]).history :=
  upsert_recorded [] [(5 * day, .cleanupOldHistory 1)] 2 "inst-1" "TRADE_ENABLED" "true" none
    (by decide)

end Runs

end Zaciraci.Persistence
