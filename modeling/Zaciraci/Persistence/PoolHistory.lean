import Zaciraci.Lib.Traversal
import Zaciraci.Persistence.Snapshots

namespace Zaciraci.Persistence.PoolHistory

open Lib

structure PoolInfoBared where
  poolKind : String
  tokenAccountIds : List TokenAccount
  amounts : List U128
  totalFee : UInt32
  sharesTotalSupply : U128
  amp : UInt64
deriving DecidableEq

structure PoolInfo where
  id : UInt32
  bare : PoolInfoBared
  timestamp : Time
deriving DecidableEq

structure PoolInfoList where
  list : List PoolInfo
  byId : SortedMap ℕ PoolInfo

def PoolInfoList.new (srcList : List PoolInfo) : PoolInfoList where
  list := srcList.insertionSort fun a b ↦ a.id.toNat ≤ b.id.toNat
  byId := srcList.foldl (fun m pool ↦ m.insert pool.id.toNat pool) .empty

section Node

def pageLimit : ℕ := 2 <<< 8

/-- `(0..number_of_pools).step_by(LIMIT)`. -/
def pageIndices (numberOfPools : ℕ) : List ℕ :=
  (List.range ((numberOfPools + pageLimit - 1) / pageLimit)).map (· * pageLimit)

def numbered (index : ℕ) (list : List PoolInfoBared) : List (UInt32 × PoolInfoBared) :=
  list.zipIdx.map fun entry ↦ (UInt32.ofNat entry.2 + UInt32.ofNat index, entry.1)

/-- The clock is read when the pages are put together, once for each pool, in whatever order they
arrived. -/
def stampAll (clock : ℕ → Time) (pools : List (UInt32 × PoolInfoBared)) : List PoolInfo :=
  pools.zipIdx.map fun entry ↦ ⟨entry.1.1, entry.1.2, clock entry.2⟩

def readPoolsFromNode (numberOfPools : Except String UInt32)
    (page : ℕ → Except String (List PoolInfoBared)) (clock : ℕ → Time) :
    Except String PoolInfoList := do
  let count ← numberOfPools
  let lists ← (pageIndices count.toNat).mapM fun index ↦ (numbered index) <$> page index
  return .new (stampAll clock lists.flatten)

/-- A read that succeeded, of a contract that keeps to the limit of a page and answers the first one
with pools if it has any, with a clock that does not go back. -/
structure NodeRead where
  numberOfPools : UInt32
  page : ℕ → Except String (List PoolInfoBared)
  clock : ℕ → Time
  pools : PoolInfoList
  succeeds : readPoolsFromNode (.ok numberOfPools) page clock = .ok pools
  clock_mono : Monotone clock
  length_le : ∀ index list, page index = .ok list →
    list.length ≤ pageLimit ∧ index + list.length ≤ 2 ^ 32
  first_ne_nil : 0 < numberOfPools → page 0 ≠ .ok []

end Node

section Table

variable {J : Type}

/-- The columns that hold JSON, with what serialises and parses them. -/
structure Codec (J : Type) where
  ofTokens : List TokenAccount → J
  toTokens : J → Except String (List TokenAccount)
  toTokens_ofTokens : ∀ tokens, toTokens (ofTokens tokens) = .ok tokens
  ofAmounts : List U128 → J
  toAmounts : J → Except String (List U128)
  toAmounts_ofAmounts : ∀ amounts, toAmounts (ofAmounts amounts) = .ok amounts
  ofShares : U128 → J
  toShares : J → Except String U128
  toShares_ofShares : ∀ shares, toShares (ofShares shares) = .ok shares

structure DbPoolInfo (J : Type) where
  poolId : Int32
  poolKind : String
  tokenAccountIds : J
  amounts : J
  totalFee : Int32
  sharesTotalSupply : J
  amp : Int64
  timestamp : Time

def column (t : Time) : Time := t / 1000 * 1000

variable (codec : Codec J)

def fromDb (row : DbPoolInfo J) : Except String PoolInfo := do
  let tokenAccountIds ← codec.toTokens row.tokenAccountIds
  let amounts ← codec.toAmounts row.amounts
  let sharesTotalSupply ← codec.toShares row.sharesTotalSupply
  return {
    id := row.poolId.toUInt32
    bare := { poolKind := row.poolKind, tokenAccountIds, amounts, totalFee := row.totalFee.toUInt32
              sharesTotalSupply, amp := row.amp.toUInt64 }
    timestamp := row.timestamp }

def toNewDb (pool : PoolInfo) : DbPoolInfo J where
  poolId := pool.id.toInt32
  poolKind := pool.bare.poolKind
  tokenAccountIds := codec.ofTokens pool.bare.tokenAccountIds
  amounts := codec.ofAmounts pool.bare.amounts
  totalFee := pool.bare.totalFee.toInt32
  sharesTotalSupply := codec.ofShares pool.bare.sharesTotalSupply
  amp := pool.bare.amp.toInt64
  timestamp := column pool.timestamp

def batchInsert (rows : List (DbPoolInfo J)) (poolInfos : List PoolInfo) : List (DbPoolInfo J) :=
  rows ++ poolInfos.map (toNewDb codec)

def writeToDb (rows : List (DbPoolInfo J)) (pools : PoolInfoList) : List (DbPoolInfo J) :=
  batchInsert codec rows pools.list

def minRetentionDays : ℕ := 7

/-- The time before which a cleanup deletes, if it deletes at all. -/
def cutoff (now : Time) (retentionDays : UInt32) : Option Time :=
  if retentionDays = 0 then none
  else some (column (now - max retentionDays.toNat minRetentionDays * day))

def cleanupOldRecords (now : Time) (retentionDays : UInt32) (rows : List (DbPoolInfo J)) :
    List (DbPoolInfo J) :=
  match cutoff now retentionDays with
  | none => rows
  | some cutoffDate => rows.filter fun row ↦ ¬ row.timestamp < cutoffDate

def getLatest (rows : List (DbPoolInfo J)) (poolId : UInt32) : Except String (Option PoolInfo) :=
  ((rows.filter (·.poolId = poolId.toInt32)).argmax (·.timestamp)).mapM (fromDb codec)

def getLatestBefore (rows : List (DbPoolInfo J)) (poolId : UInt32) (timestamp : Time) :
    Except String (Option PoolInfo) :=
  (latestBefore (·.poolId.toInt) (·.timestamp) rows poolId.toInt32.toInt (column timestamp)).mapM
    (fromDb codec)

def getAllUniqueBetween (rows : List (DbPoolInfo J)) (start stop : Time) :
    Except String (List PoolInfo) :=
  (uniqueBetween (·.poolId.toInt) (·.timestamp) rows (column start) (column stop)).mapM
    (fromDb codec)

def readFromDb (rows : List (DbPoolInfo J)) (timestamp : Option Time) (now : Time) :
    Except String PoolInfoList := do
  let first ← match timestamp with
    | some timestamp => getLatestBefore codec rows 0 timestamp
    | none => getLatest codec rows 0
  match first with
  | none => .error "no pool found"
  | some first =>
    let all ← getAllUniqueBetween codec rows first.timestamp (timestamp.getD now)
    return .new all

/-- What happens to the table: a read of the node is written, or a cleanup that some write started
gets to run. -/
inductive TableEvent
  | write (read : NodeRead)
  | cleanup (now : Time) (retentionDays : UInt32)

def TableEvent.apply (rows : List (DbPoolInfo J)) : TableEvent → List (DbPoolInfo J)
  | .write read => writeToDb codec rows read.pools
  | .cleanup now retentionDays => cleanupOldRecords now retentionDays rows

def table (history : List TableEvent) : List (DbPoolInfo J) :=
  history.foldl (TableEvent.apply codec) []

end Table

section Node

theorem pageIndices_sorted (numberOfPools : ℕ) :
    (pageIndices numberOfPools).Pairwise (· + pageLimit ≤ ·) := by
  refine List.pairwise_map.2 (List.pairwise_lt_range.imp fun {a b} h ↦ ?_)
  rw [← Nat.succ_mul]
  exact Nat.mul_le_mul_right pageLimit h

theorem pageIndices_zero : pageIndices 0 = [] := rfl

theorem pageIndices_eq_cons {numberOfPools : ℕ} (h : 0 < numberOfPools) :
    ∃ rest, pageIndices numberOfPools = 0 :: rest := by
  have hpos : 0 < (numberOfPools + pageLimit - 1) / pageLimit :=
    Nat.div_pos (by omega) (by decide)
  obtain ⟨k, hk⟩ := Nat.exists_eq_add_one.2 hpos
  rw [pageIndices, hk, List.range_succ_eq_map, List.map_cons, Nat.zero_mul]
  exact ⟨_, rfl⟩

variable {list : List PoolInfoBared}

theorem ids_numbered {index : ℕ} (h : index + list.length ≤ 2 ^ 32) :
    (numbered index list).map (·.1.toNat) = List.range' index list.length := by
  have hids : (numbered index list).map (·.1.toNat) =
      (List.range' 0 list.length).map (index + ·) := by
    rw [← List.zipIdx_map_snd 0 list, numbered, List.map_map, List.map_map]
    refine List.map_congr_left fun entry hentry ↦ ?_
    have hlt := (List.mem_zipIdx hentry).2.1
    simp only [Function.comp_apply, UInt32.toNat_add, UInt32.toNat_ofNat']
    omega
  rw [hids, List.map_add_range', Nat.add_zero]

theorem mem_numbered {index : ℕ} (h : index + list.length ≤ 2 ^ 32) {pool : UInt32 × PoolInfoBared}
    (hpool : pool ∈ numbered index list) :
    index ≤ pool.1.toNat ∧ pool.1.toNat < index + list.length := by
  have hmem := List.mem_map_of_mem (f := (·.1.toNat)) hpool
  rwa [ids_numbered h, List.mem_range'_1] at hmem

theorem numbered_sorted {index : ℕ} (h : index + list.length ≤ 2 ^ 32) :
    (numbered index list).Pairwise (·.1.toNat < ·.1.toNat) := by
  have hsorted := List.pairwise_lt_range' (s := index) (n := list.length)
  rwa [← ids_numbered h, List.pairwise_map] at hsorted

/-- The pools of a read in the order in which they are stamped. -/
structure IsBatch (batch : List PoolInfo) : Prop where
  ids : batch.Pairwise (·.id.toNat < ·.id.toNat)
  stamps : batch.Pairwise (·.timestamp ≤ ·.timestamp)
  head : ∀ first ∈ batch.head?, first.id = 0

theorem ids_stampAll (clock : ℕ → Time) (pools : List (UInt32 × PoolInfoBared)) :
    (stampAll clock pools).map PoolInfo.id = pools.map Prod.fst := by
  calc (stampAll clock pools).map PoolInfo.id = (pools.zipIdx.map Prod.fst).map Prod.fst := by
        rw [stampAll, List.map_map, List.map_map]
        rfl
    _ = pools.map Prod.fst := by rw [List.zipIdx_map_fst]

theorem stamps_stampAll {clock : ℕ → Time} (h : Monotone clock)
    (pools : List (UInt32 × PoolInfoBared)) :
    (stampAll clock pools).Pairwise (·.timestamp ≤ ·.timestamp) := by
  have hindices : pools.zipIdx.Pairwise (·.2 < ·.2) := by
    rw [← List.pairwise_map (f := Prod.snd), List.zipIdx_map_snd]
    exact List.pairwise_lt_range'
  exact List.pairwise_map.2 (hindices.imp fun hlt ↦ h hlt.le)

theorem NodeRead.exists_lists (read : NodeRead) :
    ∃ lists, read.pools = .new (stampAll read.clock lists.flatten) ∧
      List.Forall₂ (fun index l ↦ ∃ list, read.page index = .ok list ∧ l = numbered index list)
        (pageIndices read.numberOfPools.toNat) lists := by
  obtain ⟨count, hcount, h⟩ := except_bind_eq_ok.1 read.succeeds
  obtain rfl := Except.ok.inj hcount
  obtain ⟨lists, hlists, hpools⟩ := except_bind_eq_ok.1 h
  refine ⟨lists, (Except.ok.inj hpools).symm, (mapM_eq_ok_iff.1 hlists).imp fun index l hl ↦ ?_⟩
  cases hpage : read.page index with
  | error e =>
    rw [hpage] at hl
    cases hl
  | ok list =>
    rw [hpage] at hl
    exact ⟨list, rfl, (Except.ok.inj hl).symm⟩

theorem NodeRead.isBatch (read : NodeRead) : IsBatch read.pools.list := by
  obtain ⟨lists, hpools, hlists⟩ := read.exists_lists
  have hids : lists.flatten.Pairwise (·.1.toNat < ·.1.toNat) := by
    refine List.pairwise_flatten.2 ⟨fun l hl ↦ ?_, ?_⟩
    · obtain ⟨index, -, list, hlist, rfl⟩ := exists_of_forall₂ hlists hl
      exact numbered_sorted (read.length_le index list hlist).2
    · refine pairwise_of_forall₂ hlists (pageIndices_sorted _) ?_
      rintro index index' _ _ ⟨list, hlist, rfl⟩ ⟨list', hlist', rfl⟩ hindex a ha b hb
      obtain ⟨hlength, hfits⟩ := read.length_le index list hlist
      have := mem_numbered hfits ha
      have := mem_numbered (read.length_le index' list' hlist').2 hb
      omega
  have hids' : (stampAll read.clock lists.flatten).Pairwise (·.id.toNat < ·.id.toNat) := by
    have hmap : ((stampAll read.clock lists.flatten).map PoolInfo.id).Pairwise
        (fun a b ↦ a.toNat < b.toNat) := by
      rw [ids_stampAll, List.pairwise_map]
      exact hids
    rwa [List.pairwise_map] at hmap
  have hlist : read.pools.list = stampAll read.clock lists.flatten := by
    rw [hpools]
    exact (hids'.imp le_of_lt).insertionSort_eq
  rw [hlist]
  refine ⟨hids', stamps_stampAll read.clock_mono _, ?_⟩
  -- The first page, if there is one, begins with pool 0.
  rcases Nat.eq_zero_or_pos read.numberOfPools.toNat with hzero | hpos
  · rw [hzero, pageIndices_zero, List.forall₂_nil_left_iff] at hlists
    rw [hlists]
    exact fun first hfirst ↦ by cases hfirst
  · obtain ⟨rest, hrest⟩ := pageIndices_eq_cons hpos
    rw [hrest] at hlists
    obtain ⟨_, lists', ⟨list, hpage, rfl⟩, -, rfl⟩ := List.forall₂_cons_left_iff.1 hlists
    cases list with
    | nil => exact absurd hpage (read.first_ne_nil (UInt32.lt_iff_toNat_lt.2 hpos))
    | cons bare list =>
      rintro _ ⟨⟩
      rfl

end Node

section Rows

variable {J : Type} {codec : Codec J}

def stored (pool : PoolInfo) : PoolInfo := { pool with timestamp := column pool.timestamp }

theorem column_mono {s t : Time} (h : s ≤ t) : column s ≤ column t :=
  Int.mul_le_mul_of_nonneg_right (Int.ediv_le_ediv (by decide) h) (by decide)

theorem column_column (t : Time) : column (column t) = column t :=
  congrArg (· * 1000) (Int.mul_ediv_cancel (t / 1000) (by decide))

theorem fromDb_toNewDb (codec : Codec J) (pool : PoolInfo) :
    fromDb codec (toNewDb codec pool) = .ok (stored pool) := by
  simp only [fromDb, toNewDb, codec.toTokens_ofTokens, codec.toAmounts_ofAmounts,
    codec.toShares_ofShares, bind, Except.bind, pure, Except.pure, UInt32.toUInt32_toInt32,
    UInt64.toUInt64_toInt64]
  rfl

variable {batch : List PoolInfo}

theorem nodup_keys (h : IsBatch batch) :
    ((batch.map (toNewDb codec)).map (·.poolId.toInt)).Nodup := by
  rw [List.map_map, List.nodup_iff_pairwise_ne, List.pairwise_map]
  refine h.ids.imp fun {a b} hlt heq ↦ hlt.ne ?_
  have hid : a.id.toInt32 = b.id.toInt32 := Int32.toInt_inj.1 heq
  rw [← UInt32.toUInt32_toInt32 a.id, hid, UInt32.toUInt32_toInt32]

theorem mapM_fromDb_of_perm {rows : List (DbPoolInfo J)}
    (h : rows.Perm (batch.map (toNewDb codec))) :
    ∃ pools : List PoolInfo,
      rows.mapM (fromDb codec) = .ok (pools.map stored) ∧ pools.Perm batch := by
  have hrows : List.Forall₂ (fun row pool ↦ row = toNewDb codec pool) (batch.map (toNewDb codec))
      batch := by
    rw [List.forall₂_map_left_iff, List.forall₂_same]
    exact fun _ _ ↦ rfl
  obtain ⟨pools, hpools, hperm⟩ := List.perm_comp_forall₂ h hrows
  refine ⟨pools, mapM_eq_ok_iff.2 ?_, hperm⟩
  rw [List.forall₂_map_right_iff]
  refine hpools.imp fun row pool hrow ↦ ?_
  rw [hrow]
  exact fromDb_toNewDb codec pool

theorem PoolInfoList.new_eq_of_perm {l l' : List PoolInfo} (h : l.Perm l')
    (hids : (l.map (·.id.toNat)).Nodup) : PoolInfoList.new l = PoolInfoList.new l' := by
  have hinj {a b : PoolInfo} (ha : a ∈ l) (hb : b ∈ l) (heq : a.id.toNat = b.id.toNat) : a = b :=
    List.inj_on_of_nodup_map hids ha hb heq
  unfold PoolInfoList.new
  congr 1
  · have hperm := (List.perm_insertionSort (fun a b : PoolInfo ↦ a.id.toNat ≤ b.id.toNat) l).trans
      (h.trans (List.perm_insertionSort (fun a b : PoolInfo ↦ a.id.toNat ≤ b.id.toNat) l').symm)
    refine hperm.eq_of_pairwise ?_ (List.pairwise_insertionSort _ l)
      (List.pairwise_insertionSort _ l')
    intro a b ha hb hab hba
    rw [List.mem_insertionSort] at ha hb
    exact hinj ha (h.mem_iff.2 hb) (le_antisymm hab hba)
  · refine h.foldl_eq' (fun a ha b hb m ↦ ?_) _
    by_cases heq : a.id.toNat = b.id.toNat
    · rw [hinj ha hb heq]
    · refine SortedMap.ext_get fun k ↦ ?_
      simp only [SortedMap.get_insert]
      grind

theorem new_map_stored {pools batch : List PoolInfo} (hbatch : IsBatch batch)
    (h : pools.Perm batch) :
    PoolInfoList.new (pools.map stored) = .new (batch.map stored) := by
  refine PoolInfoList.new_eq_of_perm (h.map stored) ?_
  have hids : (batch.map (·.id.toNat)).Nodup :=
    List.pairwise_map.2 (hbatch.ids.imp fun hlt ↦ hlt.ne)
  rw [List.map_map]
  exact (h.map (·.id.toNat)).nodup_iff.2 hids

theorem IsBatch.new_list (h : IsBatch batch) :
    (PoolInfoList.new (batch.map stored)).list = batch.map stored := by
  have hsorted : (batch.map stored).Pairwise (·.id.toNat ≤ ·.id.toNat) := by
    rw [List.pairwise_map]
    exact h.ids.imp le_of_lt
  exact hsorted.insertionSort_eq

theorem readFromDb_of_bracketed {older newer : List (DbPoolInfo J)} {first : PoolInfo} {t : Time}
    (hbatch : IsBatch batch) (hzero : first.id = 0)
    (h : Bracketed (·.poolId.toInt) (·.timestamp) older (batch.map (toNewDb codec)) newer
      (toNewDb codec first) (column t)) (now : Time) :
    readFromDb codec (older ++ batch.map (toNewDb codec) ++ newer) (some t) now =
      .ok (.new (batch.map stored)) := by
  have hfirst : getLatestBefore codec (older ++ batch.map (toNewDb codec) ++ newer) 0 t =
      .ok (some (stored first)) := by
    have hlatest := h.latestBefore_eq
    rw [show (toNewDb codec first).poolId = UInt32.toInt32 0 from congrArg UInt32.toInt32 hzero]
      at hlatest
    rw [getLatestBefore, hlatest, Option.mapM_some, fromDb_toNewDb]
    rfl
  obtain ⟨pools, hpools, hperm⟩ := mapM_fromDb_of_perm h.uniqueBetween_perm
  have hall : getAllUniqueBetween codec (older ++ batch.map (toNewDb codec) ++ newer)
      (stored first).timestamp t = .ok (pools.map stored) := by
    rw [getAllUniqueBetween, stored, column_column]
    exact hpools
  rw [readFromDb, hfirst]
  simp only [bind, Except.bind, Option.getD_some, hall, pure, Except.pure]
  rw [new_map_stored hbatch hperm]

theorem readFromDb_of_gone {rows : List (DbPoolInfo J)} {t now : Time}
    (h : ∀ row ∈ rows, row.poolId.toInt = (0 : UInt32).toInt32.toInt → ¬ row.timestamp < column t) :
    readFromDb codec rows (some t) now = .error "no pool found" := by
  have hnone : getLatestBefore codec rows 0 t = .ok none := by
    rw [getLatestBefore, latestBefore_eq_none h]
    rfl
  rw [readFromDb, hnone]
  rfl

end Rows

section History

variable {J : Type} {codec : Codec J} {before after : List TableEvent} {read : NodeRead} {t : Time}

def TableEvent.cutoffDate : TableEvent → Option Time
  | .write _ => none
  | .cleanup now retentionDays => cutoff now retentionDays

def cutoffs (history : List TableEvent) : List Time := history.filterMap TableEvent.cutoffDate

def Kept (history : List TableEvent) (stamp : Time) : Prop := ∀ c ∈ cutoffs history, c ≤ stamp

instance (history : List TableEvent) (stamp : Time) : Decidable (Kept history stamp) :=
  inferInstanceAs (Decidable (∀ c ∈ cutoffs history, c ≤ stamp))

theorem kept_append {stamp : Time} :
    Kept (before ++ after) stamp ↔ Kept before stamp ∧ Kept after stamp := by
  simp only [Kept, cutoffs, List.filterMap_append, List.mem_append, or_imp, forall_and]

theorem Kept.mono {s s' : Time} (h : Kept after s) (hle : s ≤ s') : Kept after s' :=
  fun c hc ↦ (h c hc).trans hle

theorem kept_write {stamp : Time} : Kept [.write read] stamp := fun c hc ↦ by cases hc

theorem apply_eq (rows : List (DbPoolInfo J)) (event : TableEvent) :
    event.apply codec rows =
      rows.filter (Kept [event] ·.timestamp) ++ event.apply codec [] := by
  cases event with
  | write read =>
    rw [List.filter_eq_self.2 fun row _ ↦ decide_eq_true kept_write]
    rfl
  | cleanup now retentionDays =>
    have hkept (stamp : Time) : Kept [.cleanup now retentionDays] stamp ↔
        ∀ c ∈ cutoff now retentionDays, c ≤ stamp := by
      simp [Kept, cutoffs, TableEvent.cutoffDate]
    simp only [TableEvent.apply, cleanupOldRecords, hkept]
    cases cutoff now retentionDays <;> simp

/-- The rows of the first part of a history that its second part keeps come before the rows of the
second part. -/
theorem table_append (before after : List TableEvent) :
    table codec (before ++ after) =
      (table codec before).filter (Kept after ·.timestamp) ++ table codec after := by
  induction after using List.reverseRecOn with
  | nil => simp [Kept, cutoffs, table]
  | append_singleton after event ih =>
    have hstep (history : List TableEvent) :
        table codec (history ++ [event]) = event.apply codec (table codec history) := by
      rw [table, List.foldl_append, List.foldl_cons, List.foldl_nil, ← table]
    rw [← List.append_assoc, hstep, hstep, ih, apply_eq, apply_eq (table codec after),
      List.filter_append, List.filter_filter, List.append_assoc]
    simp only [kept_append, ← Bool.decide_and, and_comm]

theorem mem_table {history : List TableEvent} {row : DbPoolInfo J}
    (h : row ∈ table codec history) :
    ∃ read, .write read ∈ history ∧ ∃ pool ∈ read.pools.list, toNewDb codec pool = row := by
  induction history with
  | nil => cases h
  | cons event history ih =>
    rw [← List.singleton_append, table_append, List.mem_append] at h
    rcases h with h | h
    · have hevent := (List.mem_filter.1 h).1
      cases event with
      | write read => exact ⟨read, List.mem_cons_self, List.mem_map.1 hevent⟩
      | cleanup now retentionDays =>
        have hnil : cleanupOldRecords now retentionDays ([] : List (DbPoolInfo J)) = [] := by
          unfold cleanupOldRecords
          split <;> rfl
        change row ∈ cleanupOldRecords now retentionDays [] at hevent
        rw [hnil] at hevent
        cases hevent
    · obtain ⟨read, hread, hpool⟩ := ih h
      exact ⟨read, List.mem_cons_of_mem _ hread, hpool⟩

theorem table_split (before after : List TableEvent) (read : NodeRead) :
    table codec (before ++ .write read :: after) =
      (table codec before).filter (Kept after ·.timestamp) ++
        (read.pools.list.map (toNewDb codec)).filter (Kept after ·.timestamp) ++
        table codec after := by
  have hkept (stamp : Time) : Kept (.write read :: after) stamp ↔ Kept after stamp := Iff.rfl
  rw [table_append, ← List.singleton_append, table_append [_] after, List.append_assoc]
  simp only [List.singleton_append, hkept]
  rfl

def NodeRead.EndsBefore (read : NodeRead) (t : Time) : Prop :=
  read.pools.list ≠ [] ∧ ∀ pool ∈ read.pools.list, column pool.timestamp < column t

def NodeRead.StartsAfter (read : NodeRead) (t : Time) : Prop :=
  ∀ pool ∈ read.pools.list, column t < column pool.timestamp

def NodeRead.Precedes (read later : NodeRead) : Prop :=
  ∀ pool ∈ read.pools.list, later.StartsAfter pool.timestamp

instance (read : NodeRead) (t : Time) : Decidable (read.EndsBefore t) :=
  inferInstanceAs (Decidable (_ ∧ ∀ pool ∈ read.pools.list, _))

instance (read : NodeRead) (t : Time) : Decidable (read.StartsAfter t) :=
  inferInstanceAs (Decidable (∀ pool ∈ read.pools.list, _))

instance (read later : NodeRead) : Decidable (read.Precedes later) :=
  inferInstanceAs (Decidable (∀ pool ∈ read.pools.list, _))

def NodeRead.KeptBy (read : NodeRead) (history : List TableEvent) : Prop :=
  ∀ pool ∈ read.pools.list, Kept history (column pool.timestamp)

instance (read : NodeRead) (history : List TableEvent) : Decidable (read.KeptBy history) :=
  inferInstanceAs (Decidable (∀ pool ∈ read.pools.list, _))

theorem readFromDb_split (hbefore : ∀ earlier, .write earlier ∈ before → earlier.Precedes read)
    (hends : read.EndsBefore t) (hafter : ∀ later, .write later ∈ after → later.StartsAfter t)
    (now : Time) :
    readFromDb codec (table codec (before ++ .write read :: after)) (some t) now =
      if read.KeptBy after then .ok (.new (read.pools.list.map stored))
      else .error "no pool found" := by
  obtain ⟨hne, hends⟩ := hends
  have hbatch := read.isBatch
  obtain ⟨first, rest, hlist⟩ := List.exists_cons_of_ne_nil hne
  have hmem : first ∈ read.pools.list := by rw [hlist]; exact List.mem_cons_self
  have hzero : first.id = 0 := hbatch.head first (by rw [hlist]; rfl)
  have hle : ∀ pool ∈ read.pools.list, column first.timestamp ≤ column pool.timestamp := by
    intro pool hpool
    have hstamps := hbatch.stamps
    rw [hlist] at hpool hstamps
    rcases List.mem_cons.1 hpool with rfl | hpool
    · exact le_rfl
    · exact column_mono ((List.pairwise_cons.1 hstamps).1 pool hpool)
  have holder : ∀ row ∈ table codec before, row.timestamp < column first.timestamp := by
    intro row hrow
    obtain ⟨earlier, hearlier, pool, hpool, rfl⟩ := mem_table hrow
    exact hbefore earlier hearlier pool hpool first hmem
  have hnewer : ∀ row ∈ table codec after, column t < row.timestamp := by
    intro row hrow
    obtain ⟨later, hlater, pool, hpool, rfl⟩ := mem_table hrow
    exact hafter later hlater pool hpool
  rw [table_split]
  split_ifs with hkept
  · have hrows : (read.pools.list.map (toNewDb codec)).filter (Kept after ·.timestamp) =
        read.pools.list.map (toNewDb codec) := by
      refine List.filter_eq_self.2 fun row hrow ↦ ?_
      obtain ⟨pool, hpool, rfl⟩ := List.mem_map.1 hrow
      exact decide_eq_true (hkept pool hpool)
    rw [hrows]
    refine readFromDb_of_bracketed hbatch hzero ⟨?_, ?_, ?_, ?_, hnewer, nodup_keys hbatch⟩ now
    · exact fun row hrow ↦ holder row (List.mem_filter.1 hrow).1
    · exact List.mem_map_of_mem hmem
    · exact List.forall_mem_map.2 hle
    · exact List.forall_mem_map.2 hends
  · -- What deleted a row of the batch deleted its first row and all that is older.
    have hgone : ¬ Kept after (column first.timestamp) := fun h ↦
      hkept fun pool hpool ↦ h.mono (hle pool hpool)
    refine readFromDb_of_gone fun row hrow hkey hlt ↦ ?_
    rw [List.mem_append, List.mem_append] at hrow
    rcases hrow with (hrow | hrow) | hrow
    · obtain ⟨hrow, hsel⟩ := List.mem_filter.1 hrow
      exact hgone ((of_decide_eq_true hsel).mono (holder row hrow).le)
    · obtain ⟨hrow, hsel⟩ := List.mem_filter.1 hrow
      have hfirst : row = toNewDb codec first :=
        List.inj_on_of_nodup_map (nodup_keys hbatch) hrow (List.mem_map_of_mem hmem)
          (hkey.trans (congrArg (·.toInt32.toInt) hzero.symm))
      rw [hfirst] at hsel
      exact hgone (of_decide_eq_true hsel)
    · exact absurd hlt (hnewer row hrow).not_gt

def reads (history : List TableEvent) : List NodeRead :=
  history.filterMap fun
    | .write read => some read
    | .cleanup _ _ => none

theorem mem_reads {history : List TableEvent} : read ∈ reads history ↔ .write read ∈ history := by
  rw [reads, List.mem_filterMap]
  constructor
  · rintro ⟨_ | _, hmem, ⟨⟩⟩
    exact hmem
  · exact fun hmem ↦ ⟨.write read, hmem, rfl⟩

/-- A read of the table as of a time between the batches gives the last batch before it with its
ids and contents, and no pools once a cleanup has reached that batch. -/
theorem readFromDb_lastBatch (codec : Codec J) {history : List TableEvent}
    (horder : (reads history).Pairwise NodeRead.Precedes)
    (houtside : ∀ read ∈ reads history, read.EndsBefore t ∨ read.StartsAfter t)
    (hsome : ∃ read ∈ reads history, read.EndsBefore t) (now : Time) :
    ∃ before read after, history = before ++ .write read :: after ∧ read.EndsBefore t ∧
      (∀ later ∈ reads after, later.StartsAfter t) ∧
      (PoolInfoList.new (read.pools.list.map stored)).list = read.pools.list.map stored ∧
      readFromDb codec (table codec history) (some t) now =
        if read.KeptBy after then .ok (.new (read.pools.list.map stored))
        else .error "no pool found" := by
  obtain ⟨read, hread, hends⟩ := hsome
  obtain ⟨before, event, after, rfl, ⟨read, rfl, hends⟩, hlast⟩ :=
    exists_last (p := fun event : TableEvent ↦ ∃ read, event = .write read ∧ read.EndsBefore t)
      ⟨.write read, mem_reads.1 hread, read, rfl, hends⟩
  have hafter : ∀ later ∈ reads after, later.StartsAfter t := by
    intro later hlater
    refine (houtside later ?_).resolve_left fun h ↦ ?_
    · exact mem_reads.2 (by simp [mem_reads.1 hlater])
    · exact hlast _ (mem_reads.1 hlater) ⟨later, rfl, h⟩
  have hbefore : ∀ earlier, .write earlier ∈ before → earlier.Precedes read := by
    intro earlier hearlier
    rw [reads, List.filterMap_append, List.pairwise_append] at horder
    exact horder.2.2 earlier (mem_reads.2 hearlier) read (mem_reads.2 List.mem_cons_self)
  exact ⟨before, read, after, rfl, hends, hafter, read.isBatch.new_list,
    readFromDb_split hbefore hends (fun later h ↦ hafter later (mem_reads.2 h)) now⟩

def plainCodec : Codec (List TokenAccount ⊕ List U128 ⊕ U128) where
  ofTokens := .inl
  toTokens
    | .inl tokens => .ok tokens
    | _ => .error "expected tokens"
  toTokens_ofTokens _ := rfl
  ofAmounts amounts := .inr (.inl amounts)
  toAmounts
    | .inr (.inl amounts) => .ok amounts
    | _ => .error "expected amounts"
  toAmounts_ofAmounts _ := rfl
  ofShares shares := .inr (.inr shares)
  toShares
    | .inr (.inr shares) => .ok shares
    | _ => .error "expected shares"
  toShares_ofShares _ := rfl

def simplePool (amounts : List U128) : PoolInfoBared :=
  ⟨"SIMPLE_POOL", [⟨"a.near"⟩, ⟨"b.near"⟩], amounts, 30, 1000, 0⟩

def ticking (now : Time) (i : ℕ) : Time := now + i * (10 ^ 9 + 1)

def readTwoPools (now : Time) : NodeRead where
  numberOfPools := 2
  page index := if index = 0 then .ok [simplePool [100, 200], simplePool [300, 400]]
    else .error "out of range"
  clock := ticking now
  pools := .new [⟨0, simplePool [100, 200], ticking now 0⟩,
    ⟨1, simplePool [300, 400], ticking now 1⟩]
  succeeds := by
    have hpages : pageIndices (UInt32.toNat 2) = [0] := by decide
    simp only [readPoolsFromNode, bind, Except.bind, hpages]
    rfl
  clock_mono i j h := by
    have hcast : (i : ℤ) ≤ j := Int.ofNat_le.2 h
    rw [ticking, ticking]
    linarith
  length_le index list h := by
    split_ifs at h with hzero
    obtain rfl := Except.ok.inj h
    rw [hzero]
    decide
  first_ne_nil _ h := by cases h

def tenDays : List TableEvent :=
  [.write (readTwoPools 0), .write (readTwoPools (10 * day)), .cleanup (10 * day) 7]

theorem readFromDb_lastBatch_tenDays :
    ∃ before read after, tenDays = before ++ .write read :: after ∧ read.EndsBefore (11 * day) ∧
      (∀ later ∈ reads after, later.StartsAfter (11 * day)) ∧
      (PoolInfoList.new (read.pools.list.map stored)).list = read.pools.list.map stored ∧
      readFromDb plainCodec (table plainCodec tenDays) (some (11 * day)) (11 * day) =
        if read.KeptBy after then .ok (.new (read.pools.list.map stored))
        else .error "no pool found" :=
  readFromDb_lastBatch plainCodec (by decide) (by decide) (by decide) (11 * day)

/-- The first of the two batches is the last one before the fifth day, but the cleanup has deleted
it. -/
theorem readFromDb_after_cleanup :
    (reads tenDays).Pairwise NodeRead.Precedes ∧ (readTwoPools 0).EndsBefore (5 * day) ∧
      (readTwoPools (10 * day)).StartsAfter (5 * day) ∧
      readFromDb plainCodec (table plainCodec tenDays) (some (5 * day)) (10 * day) =
        .error "no pool found" := by
  refine ⟨by decide, by decide, by decide, rfl⟩

end History

end Zaciraci.Persistence.PoolHistory
