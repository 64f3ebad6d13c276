import Zaciraci.Path.Edge

namespace Zaciraci.Path

open Zaciraci.Lib Zaciraci.Dex

variable (std : Containers)

abbrev PathEdges := std.Heap Edge Edge.returnsLess

namespace PathEdges

def atTop (edges : PathEdges std) : Option Edge := std.peek edges

end PathEdges

abbrev EdgesByToken := SortedMap TokenAccount (PathEdges std)

structure PoolsByToken where
  byIn : SortedMap TokenAccount (List PoolInfo)

namespace PoolsByToken

def addPool (byIn : SortedMap TokenAccount (List PoolInfo)) (entry : PoolInfo × TokenAccount) :
    SortedMap TokenAccount (List PoolInfo) :=
  byIn.insert entry.2 ((byIn.get entry.2).getD [] ++ [entry.1])

def new (poolList : PoolInfoList) : PoolsByToken where
  byIn := ((poolList.list.filter (·.isSimple)).flatMap fun pool ↦
    pool.tokenAccountIds.map (pool, ·)).foldl addPool .empty

def tokens (pools : PoolsByToken) : List TokenAccount := std.iter pools.byIn.keys

variable {std} in
def addEdge (tokenIn : TokenAccount) (groups : EdgesByToken std) (entry : PoolInfo × TokenAccount) :
    EdgesByToken std :=
  match getByIds entry.1 tokenIn entry.2 with
  | .ok edge => groups.insert entry.2 (std.push ((groups.get entry.2).getD std.empty) edge)
  | .error _ => groups

def groupByOut (pools : PoolsByToken) (tokenIn : TokenAccount) : Option (EdgesByToken std) :=
  (pools.byIn.get tokenIn).map fun edges ↦
    (edges.flatMap fun pool ↦ (pool.tokenAccountIds.filter (· ≠ tokenIn)).map (pool, ·)).foldl
      (addEdge tokenIn) .empty

def getGroupsByOut (pools : PoolsByToken) (tokenIn : TokenAccount) : EdgesByToken std :=
  (pools.groupByOut std tokenIn).getD .empty

variable {t : TokenAccount}

theorem mem_foldl_addPool {l : List (PoolInfo × TokenAccount)} {pool : PoolInfo}
    {m : SortedMap TokenAccount (List PoolInfo)} :
    pool ∈ ((l.foldl addPool m).get t).getD [] ↔ pool ∈ (m.get t).getD [] ∨ (pool, t) ∈ l := by
  induction l generalizing m with
  | nil => simp
  | cons e l ih =>
    rw [List.foldl_cons, ih, addPool, SortedMap.get_insert, List.mem_cons]
    obtain ⟨p, s⟩ := e
    by_cases ht : t = s
    · subst ht
      rw [if_pos rfl, Option.getD_some, List.mem_append, List.mem_singleton]
      simp only [Prod.mk.injEq, and_true]
      tauto
    · rw [if_neg ht]
      simp [ht]

theorem mem_keys_foldl_addPool {l : List (PoolInfo × TokenAccount)}
    {m : SortedMap TokenAccount (List PoolInfo)} :
    t ∈ (l.foldl addPool m).keys ↔ t ∈ m.keys ∨ ∃ pool, (pool, t) ∈ l := by
  induction l generalizing m with
  | nil => simp
  | cons e l ih =>
    rw [List.foldl_cons, ih, addPool, SortedMap.mem_keys_insert]
    obtain ⟨p, s⟩ := e
    simp only [List.mem_cons, Prod.mk.injEq, exists_or, exists_eq_left]
    tauto

theorem mem_byIn {pools : PoolInfoList} {pool : PoolInfo} :
    pool ∈ ((new pools).byIn.get t).getD [] ↔
      pool ∈ pools.list ∧ pool.isSimple = true ∧ t ∈ pool.tokenAccountIds := by
  rw [new, mem_foldl_addPool]
  simp [and_assoc]

theorem mem_tokens {pools : PoolInfoList} :
    t ∈ (new pools).tokens std ↔
      ∃ pool ∈ pools.list, pool.isSimple = true ∧ t ∈ pool.tokenAccountIds := by
  rw [tokens, Containers.mem_iter, new, mem_keys_foldl_addPool]
  simp [and_assoc, SortedMap.keys, SortedMap.empty]

section groups

variable {std} {a : TokenAccount}

/-- The groups hold the edges of the entries seen so far, and no group is empty. -/
structure Grouped (a : TokenAccount) (seen : Set (PoolInfo × TokenAccount))
    (groups : EdgesByToken std) : Prop where
  sound : ∀ {b edges}, groups.get b = some edges → ∀ edge ∈ std.items edges,
    ∃ pool, (pool, b) ∈ seen ∧ getByIds pool a b = .ok edge
  nonempty : ∀ {b edges}, groups.get b = some edges → std.items edges ≠ 0
  complete : ∀ {pool b edge}, (pool, b) ∈ seen → getByIds pool a b = .ok edge → b ∈ groups.keys

theorem grouped_empty : Grouped a ∅ (.empty : EdgesByToken std) where
  sound h := by cases h
  nonempty h := by cases h
  complete h := by cases h

theorem Grouped.addEdge {seen : Set (PoolInfo × TokenAccount)} {groups : EdgesByToken std}
    (h : Grouped a seen groups) (entry : PoolInfo × TokenAccount) :
    Grouped a (insert entry seen) (addEdge a groups entry) := by
  obtain ⟨pool, b⟩ := entry
  rw [PoolsByToken.addEdge]
  split
  · next edge hedge =>
    have hitems : std.items (std.push ((groups.get b).getD std.empty) edge) =
        edge ::ₘ std.items ((groups.get b).getD std.empty) := std.items_push _ _
    refine ⟨?_, ?_, ?_⟩
    · intro c edges hc e he
      rw [SortedMap.get_insert] at hc
      split_ifs at hc with hcb
      · obtain rfl := Option.some.inj hc
        subst hcb
        rw [hitems, Multiset.mem_cons] at he
        rcases he with rfl | he
        · exact ⟨pool, Set.mem_insert _ _, hedge⟩
        · cases hget : groups.get c with
          | none =>
            rw [hget, Option.getD_none, std.items_empty] at he
            exact absurd he (Multiset.notMem_zero _)
          | some edges =>
            rw [hget, Option.getD_some] at he
            obtain ⟨p, hp, hpe⟩ := h.sound hget e he
            exact ⟨p, Set.mem_insert_of_mem _ hp, hpe⟩
      · obtain ⟨p, hp, hpe⟩ := h.sound hc e he
        exact ⟨p, Set.mem_insert_of_mem _ hp, hpe⟩
    · intro c edges hc
      rw [SortedMap.get_insert] at hc
      split_ifs at hc with hcb
      · obtain rfl := Option.some.inj hc
        rw [hitems]
        exact Multiset.cons_ne_zero
      · exact h.nonempty hc
    · intro p c e hp hpe
      rw [SortedMap.mem_keys_insert]
      rcases hp with hp | hp
      · exact .inl (Prod.mk.inj hp).2
      · exact .inr (h.complete hp hpe)
  · next e hedge =>
    refine ⟨?_, h.nonempty, ?_⟩
    · intro c edges hc e he
      obtain ⟨p, hp, hpe⟩ := h.sound hc e he
      exact ⟨p, Set.mem_insert_of_mem _ hp, hpe⟩
    · intro p c e' hp hpe
      rcases hp with hp | hp
      · obtain ⟨rfl, rfl⟩ := Prod.mk.inj hp
        rw [hedge] at hpe
        cases hpe
      · exact h.complete hp hpe

theorem Grouped.foldl {seen : Set (PoolInfo × TokenAccount)} {groups : EdgesByToken std}
    (h : Grouped a seen groups) (l : List (PoolInfo × TokenAccount)) :
    Grouped a ({e | e ∈ l} ∪ seen) (l.foldl (PoolsByToken.addEdge a) groups) := by
  induction l generalizing seen groups with
  | nil => simpa using h
  | cons e l ih =>
    have hset : {x | x ∈ e :: l} ∪ seen = {x | x ∈ l} ∪ insert e seen := by
      ext x
      simp only [List.mem_cons, Set.mem_union, Set.mem_ofPred_eq, Set.mem_insert_iff]
      tauto
    rw [hset]
    exact ih (h.addEdge e)

variable (std) in
theorem grouped_getGroupsByOut (pools : PoolInfoList) (a : TokenAccount) :
    Grouped a {e | e.1 ∈ pools.list ∧ e.1.isSimple = true ∧ a ∈ e.1.tokenAccountIds ∧
      e.2 ∈ e.1.tokenAccountIds ∧ e.2 ≠ a} ((new pools).getGroupsByOut std a) := by
  have hset : {e : PoolInfo × TokenAccount | e.1 ∈ pools.list ∧ e.1.isSimple = true ∧
      a ∈ e.1.tokenAccountIds ∧ e.2 ∈ e.1.tokenAccountIds ∧ e.2 ≠ a} =
      {e | e ∈ (((new pools).byIn.get a).getD []).flatMap fun pool ↦
        (pool.tokenAccountIds.filter (· ≠ a)).map (pool, ·)} ∪ ∅ := by
    ext ⟨pool, b⟩
    simp only [Set.union_empty, Set.mem_ofPred_eq, List.mem_flatMap, mem_byIn, List.mem_map,
      List.mem_filter, Prod.mk.injEq, decide_eq_true_eq]
    constructor
    · rintro ⟨hp, hsimple, ha, hb, hne⟩
      exact ⟨pool, ⟨hp, hsimple, ha⟩, b, ⟨hb, hne⟩, rfl, rfl⟩
    · rintro ⟨_, ⟨hp, hsimple, ha⟩, _, ⟨hb, hne⟩, rfl, rfl⟩
      exact ⟨hp, hsimple, ha, hb, hne⟩
  rw [hset, getGroupsByOut, groupByOut]
  cases (new pools).byIn.get a with
  | none => exact grouped_empty.foldl []
  | some edges => exact grouped_empty.foldl _

end groups

end PoolsByToken

end Zaciraci.Path
