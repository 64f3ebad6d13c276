import Zaciraci.Path.ByToken
import Zaciraci.Path.CachedPath

namespace Zaciraci.Path

open Zaciraci.Lib Zaciraci.Dex

structure TokenGraph where
  pools : PoolInfoList
  graph : CachedPath TokenAccount EdgeWeight

namespace TokenGraph

/-- The best edge of each pair of tokens that some simple pool swaps. -/
def tokenGraph (std : Containers) (pools : PoolInfoList) : Digraph TokenAccount EdgeWeight :=
  let poolsByToken := PoolsByToken.new pools
  let nodes := poolsByToken.tokens std
  { nodes
    edges := (std.iter nodes).flatMap fun tokenIn ↦
      (std.iter (poolsByToken.getGroupsByOut std tokenIn).entries).filterMap fun group ↦
        (PathEdges.atTop std group.2).bind fun edge ↦
          if group.1 ∈ nodes then some ⟨tokenIn, group.1, edge.weight⟩ else none }

def new (std : Containers) (pools : PoolInfoList) : TokenGraph :=
  ⟨pools, .new (tokenGraph std pools)⟩

def selectGoals (std : Containers) (fuel : ℕ) (start : TokenAccount) :
    List TokenAccount → CachedPath TokenAccount EdgeWeight →
      Option (Except (Failure TokenAccount) (List TokenAccount) ×
        CachedPath TokenAccount EdgeWeight)
  | [], graph => some (.ok [], graph)
  | goal :: outs, graph => do
    match ← graph.updatePath std fuel goal (some start) with
    | (.error e, graph) => some (.error e, graph)
    | (.ok reversed, graph) =>
      let (goals, graph) ← selectGoals std fuel start outs graph
      some (goals.map fun goals ↦ if reversed.isEmpty then goals else goal :: goals, graph)

def updateGraph (std : Containers) (fuel : ℕ) (tokens : TokenGraph) (start : TokenAccount) :
    Option (Except (Failure TokenAccount) (List TokenAccount) × TokenGraph) := do
  match ← tokens.graph.updatePath std fuel start none with
  | (.error e, graph) => some (.error e, { tokens with graph })
  | (.ok outs, graph) =>
    let (goals, graph) ← selectGoals std fuel start outs graph
    some (goals, { tokens with graph })

/-- The outer `Option` is `none` where `expect("should be pair id")` panics. -/
def pairsOf (pools : PoolInfoList) :
    List EdgeWeight → Option (Except (Failure TokenAccount) (List TokenPair))
  | [] => some (.ok [])
  | edge :: edges => do
    let pairId ← edge.pairId
    match pools.getPair pairId with
    | .error e => some (.error (.dex e))
    | .ok pair =>
      let pairs ← pairsOf pools edges
      some (pairs.map (pair :: ·))

def getPath (tokens : TokenGraph) (start goal : TokenAccount) :
    Option (Except (Failure TokenAccount) (List TokenPair)) :=
  match tokens.graph.getEdges start goal with
  | .error e => some (.error e)
  | .ok edges => pairsOf tokens.pools edges

section frame

variable {std : Containers} {fuel : ℕ} {start : TokenAccount}
  {r : Except (Failure TokenAccount) (List TokenAccount)}

theorem graph_of_selectGoals {outs : List TokenAccount}
    {cache cache' : CachedPath TokenAccount EdgeWeight}
    (h : selectGoals std fuel start outs cache = some (r, cache')) :
    cache'.graph = cache.graph := by
  induction outs generalizing cache r with
  | nil =>
    obtain ⟨-, rfl⟩ := Prod.mk.inj (Option.some.inj h)
    rfl
  | cons goal outs ih =>
    obtain ⟨⟨reversed, cache₁⟩, hfirst, hrest⟩ := Option.bind_eq_some_iff.1 h
    have hgraph := CachedPath.graph_of_updatePath hfirst
    cases reversed with
    | error e =>
      obtain ⟨-, rfl⟩ := Prod.mk.inj (Option.some.inj hrest)
      exact hgraph
    | ok reversed =>
      obtain ⟨⟨goals, cache₂⟩, hgoals, hdone⟩ := Option.bind_eq_some_iff.1 hrest
      obtain ⟨-, rfl⟩ := Prod.mk.inj (Option.some.inj hdone)
      exact (ih hgoals).trans hgraph

theorem frame_of_updateGraph {tokens tokens' : TokenGraph}
    (h : updateGraph std fuel tokens start = some (r, tokens')) :
    tokens'.pools = tokens.pools ∧ tokens'.graph.graph = tokens.graph.graph := by
  obtain ⟨⟨outs, cache⟩, hfirst, hrest⟩ := Option.bind_eq_some_iff.1 h
  have hgraph := CachedPath.graph_of_updatePath hfirst
  cases outs with
  | error e =>
    obtain ⟨-, rfl⟩ := Prod.mk.inj (Option.some.inj hrest)
    exact ⟨rfl, hgraph⟩
  | ok outs =>
    obtain ⟨⟨goals, cache'⟩, hgoals, hdone⟩ := Option.bind_eq_some_iff.1 hrest
    obtain ⟨-, rfl⟩ := Prod.mk.inj (Option.some.inj hdone)
    exact ⟨rfl, (graph_of_selectGoals hgoals).trans hgraph⟩

end frame

section graph

variable {std : Containers} {pools : PoolInfoList}

def Offers (pools : PoolInfoList) (pool : PoolInfo) (a b : TokenAccount) (edge : Edge) : Prop :=
  pool ∈ pools.list ∧ pool.isSimple = true ∧ a ∈ pool.tokenAccountIds ∧
    b ∈ pool.tokenAccountIds ∧ b ≠ a ∧ getByIds pool a b = .ok edge

theorem mem_nodes {t : TokenAccount} : t ∈ (tokenGraph std pools).nodes ↔
    ∃ pool ∈ pools.list, pool.isSimple = true ∧ t ∈ pool.tokenAccountIds :=
  PoolsByToken.mem_tokens std

variable {e : Arc TokenAccount EdgeWeight}

theorem top_of_mem (h : e ∈ (tokenGraph std pools).edges) :
    ∃ edges edge, ((PoolsByToken.new pools).getGroupsByOut std e.source).get e.target = some edges ∧
      PathEdges.atTop std edges = some edge ∧ e.weight = edge.weight := by
  obtain ⟨a, _, hmap⟩ := List.mem_flatMap.mp h
  obtain ⟨⟨b, edges⟩, hentry, hbind⟩ := List.mem_filterMap.mp hmap
  obtain ⟨edge, htop, hif⟩ := Option.bind_eq_some_iff.mp hbind
  split_ifs at hif
  obtain rfl := Option.some.inj hif
  exact ⟨edges, edge, SortedMap.get_eq_some.mpr (std.mem_iter.mp hentry), htop, rfl⟩

theorem arc_unique {e f : Arc TokenAccount EdgeWeight} (he : e ∈ (tokenGraph std pools).edges)
    (hf : f ∈ (tokenGraph std pools).edges) (hsource : f.source = e.source)
    (htarget : f.target = e.target) : f = e := by
  obtain ⟨edges, edge, hget, htop, hweight⟩ := top_of_mem he
  obtain ⟨edges', edge', hget', htop', hweight'⟩ := top_of_mem hf
  obtain ⟨a, b, w⟩ := e
  obtain ⟨a', b', w'⟩ := f
  obtain rfl : a' = a := hsource
  obtain rfl : b' = b := htarget
  obtain rfl := Option.some.inj (hget.symm.trans hget')
  obtain rfl := Option.some.inj (htop.symm.trans htop')
  exact congrArg _ (hweight'.trans hweight.symm)

theorem offers_of_mem (h : e ∈ (tokenGraph std pools).edges) :
    ∃ pool edge, Offers pools pool e.source e.target edge ∧ e.weight = edge.weight := by
  obtain ⟨edges, edge, hget, htop, hweight⟩ := top_of_mem h
  have hgroups := PoolsByToken.grouped_getGroupsByOut std pools e.source
  obtain ⟨pool, ⟨hp, hsimple, ha, hb, hne⟩, hedge⟩ :=
    hgroups.sound hget edge (std.mem_of_peek htop)
  exact ⟨pool, edge, ⟨hp, hsimple, ha, hb, hne, hedge⟩, hweight⟩

theorem adj_of_offers {pool : PoolInfo} {a b : TokenAccount} {edge : Edge}
    (h : Offers pools pool a b edge) : (tokenGraph std pools).Adj a b := by
  obtain ⟨hp, hsimple, ha, hb, hne, hedge⟩ := h
  have hgroups := PoolsByToken.grouped_getGroupsByOut std pools a
  have hseen := hgroups.complete (b := b) ⟨hp, hsimple, ha, hb, hne⟩ hedge
  obtain ⟨edges, hget⟩ := SortedMap.exists_get hseen
  obtain ⟨top, htop⟩ := Option.ne_none_iff_exists'.mp
    fun hnone ↦ hgroups.nonempty hget (std.peek_none.mp hnone)
  have hnode : ∀ {t}, t ∈ pool.tokenAccountIds → t ∈ (PoolsByToken.new pools).tokens std :=
    fun ht ↦ (PoolsByToken.mem_tokens std).mpr ⟨pool, hp, hsimple, ht⟩
  refine ⟨⟨a, b, top.weight⟩, ?_, rfl, rfl⟩
  refine List.mem_flatMap.mpr ⟨a, std.mem_iter.mpr (hnode ha), List.mem_filterMap.mpr ?_⟩
  refine ⟨(b, edges), std.mem_iter.mpr (SortedMap.get_eq_some.mp hget), ?_⟩
  rw [PathEdges.atTop, htop, Option.bind_some, if_pos (hnode hb)]

theorem adj_nodes {a b : TokenAccount} (h : (tokenGraph std pools).Adj a b) :
    a ∈ (tokenGraph std pools).nodes ∧ b ∈ (tokenGraph std pools).nodes := by
  obtain ⟨e, he, rfl, rfl⟩ := h
  obtain ⟨pool, _, ⟨hp, hsimple, ha, hb, _⟩, _⟩ := offers_of_mem he
  exact ⟨mem_nodes.mpr ⟨pool, hp, hsimple, ha⟩, mem_nodes.mpr ⟨pool, hp, hsimple, hb⟩⟩

theorem reaches_nodes {a b : TokenAccount} (ha : a ∈ (tokenGraph std pools).nodes)
    (h : (tokenGraph std pools).Reaches a b) : b ∈ (tokenGraph std pools).nodes := by
  cases h with
  | refl => exact ha
  | tail _ hb => exact (adj_nodes hb).2

theorem weight_nonpos (h : e ∈ (tokenGraph std pools).edges) :
    e.weight.estimatedRate ≤ 0 := by
  obtain ⟨_, edge, _, hw⟩ := offers_of_mem h
  rw [hw]
  exact EdgeWeight.calcRate_nonpos _ _

theorem loopless (he : e ∈ (tokenGraph std pools).edges) :
    e.source ≠ e.target := by
  obtain ⟨_, _, ⟨_, _, _, _, hne, _⟩, _⟩ := offers_of_mem he
  exact hne.symm

theorem scoring {Q : ℚ → Prop} (h₁ : Q 1)
    (hmul : ∀ r, Q r → ∀ e ∈ (tokenGraph std pools).edges, Q (r * e.weight.estimatedRate)) :
    Scoring (tokenGraph std pools) fun w ↦ w.pairId = none ∧ Q w.estimatedRate where
  start := ⟨rfl, h₁⟩
  add hd he := ⟨rfl, hmul _ hd.2 _ he⟩
  eq_of_not_lt := by
    rintro ⟨p, r⟩ ⟨p', r'⟩ ⟨rfl, _⟩ ⟨rfl, _⟩ hlt hlt'
    rw [EdgeWeight.lt_iff] at hlt hlt'
    exact congrArg _ (le_antisymm (not_lt.mp hlt') (not_lt.mp hlt))
  asymm := by
    intro a b h
    rw [EdgeWeight.lt_iff] at h ⊢
    exact h.not_gt
  split := by
    intro a c b h
    simp only [EdgeWeight.lt_iff] at h ⊢
    rcases lt_or_ge a.estimatedRate b.estimatedRate with hab | hba
    · exact .inl hab
    · exact .inr (hba.trans_lt h)
  loopless _ := loopless

end graph

section selection

variable {std : Containers} {fuel : ℕ} {graph : Digraph TokenAccount EdgeWeight}
  {start : TokenAccount}

/-- Whether the search from `goal` that stops at `start` finds any path. -/
def leadsOn (std : Containers) (fuel : ℕ) (graph : Digraph TokenAccount EdgeWeight)
    (start goal : TokenAccount) : Bool :=
  (CachedPath.search std fuel graph goal (some start)).any fun found ↦ !found.2.isEmpty

/-- A run that stops at its own start scores nothing else, so there are no predecessors. -/
theorem findPrev_self (std : Containers) (hloop : ∀ e ∈ graph.edges, e.source ≠ e.target)
    (v : TokenAccount) :
    GraphPath.findPrev graph (dijkstra std graph start (some start)) v = none := by
  rw [dijkstra_self, Option.eq_none_iff_forall_ne_some]
  intro u hu
  obtain ⟨d, hd, hfind⟩ := Option.bind_eq_some_iff.mp hu
  obtain ⟨e, he, hsome⟩ := List.exists_of_findSome?_eq_some hfind
  obtain ⟨sd, hsd, _⟩ := Option.bind_eq_some_iff.mp hsome
  obtain ⟨he, htarget⟩ := Digraph.mem_incoming.mp he
  have hkey : ∀ {w d}, (SortedMap.empty.insert start (default : EdgeWeight)).get w = some d →
      w = start := by
    intro w d hw
    rw [SortedMap.get_insert] at hw
    split_ifs at hw with hws
    · exact hws
    · cases hw
  exact hloop e he ((hkey hsd).trans ((hkey hd).symm.trans htarget.symm))

theorem search_self (hloop : ∀ e ∈ graph.edges, e.source ≠ e.target)
    {found : PathToOut TokenAccount × List TokenAccount}
    (h : CachedPath.search std fuel graph start (some start) = some found) :
    found.1.entries = [] := by
  have hfound : CachedPath.Found graph (dijkstra std graph start (some start)) found.1 found.2 :=
    CachedPath.found_search h
  have hnone : ∀ v, v ∉ found.1.keys := by
    intro v hv
    obtain ⟨u, hu⟩ := hfound.mem_keys.mp hv
    rw [findPrev_self std hloop] at hu
    cases hu
  exact List.map_eq_nil_iff.mp (List.eq_nil_iff_forall_not_mem.mpr hnone)

variable {outs : List TokenAccount}

theorem selectGoals_cons {g : TokenAccount} {cache : CachedPath TokenAccount EdgeWeight}
    (hstart : start ∈ cache.graph.nodes) (hg : g ∈ cache.graph.nodes) :
    selectGoals std fuel start (g :: outs) cache =
      (CachedPath.search std fuel cache.graph g (some start)).bind fun found ↦
        (selectGoals std fuel start outs (cache.store g found.1)).map fun next ↦
          (next.1.map fun goals ↦ if found.2.isEmpty then goals else g :: goals, next.2) := by
  rw [selectGoals, CachedPath.updatePath_some,
    CachedPath.computePath_of_mem hg fun _ h ↦ Option.some.inj h ▸ hstart]
  cases CachedPath.search std fuel cache.graph g (some start) with
  | none => rfl
  | some found =>
    change (selectGoals std fuel start outs (cache.store g found.1)).bind _ = _
    rw [Option.bind_some]
    cases selectGoals std fuel start outs (cache.store g found.1) <;> rfl

theorem selectGoals_spec (hloop : ∀ e ∈ graph.edges, e.source ≠ e.target)
    (hstart : start ∈ graph.nodes) (houts : ∀ g ∈ outs, g ∈ graph.nodes)
    {cache cache' : CachedPath TokenAccount EdgeWeight}
    {r : Except (Failure TokenAccount) (List TokenAccount)} (hcache : cache.graph = graph)
    (h : selectGoals std fuel start outs cache = some (r, cache')) :
    r = .ok (outs.filter (leadsOn std fuel graph start)) ∧
      (∀ g ∈ outs, (CachedPath.search std fuel graph g (some start)).isSome) ∧
      cache'.graph = graph ∧ ∀ v, v = start ∨ v ∉ outs →
        cache'.cachedPath.get v = cache.cachedPath.get v := by
  induction outs generalizing cache r cache' with
  | nil =>
    obtain ⟨rfl, rfl⟩ := Prod.mk.inj (Option.some.inj h)
    exact ⟨rfl, by simp, hcache, fun _ _ ↦ rfl⟩
  | cons g outs ih =>
    subst hcache
    rw [selectGoals_cons hstart (houts g List.mem_cons_self)] at h
    obtain ⟨found, hfound, hrest⟩ := Option.bind_eq_some_iff.mp h
    obtain ⟨⟨goals, cache₁⟩, hgoals, heq⟩ := Option.map_eq_some_iff.mp hrest
    obtain ⟨rfl, rfl⟩ := Prod.mk.inj heq
    obtain ⟨rfl, hsome, hgraph, hget⟩ := ih (fun x hx ↦ houts x (List.mem_cons_of_mem g hx))
      (CachedPath.store_graph _ _) hgoals
    have hleads : leadsOn std fuel cache.graph start g = !found.2.isEmpty := by
      rw [leadsOn, hfound]
      rfl
    refine ⟨?_, ?_, hgraph, ?_⟩
    · rw [List.filter_cons, hleads]
      cases found.2.isEmpty <;> rfl
    · intro x hx
      rcases List.mem_cons.mp hx with rfl | hx
      · rw [hfound]
        rfl
      · exact hsome x hx
    · intro v hv
      have hrec : v = start ∨ v ∉ outs := hv.imp id fun hv hx ↦ hv (List.mem_cons_of_mem g hx)
      rw [hget v hrec]
      by_cases hvg : v = g
      · obtain rfl : v = start := hv.resolve_right fun hv ↦ hv (hvg ▸ List.mem_cons_self)
        subst hvg
        rw [CachedPath.store, if_pos (search_self hloop hfound)]
      · exact CachedPath.get_store_of_ne hvg _

theorem selectGoals_returns (hstart : start ∈ graph.nodes) (houts : ∀ g ∈ outs, g ∈ graph.nodes)
    (hsome : ∀ g ∈ outs, (CachedPath.search std fuel graph g (some start)).isSome)
    {cache : CachedPath TokenAccount EdgeWeight} (hcache : cache.graph = graph) :
    ∃ next, selectGoals std fuel start outs cache = some next := by
  induction outs generalizing cache with
  | nil => exact ⟨_, rfl⟩
  | cons g outs ih =>
    subst hcache
    obtain ⟨found, hfound⟩ := Option.isSome_iff_exists.mp (hsome g List.mem_cons_self)
    obtain ⟨next, hnext⟩ := ih (fun x hx ↦ houts x (List.mem_cons_of_mem g hx))
      (fun x hx ↦ hsome x (List.mem_cons_of_mem g hx))
      (CachedPath.store_graph g found.1)
    rw [selectGoals_cons hstart (houts g List.mem_cons_self), hfound, Option.bind_some, hnext]
    exact ⟨_, rfl⟩

end selection

section calls

variable {std : Containers} {fuel : ℕ} {pools : PoolInfoList} {s : TokenAccount}

/-- A graph of these pools that holds under `s` nothing but what the full search from `s` finds. -/
structure Coherent (std : Containers) (fuel : ℕ) (pools : PoolInfoList) (s : TokenAccount)
    (tokens : TokenGraph) : Prop where
  pools_eq : tokens.pools = pools
  graph_eq : tokens.graph.graph = tokenGraph std pools
  cached : ∀ {m}, tokens.graph.cachedPath.get s = some m → s ∈ (tokenGraph std pools).nodes ∧
    m.entries ≠ [] ∧
    ∃ outs, CachedPath.search std fuel (tokenGraph std pools) s none = some (m, outs)

theorem coherent_new (std : Containers) (fuel : ℕ) (pools : PoolInfoList) (s : TokenAccount) :
    Coherent std fuel pools s (new std pools) where
  pools_eq := rfl
  graph_eq := rfl
  cached h := by cases h

theorem reaches_of_found {goal : Option TokenAccount} {m : PathToOut TokenAccount}
    {outs : List TokenAccount}
    (h : CachedPath.search std fuel (tokenGraph std pools) s goal = some (m, outs))
    {v : TokenAccount} (hv : v ∈ m.keys) : (tokenGraph std pools).Reaches s v := by
  obtain ⟨u, hu⟩ := (CachedPath.found_search h).mem_keys.mp hv
  obtain ⟨d, hd⟩ := SortedMap.exists_get (GraphPath.findPrev_some hu).1
  have hP : Scoring (tokenGraph std pools) fun w ↦ w.pairId = none ∧ True :=
    scoring (Q := fun _ ↦ True) trivial fun _ _ _ _ ↦ trivial
  exact (dijkstra_run std hP s goal).1.reached hd

theorem updateGraph_unknown {tokens : TokenGraph} (hc : Coherent std fuel pools s tokens)
    (hs : s ∉ (tokenGraph std pools).nodes) : updateGraph std fuel tokens s =
      some (.error (.dex (.tokenNotFound (toString s))), tokens) := by
  have hindex : tokens.graph.nodeIndex s = .error (.dex (.tokenNotFound (toString s))) := by
    rw [CachedPath.nodeIndex, hc.graph_eq, if_neg hs]
  have hget : tokens.graph.cachedPath.get s = none := by
    cases hget : tokens.graph.cachedPath.get s with
    | none => rfl
    | some m => exact absurd (hc.cached hget).1 hs
  rw [updateGraph, CachedPath.updatePath_of_not_get hget, CachedPath.computePath,
    CachedPath.resolve, hindex]
  rfl

theorem updatePath_full {tokens : TokenGraph} (hc : Coherent std fuel pools s tokens)
    (hs : s ∈ (tokenGraph std pools).nodes)
    {r : Except (Failure TokenAccount) (List TokenAccount)}
    {cache : CachedPath TokenAccount EdgeWeight}
    (h : tokens.graph.updatePath std fuel s none = some (r, cache)) :
    ∃ m outs outs', CachedPath.search std fuel (tokenGraph std pools) s none = some (m, outs) ∧
      r = .ok outs' ∧ outs'.Nodup ∧ (∀ g, g ∈ outs' ↔ g ∈ m.keys) ∧
      cache = tokens.graph.store s m := by
  cases hget : tokens.graph.cachedPath.get s with
  | some m =>
    obtain ⟨_, hne, outs, hsearch⟩ := hc.cached hget
    rw [CachedPath.updatePath_of_get hget] at h
    obtain ⟨rfl, rfl⟩ := Prod.mk.inj (Option.some.inj h)
    have hstore : tokens.graph.store s m = tokens.graph := by
      rw [CachedPath.store, if_neg hne, SortedMap.insert_of_get hget]
    exact ⟨m, outs, _, hsearch, rfl, std.nodup_iter.mpr m.keys_nodup, fun _ ↦ std.mem_iter,
      hstore.symm⟩
  | none =>
    rw [CachedPath.updatePath_of_not_get hget, CachedPath.computePath_of_mem (hc.graph_eq ▸ hs)
      (fun _ h ↦ by cases h), hc.graph_eq] at h
    obtain ⟨⟨m, outs⟩, hsearch, heq⟩ := Option.map_eq_some_iff.mp h
    obtain ⟨rfl, rfl⟩ := Prod.mk.inj heq
    have hfound := CachedPath.found_search hsearch
    exact ⟨m, outs, outs, hsearch, rfl, hfound.nodup, fun _ ↦ hfound.mem_outs, rfl⟩

theorem updateGraph_spec {tokens tokens' : TokenGraph} (hc : Coherent std fuel pools s tokens)
    (hs : s ∈ (tokenGraph std pools).nodes)
    {r : Except (Failure TokenAccount) (List TokenAccount)}
    (h : updateGraph std fuel tokens s = some (r, tokens')) :
    ∃ m outs, ∃ outs' : List TokenAccount,
      CachedPath.search std fuel (tokenGraph std pools) s none = some (m, outs) ∧
      outs'.Nodup ∧ (∀ g, g ∈ outs' ↔ g ∈ m.keys) ∧
      r = .ok (outs'.filter (leadsOn std fuel (tokenGraph std pools) s)) ∧
      (∀ g ∈ outs', (CachedPath.search std fuel (tokenGraph std pools) g (some s)).isSome) ∧
      tokens'.pools = pools ∧ tokens'.graph.graph = tokenGraph std pools ∧
      ∀ v, v = s ∨ v ∉ m.keys →
        tokens'.graph.cachedPath.get v = (tokens.graph.store s m).cachedPath.get v := by
  obtain ⟨⟨r₁, cache⟩, hfull, hrest⟩ := Option.bind_eq_some_iff.mp h
  obtain ⟨m, outs, outs', hsearch, rfl, hnodup, hmem, rfl⟩ := updatePath_full hc hs hfull
  obtain ⟨⟨goals, cache'⟩, hgoals, heq⟩ := Option.bind_eq_some_iff.mp hrest
  obtain ⟨rfl, rfl⟩ := Prod.mk.inj (Option.some.inj heq)
  have hnodes : ∀ g ∈ outs', g ∈ (tokenGraph std pools).nodes := fun g hg ↦
    reaches_nodes hs (reaches_of_found hsearch ((hmem g).mp hg))
  obtain ⟨hr, hsome, hgraph, hget⟩ := selectGoals_spec (fun _ ↦ loopless) hs hnodes
    ((CachedPath.store_graph s m).trans hc.graph_eq) hgoals
  refine ⟨m, outs, outs', hsearch, hnodup, hmem, hr, hsome, hc.pools_eq, hgraph, ?_⟩
  intro v hv
  exact hget v (hv.imp id fun hv hg ↦ hv ((hmem v).mp hg))

theorem updateGraph_returns {tokens : TokenGraph} (hc : Coherent std fuel pools s tokens)
    (hs : s ∈ (tokenGraph std pools).nodes) {m : PathToOut TokenAccount}
    {outs : List TokenAccount}
    (hsearch : CachedPath.search std fuel (tokenGraph std pools) s none = some (m, outs))
    (hsome : ∀ g ∈ m.keys,
      (CachedPath.search std fuel (tokenGraph std pools) g (some s)).isSome) :
    ∃ next, updateGraph std fuel tokens s = some next := by
  have hfull : ∃ first, tokens.graph.updatePath std fuel s none = some first := by
    cases hget : tokens.graph.cachedPath.get s with
    | some m' => exact ⟨_, CachedPath.updatePath_of_get hget⟩
    | none =>
      rw [CachedPath.updatePath_of_not_get hget, CachedPath.computePath_of_mem (hc.graph_eq ▸ hs)
        (fun _ h ↦ by cases h), hc.graph_eq, hsearch]
      exact ⟨_, rfl⟩
  obtain ⟨⟨r, cache⟩, hfirst⟩ := hfull
  obtain ⟨m', outs₁, outs', hsearch', rfl, _, hmem, rfl⟩ := updatePath_full hc hs hfirst
  obtain ⟨rfl, _⟩ := Prod.mk.inj (Option.some.inj (hsearch'.symm.trans hsearch))
  have hnodes : ∀ g ∈ outs', g ∈ (tokenGraph std pools).nodes := fun g hg ↦
    reaches_nodes hs (reaches_of_found hsearch ((hmem g).mp hg))
  obtain ⟨⟨goals, cache'⟩, hgoals⟩ := selectGoals_returns hs hnodes
    (fun g hg ↦ hsome g ((hmem g).mp hg)) ((CachedPath.store_graph s m').trans hc.graph_eq)
  refine ⟨(goals, { tokens with graph := cache' }), ?_⟩
  rw [updateGraph, hfirst]
  change (selectGoals std fuel s outs' (tokens.graph.store s m')).bind _ = _
  rw [hgoals]
  rfl

end calls

end TokenGraph

end Zaciraci.Path
