import Zaciraci.Dex.TokenPath
import Zaciraci.Path.Reachability

namespace Zaciraci.Path.TokenGraph

open Zaciraci.Lib Zaciraci.Dex

variable {std : Containers} {fuel : ℕ} {pools : PoolInfoList} {start : TokenAccount}

theorem pair_of_mem (hpools : pools.Consistent) {e : Arc TokenAccount EdgeWeight}
    (he : e ∈ (tokenGraph std pools).edges) {id : TokenPairId} (hid : e.weight.pairId = some id)
    {pair : TokenPair} (hpair : pools.getPair id = .ok pair) :
    pair.tokenInId = .ok e.source ∧ pair.tokenOutId = .ok e.target := by
  obtain ⟨pool, edge, ⟨hpool, _, _, _, _, hedge⟩, hweight⟩ := offers_of_mem he
  obtain ⟨i, j, _, _, hget, _⟩ := getByIds_ok.1 hedge
  obtain ⟨_, _, _, _, _, hedgePair⟩ := PoolInfo.getPair_ok.1 hget
  obtain ⟨hin, hout⟩ := getByIds_tokens hedge
  rw [hweight] at hid
  obtain rfl := Option.some.inj hid
  rw [TokenPair.pairId, hedgePair, PoolInfoList.getPair, PoolInfoList.get,
    hpools pool hpool] at hpair
  obtain rfl : edge.pair = pair := Except.ok.inj (hget.symm.trans hpair)
  rw [TokenPair.tokenInId, TokenPair.tokenOutId, hin, hout]
  exact ⟨rfl, rfl⟩

variable {cache : CachedPath TokenAccount EdgeWeight}

theorem getWeight_ok {a b : TokenAccount} {w : EdgeWeight} (h : cache.getWeight a b = .ok w) :
    ∃ e ∈ cache.graph.edges, e.source = a ∧ e.target = b ∧ e.weight = w := by
  simp only [CachedPath.getWeight, CachedPath.nodeIndex, except_bind_eq_ok] at h
  obtain ⟨source, hsource, target, htarget, h⟩ := h
  split at hsource
  · cases hsource
    split at htarget
    · cases htarget
      split at h
      · next e he =>
        cases h
        have hfind : (cache.graph.outgoing a).find? (·.target = b) = some e := he
        have hmem := Digraph.mem_outgoing.1 (List.mem_of_find?_eq_some hfind)
        have htarget := List.find?_some hfind
        exact ⟨e, hmem.1, hmem.2, of_decide_eq_true htarget, rfl⟩
      · cases h
    · cases htarget
  · cases hsource

variable {edges : List EdgeWeight} {path : TokenPath}

theorem pairsOf_cons (hpools : pools.Consistent) (hgraph : cache.graph = tokenGraph std pools)
    {a b : TokenAccount} {w : EdgeWeight} (hweight : cache.getWeight a b = .ok w)
    (hpairs : pairsOf pools (w :: edges) = some (.ok path)) :
    ∃ pair rest, path = pair :: rest ∧ pair.tokenInId = .ok a ∧ pair.tokenOutId = .ok b ∧
      pairsOf pools edges = some (.ok rest) := by
  obtain ⟨e, he, rfl, rfl, rfl⟩ := getWeight_ok hweight
  rw [hgraph] at he
  obtain ⟨id, hid, hrest⟩ := Option.bind_eq_some_iff.1 hpairs
  split at hrest
  · cases hrest
  · next pair hpair =>
    obtain ⟨pairs, hedges, hok⟩ := Option.bind_eq_some_iff.1 hrest
    cases pairs with
    | error _ => cases hok
    | ok rest =>
      cases hok
      obtain ⟨hin, hout⟩ := pair_of_mem hpools he hid hpair
      exact ⟨pair, rest, rfl, hin, hout, hedges⟩

theorem walk_along (hpools : pools.Consistent) (hgraph : cache.graph = tokenGraph std pools)
    {goal prev : TokenAccount} {tokens : List TokenAccount}
    (hwalk : cache.walk goal prev tokens = .ok edges)
    (hpairs : pairsOf pools edges = some (.ok path)) :
    TokenPath.Along prev (tokens ++ [goal]) path := by
  induction tokens generalizing prev edges path with
  | nil =>
    obtain ⟨w, hweight, hdone⟩ := except_bind_eq_ok.1 hwalk
    cases hdone
    obtain ⟨pair, rest, rfl, hin, hout, hrest⟩ := pairsOf_cons hpools hgraph hweight hpairs
    cases hrest
    exact ⟨hin, hout, trivial⟩
  | cons token tokens ih =>
    obtain ⟨w, hweight, hwalk⟩ := except_bind_eq_ok.1 hwalk
    obtain ⟨more, hmore, hdone⟩ := except_bind_eq_ok.1 hwalk
    cases hdone
    obtain ⟨pair, rest, rfl, hin, hout, hrest⟩ := pairsOf_cons hpools hgraph hweight hpairs
    exact ⟨hin, hout, ih hmore hrest⟩

theorem walk_ne_nil {goal prev : TokenAccount} {tokens : List TokenAccount}
    (h : cache.walk goal prev tokens = .ok edges) : edges ≠ [] := by
  cases tokens with
  | nil =>
    obtain ⟨w, -, hdone⟩ := except_bind_eq_ok.1 h
    cases hdone
    exact List.cons_ne_nil _ _
  | cons token tokens =>
    obtain ⟨w, -, hwalk⟩ := except_bind_eq_ok.1 h
    obtain ⟨more, -, hdone⟩ := except_bind_eq_ok.1 hwalk
    cases hdone
    exact List.cons_ne_nil _ _

theorem pairsOf_valid (h : pairsOf pools edges = some (.ok path)) :
    path.length = edges.length ∧ ∀ pair ∈ path, pair.Valid := by
  induction edges generalizing path with
  | nil =>
    cases h
    exact ⟨rfl, by simp⟩
  | cons edge edges ih =>
    obtain ⟨id, -, hpair⟩ := Option.bind_eq_some_iff.1 h
    split at hpair
    · cases hpair
    · next pair hget =>
      obtain ⟨pairs, hpairs, hdone⟩ := Option.bind_eq_some_iff.1 hpair
      cases pairs with
      | error e => cases hdone
      | ok rest =>
        cases hdone
        obtain ⟨pool, -, hpool⟩ := except_bind_eq_ok.1 hget
        obtain ⟨hlength, hvalid⟩ := ih hpairs
        exact ⟨congrArg (· + 1) hlength,
          List.forall_mem_cons.2 ⟨TokenPair.valid_of_getPair hpool, hvalid⟩⟩

theorem edges_of_getPath {tokens : TokenGraph} {goal : TokenAccount}
    (h : tokens.getPath start goal = some (.ok path)) :
    ∃ edges, tokens.graph.getEdges start goal = .ok edges ∧
      pairsOf tokens.pools edges = some (.ok path) := by
  rw [getPath] at h
  split at h
  · cases h
  · next edges hedges => exact ⟨edges, hedges, h⟩

theorem getPath_valid {tokens : TokenGraph} {goal : TokenAccount}
    (h : tokens.getPath start goal = some (.ok path)) :
    path ≠ [] ∧ ∀ pair ∈ path, pair.Valid := by
  obtain ⟨edges, hedges, hpairs⟩ := edges_of_getPath h
  obtain ⟨-, q, -, -, hwalk⟩ := CachedPath.cached_of_getEdges hedges
  obtain ⟨hlength, hvalid⟩ := pairsOf_valid hpairs
  refine ⟨fun hnil ↦ walk_ne_nil hwalk ?_, hvalid⟩
  rw [hnil] at hlength
  exact List.length_eq_zero_iff.1 hlength.symm

theorem getPath_along (hpools : pools.Consistent) {tokens : TokenGraph}
    (htokens : tokens.pools = pools) (hgraph : tokens.graph.graph = tokenGraph std pools)
    {goal : TokenAccount} (h : tokens.getPath start goal = some (.ok path)) :
    ∃ m q, tokens.graph.cachedPath.get start = some m ∧ m.get goal = some q ∧
      TokenPath.Along start (q ++ [goal]) path := by
  obtain ⟨edges, hedges, hpairs⟩ := edges_of_getPath h
  obtain ⟨m, q, hm, hq, hwalk⟩ := CachedPath.cached_of_getEdges hedges
  exact ⟨m, q, hm, hq, walk_along hpools hgraph hwalk (htokens ▸ hpairs)⟩

theorem prev_score {goal : Option TokenAccount} {v u : TokenAccount}
    (h : GraphPath.findPrev (tokenGraph std pools)
      (dijkstra std (tokenGraph std pools) start goal) v = some u) :
    ∃ sd, (dijkstra std (tokenGraph std pools) start goal).get u = some sd ∧
      sd.estimatedRate ≠ 0 := by
  obtain ⟨d, hd, hfind⟩ := Option.bind_eq_some_iff.1 h
  obtain ⟨e, _, he⟩ := List.exists_of_findSome?_eq_some hfind
  obtain ⟨sd, hsd, hif⟩ := Option.bind_eq_some_iff.1 he
  dsimp only at hif
  split_ifs at hif with hmoves
  obtain rfl := Option.some.inj hif
  refine ⟨sd, hsd, fun hzero ↦ hmoves.2 ?_⟩
  obtain ⟨pairId, rate⟩ := sd
  obtain rfl : pairId = none := ((labels std pools start goal).valid hsd).1
  rw [EdgeWeight.add_eq, show rate = 0 from hzero, zero_mul]

/-- The start has no predecessor in a search that returns: its chain of predecessors would never
end. -/
theorem start_no_prev {goal : Option TokenAccount} {m : PathToOut TokenAccount}
    {outs : List TokenAccount}
    (hsearch : CachedPath.search std fuel (tokenGraph std pools) start goal = some (m, outs)) :
    GraphPath.findPrev (tokenGraph std pools)
      (dijkstra std (tokenGraph std pools) start goal) start = none := by
  by_contra hsome
  obtain ⟨u, hu⟩ := Option.ne_none_iff_exists'.1 hsome
  have hendless : ∀ v l, GraphPath.Chain (tokenGraph std pools)
      (dijkstra std (tokenGraph std pools) start goal) v l →
      (v = start ∨ ∃ d, (dijkstra std (tokenGraph std pools) start goal).get v = some d ∧
        d.estimatedRate ≠ 0) → False := by
    intro v l hchain hv
    induction hchain with
    | @stop v hnone =>
      by_cases hvs : v = start
      · subst hvs
        exact hsome hnone
      · obtain ⟨d, hd, hrate⟩ := hv.resolve_left hvs
        obtain ⟨w, hw⟩ := exists_prev_of_ne_zero hd hrate hvs
        rw [hnone] at hw
        cases hw
    | next hprev _ ih => exact ih (.inr (prev_score hprev))
  obtain ⟨l, hl⟩ := (CachedPath.found_search hsearch).chains start (GraphPath.findPrev_some hu).1
  exact hendless start l hl (.inl rfl)

theorem prev_of_mem_chain {goals : SortedMap TokenAccount EdgeWeight} {v w : TokenAccount}
    {l : List TokenAccount} (h : GraphPath.Chain (tokenGraph std pools) goals v l) (hw : w ∈ l) :
    GraphPath.findPrev (tokenGraph std pools) goals w ≠ none := by
  induction h with
  | stop _ => cases hw
  | next hprev _ ih =>
    rcases List.mem_cons.1 hw with rfl | hw
    · rw [hprev]
      exact Option.some_ne_none _
    · exact ih hw

theorem start_not_mem {goal : Option TokenAccount} {m : PathToOut TokenAccount}
    {outs : List TokenAccount}
    (hsearch : CachedPath.search std fuel (tokenGraph std pools) start goal = some (m, outs))
    {v : TokenAccount} {q : List TokenAccount} (hq : m.get v = some q) : start ∉ q ++ [v] := by
  intro hmem
  have hchain := (CachedPath.found_search hsearch).get.1 hq
  refine prev_of_mem_chain hchain (w := start) ?_ (start_no_prev hsearch)
  rw [List.mem_cons, List.mem_reverse]
  simpa [or_comm] using hmem

section Fresh

variable {r : Except (Failure TokenAccount) (List TokenAccount)} {tokens : TokenGraph}

theorem cached_of_updateGraph
    (h : updateGraph std fuel (new std pools) start = some (r, tokens)) :
    tokens.pools = pools ∧ tokens.graph.graph = tokenGraph std pools ∧
      ∀ {m}, tokens.graph.cachedPath.get start = some m →
        ∃ outs, CachedPath.search std fuel (tokenGraph std pools) start none = some (m, outs) := by
  have hc := coherent_new std fuel pools start
  by_cases hstart : start ∈ (tokenGraph std pools).nodes
  · obtain ⟨m, outs, -, hsearch, -, -, -, -, htokens, hgraph, hget⟩ := updateGraph_spec hc hstart h
    refine ⟨htokens, hgraph, fun {m'} hm' ↦ ?_⟩
    rw [hget start (.inl rfl), CachedPath.store] at hm'
    split_ifs at hm' with hempty
    · cases hm'
    · obtain rfl := Option.some.inj ((SortedMap.get_insert_self _ _ _).symm.trans hm')
      exact ⟨outs, hsearch⟩
  · rw [updateGraph_unknown hc hstart] at h
    obtain ⟨-, rfl⟩ := Prod.mk.inj (Option.some.inj h)
    refine ⟨rfl, rfl, fun {m} hm ↦ ?_⟩
    cases hm

theorem getPath_fresh (hpools : pools.Consistent)
    (h : updateGraph std fuel (new std pools) start = some (r, tokens)) {goal : TokenAccount}
    {path : TokenPath} (hpath : tokens.getPath start goal = some (.ok path)) :
    ∃ q, start ∉ q ++ [goal] ∧ TokenPath.Along start (q ++ [goal]) path := by
  obtain ⟨htokens, hgraph, hcached⟩ := cached_of_updateGraph h
  obtain ⟨m, q, hm, hq, halong⟩ := getPath_along hpools htokens hgraph hpath
  obtain ⟨outs, hsearch⟩ := hcached hm
  exact ⟨q, start_not_mem hsearch hq, halong⟩

end Fresh

end Zaciraci.Path.TokenGraph
