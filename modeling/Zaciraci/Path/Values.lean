import Zaciraci.Dex.Estimate
import Zaciraci.Path.BestRate
import Zaciraci.Path.Preview

namespace Zaciraci.Path.TokenGraph

open Zaciraci.Lib Zaciraci.Dex

/-- The step of `list_values_with_path` for one goal. What cannot be estimated is left out. -/
def valueWithPath (tokens : TokenGraph) (initial : U128) (start : TokenAccount)
    (values : List (TokenAccount × U128 × TokenPath)) (goal : TokenAccount) :
    Outcome (Failure TokenAccount) (List (TokenAccount × U128 × TokenPath)) :=
  match tokens.requirePath start goal with
  | .panicked m => .panicked m
  | .err _ => .ok values
  | .ok path =>
    match path.calcValue initial with
    | .error _ => .ok values
    | .ok value => .ok (values ++ [(goal, value, path)])

def listValuesWithPath (tokens : TokenGraph) (initial : U128) (start : TokenAccount)
    (goals : List TokenAccount) :
    Outcome (Failure TokenAccount) (List (TokenAccount × U128 × TokenPath)) := do
  let values ← goals.foldlM (tokens.valueWithPath initial start) []
  pure (values.insertionSort fun a b ↦ b.2.1 ≤ a.2.1)

structure Filled (pools : PoolInfoList) (pair : TokenPair) : Prop where
  listed : pair.pool ∈ pools.list
  ne : pair.tokenIn ≠ pair.tokenOut
  reserves : ∃ x y, pair.pool.amounts[pair.tokenIn]? = some x ∧
    pair.pool.amounts[pair.tokenOut]? = some y ∧ 0 < x.toNat ∧ 0 < y.toNat

section Estimates

variable {pools : PoolInfoList}

theorem exists_calcValue {path : TokenPath} (h : ∀ pair ∈ path, Filled pools pair) (a : U128) :
    ∃ v, path.calcValue a = .ok v := by
  induction path generalizing a with
  | nil => exact ⟨a, rfl⟩
  | cons pair path ih =>
    obtain ⟨hpair, hpath⟩ := List.forall_mem_cons.1 h
    by_cases ha : a = 0
    · exact ⟨0, by rw [ha, TokenPath.calcValue_zero]⟩
    · obtain ⟨x, y, hx, hy, hx₀, hy₀⟩ := hpair.reserves
      have ha₀ : 0 < a.toNat := by
        apply Nat.pos_of_ne_zero
        intro hzero
        exact ha (BitVec.eq_of_toNat_eq hzero)
      have hreturn : pair.estimateReturn a =
          .ok (.ofNat 128 (pair.pool.swapOut x.toNat a.toNat y.toNat)) :=
        PoolInfo.estimateReturn_iff.2 ⟨hpair.ne, ha₀, x, y, hx, hy, hx₀, hy₀,
          pair.pool.toNat_ofNat_swapOut a.toNat hx₀ hy₀⟩
      rw [TokenPath.calcValue_cons ha, hreturn]
      exact ih hpath _

variable {std : Containers}

theorem filled_of_mem (hpools : pools.Consistent) {e : Arc TokenAccount EdgeWeight}
    (he : e ∈ (tokenGraph std pools).edges) :
    ∃ id pair, e.weight.pairId = some id ∧ pools.getPair id = .ok pair ∧ Filled pools pair := by
  obtain ⟨pool, edge, ⟨hpool, -, -, -, -, hedge⟩, hweight⟩ := offers_of_mem he
  obtain ⟨i, j, -, -, hget, hestimate⟩ := getByIds_ok.1 hedge
  obtain ⟨-, -, -, hreturn⟩ := TokenPair.estimateNormalReturn_ok hestimate
  obtain ⟨hne, -, x, y, hx, hy, hx₀, hy₀, -⟩ := PoolInfo.estimateReturn_iff.1 hreturn
  obtain ⟨-, -, -, -, -, hpair⟩ := PoolInfo.getPair_ok.1 hget
  refine ⟨edge.pair.pairId, edge.pair, by rw [hweight]; rfl, ?_, ?_, hne, x, y, hx, hy, hx₀, hy₀⟩
  · rw [PoolInfoList.getPair, PoolInfoList.get, TokenPair.pairId, hpair, hpools pool hpool]
    exact hget.trans (congrArg _ hpair)
  · rw [hpair]
    exact hpool

theorem pairsOf_route (hpools : pools.Consistent) {route : List (Arc TokenAccount EdgeWeight)}
    (h : ∀ e ∈ route, e ∈ (tokenGraph std pools).edges) :
    ∃ path, pairsOf pools (route.map Arc.weight) = some (.ok path) ∧
      ∀ pair ∈ path, Filled pools pair := by
  induction route with
  | nil => exact ⟨[], rfl, by simp⟩
  | cons e route ih =>
    obtain ⟨he, hroute⟩ := List.forall_mem_cons.1 h
    obtain ⟨id, pair, hid, hpair, hfilled⟩ := filled_of_mem hpools he
    obtain ⟨path, hpath, hrest⟩ := ih hroute
    refine ⟨pair :: path, ?_, List.forall_mem_cons.2 ⟨hfilled, hrest⟩⟩
    simp only [List.map_cons, pairsOf, hid, Option.bind_eq_bind, Option.bind_some, hpair, hpath]
    rfl

end Estimates

section Fresh

variable {std : Containers} {fuel : ℕ} {pools : PoolInfoList} {start : TokenAccount}

theorem exists_route (hpos : PositiveRates (tokenGraph std pools)) {m : PathToOut TokenAccount}
    {outs : List TokenAccount}
    (hsearch : CachedPath.search std fuel (tokenGraph std pools) start none = some (m, outs))
    {goal : TokenAccount} {q : List TokenAccount} (hq : m.get goal = some q) :
    ∃ route, (tokenGraph std pools).IsRoute start route goal ∧
      route.map Arc.target = (goal :: q.reverse).reverse := by
  have hfound := CachedPath.found_search hsearch
  obtain ⟨u, hu⟩ := hfound.mem_keys.1 (SortedMap.mem_keys_of_get hq)
  obtain ⟨d, hd⟩ := SortedMap.exists_get (GraphPath.findPrev_some hu).1
  have hprev : ∀ v ∈ (dijkstra std (tokenGraph std pools) start none).keys, v ≠ start →
      GraphPath.findPrev (tokenGraph std pools)
        (dijkstra std (tokenGraph std pools) start none) v ≠ none := by
    intro v hv hvs
    exact Option.ne_none_iff_exists'.2 (exists_prev hpos hv hvs)
  obtain ⟨route, hroute, htargets, -⟩ := (hfound.get.1 hq).route
    (labels std pools start none).start_score hprev hd
  exact ⟨route, hroute, htargets⟩

/-- With positive rates, `update_graph` gives every token that the start reaches, and `get_path`
then has a path of filled pools to each. -/
theorem goals_of_updateGraph (hpools : pools.Consistent)
    (hpos : PositiveRates (tokenGraph std pools)) (hstart : start ∈ (tokenGraph std pools).nodes)
    {r : Except (Failure TokenAccount) (List TokenAccount)} {tokens : TokenGraph}
    (h : updateGraph std fuel (new std pools) start = some (r, tokens)) :
    ∃ goals, r = .ok goals ∧ goals.Nodup ∧
      (∀ g, g ∈ goals ↔ g ≠ start ∧ (tokenGraph std pools).Reaches start g) ∧
      ∀ g ∈ goals, ∃ path, tokens.getPath start g = some (.ok path) ∧
        ∀ pair ∈ path, Filled pools pair := by
  have hP := scoring_nonzero hpos
  obtain ⟨m, outs, outs', hsearch, hnodup, hkeys, rfl, hsome, htokens, hgraph, hget⟩ :=
    updateGraph_spec (coherent_new std fuel pools start) hstart h
  have hfound := CachedPath.found_search hsearch
  have hmem : ∀ g, g ∈ outs' ↔ g ≠ start ∧ (tokenGraph std pools).Reaches start g := by
    intro g
    rw [hkeys, ← hfound.mem_outs, mem_found hpos hfound, mem_dijkstra_none hP]
  have hleads : ∀ g ∈ outs', leadsOn std fuel (tokenGraph std pools) start g = true := by
    intro g hg
    obtain ⟨hne, hreach⟩ := (hmem g).1 hg
    obtain ⟨⟨m', back⟩, hback⟩ := Option.isSome_iff_exists.1 (hsome g hg)
    have hgoal : start ∈ (dijkstra std (tokenGraph std pools) g (some start)).keys :=
      mem_dijkstra_goal hP (hreach.symm (adj_symm hpos))
    have hin := (mem_found hpos (CachedPath.found_search hback)).2 ⟨hne.symm, hgoal⟩
    rw [leadsOn, hback]
    simpa using List.ne_nil_of_mem hin
  rw [List.filter_eq_self.2 hleads]
  refine ⟨outs', rfl, hnodup, hmem, fun g hg ↦ ?_⟩
  obtain ⟨q, hq⟩ := SortedMap.exists_get ((hkeys g).1 hg)
  have hcached : tokens.graph.cachedPath.get start = some m := by
    rw [hget start (.inl rfl), CachedPath.store, if_neg]
    · exact SortedMap.get_insert_self _ _ _
    · intro hempty
      have hentry := SortedMap.get_eq_some.1 hq
      rw [hempty] at hentry
      cases hentry
  obtain ⟨route, hroute, htargets⟩ := exists_route hpos hsearch hq
  have hedges := CachedPath.getEdges_of_isRoute (hgraph ▸ simple std pools) hcached hq
    (hgraph ▸ hroute) htargets
  obtain ⟨path, hpath, hfilled⟩ := pairsOf_route hpools hroute.mem
  refine ⟨path, ?_, hfilled⟩
  rw [getPath, hedges, htokens]
  exact hpath

theorem updateGraph_returns_of_no_unitCycle (hstart : start ∈ (tokenGraph std pools).nodes)
    (h : ∀ v tokens, (tokenGraph std pools).Reaches start v →
      ¬UnitCycle (tokenGraph std pools) v tokens) :
    ∃ enough, ∀ fuel ≥ enough, ∃ next, updateGraph std fuel (new std pools) start = some next := by
  obtain ⟨first, hfirst⟩ : ∃ enough, ∀ fuel ≥ enough, ∃ found,
      CachedPath.search std fuel (tokenGraph std pools) start none = some found :=
    search_returns h
  have hback : ∀ g : TokenAccount, ∃ enough, (tokenGraph std pools).Reaches start g →
      ∀ fuel ≥ enough, ∃ found,
        CachedPath.search std fuel (tokenGraph std pools) g (some start) = some found := by
    intro g
    by_cases hg : (tokenGraph std pools).Reaches start g
    · obtain ⟨enough, henough⟩ := search_returns fun v tokens hv ↦ h v tokens (hg.trans hv)
      exact ⟨enough, fun _ ↦ henough⟩
    · exact ⟨0, fun hreach ↦ absurd hreach hg⟩
  choose back hback using hback
  refine ⟨max first ((tokenGraph std pools).nodes.toFinset.sup back), fun fuel hfuel ↦ ?_⟩
  obtain ⟨⟨m, outs⟩, hsearch⟩ := hfirst fuel ((le_max_left _ _).trans hfuel)
  refine updateGraph_returns (coherent_new std fuel pools start) hstart hsearch fun g hg ↦ ?_
  have hreach := reaches_of_found hsearch hg
  have hnode := List.mem_toFinset.2 (reaches_nodes hstart hreach)
  have hle : back g ≤ fuel :=
    (Finset.le_sup hnode).trans ((le_max_right _ _).trans hfuel)
  exact Option.isSome_iff_exists.2 (hback g hreach fuel hle)

end Fresh

section Values

variable {tokens : TokenGraph} {initial : U128} {start : TokenAccount}

def ValueAlong (tokens : TokenGraph) (initial : U128) (start : TokenAccount)
    (entry : TokenAccount × U128 × TokenPath) : Prop :=
  tokens.getPath start entry.1 = some (.ok entry.2.2) ∧
    entry.2.2.calcValue initial = .ok entry.2.1

theorem foldlM_valueWithPath {goals : List TokenAccount}
    (h : ∀ g ∈ goals, ∃ value path, ValueAlong tokens initial start (g, value, path))
    (values : List (TokenAccount × U128 × TokenPath)) :
    ∃ more, goals.foldlM (tokens.valueWithPath initial start) values = .ok (values ++ more) ∧
      more.map Prod.fst = goals ∧ ∀ entry ∈ more, ValueAlong tokens initial start entry := by
  induction goals generalizing values with
  | nil => exact ⟨[], by rw [List.append_nil]; rfl, rfl, by simp⟩
  | cons g goals ih =>
    obtain ⟨⟨value, path, hpath, hvalue⟩, hgoals⟩ := List.forall_mem_cons.1 h
    obtain ⟨more, hmore, hfst, hall⟩ := ih hgoals (values ++ [(g, value, path)])
    refine ⟨(g, value, path) :: more, ?_, by rw [List.map_cons, hfst], ?_⟩
    · have hstep : tokens.valueWithPath initial start values g =
          .ok (values ++ [(g, value, path)]) := by
        rw [valueWithPath, requirePath_eq_ok.2 hpath]
        simp only [hvalue]
      rw [List.foldlM_cons, hstep]
      exact hmore.trans (by rw [List.append_assoc]; rfl)
    · exact List.forall_mem_cons.2 ⟨⟨hpath, hvalue⟩, hall⟩

theorem listValuesWithPath_spec {goals : List TokenAccount}
    (h : ∀ g ∈ goals, ∃ value path, ValueAlong tokens initial start (g, value, path)) :
    ∃ values, tokens.listValuesWithPath initial start goals = .ok values ∧
      (values.map Prod.fst).Perm goals ∧
        ∀ entry ∈ values, ValueAlong tokens initial start entry := by
  obtain ⟨values, hvalues, hfst, hall⟩ := foldlM_valueWithPath h []
  have hperm := List.perm_insertionSort (fun a b : TokenAccount × U128 × TokenPath ↦
    b.2.1 ≤ a.2.1) values
  refine ⟨_, Outcome.bind_eq_ok.2 ⟨_, hvalues, rfl⟩, ?_, ?_⟩
  · exact hfst ▸ hperm.map Prod.fst
  · intro entry hentry
    exact hall entry (hperm.mem_iff.1 hentry)

end Values

end Zaciraci.Path.TokenGraph
