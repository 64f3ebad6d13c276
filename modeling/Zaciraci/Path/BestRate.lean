import Zaciraci.Path.Shortest

namespace Zaciraci.Path.TokenGraph

open Zaciraci.Lib Zaciraci.Dex

def rate (edges : List EdgeWeight) : ℚ := (edges.map fun w ↦ -w.estimatedRate).prod

structure SimplePath (graph : Digraph TokenAccount EdgeWeight) (start : TokenAccount)
    (route : List (Arc TokenAccount EdgeWeight)) (goal : TokenAccount) : Prop where
  isRoute : graph.IsRoute start route goal
  nodup : (start :: route.map Arc.target).Nodup

/-- Only the first token after the start is one that the start can be swapped for. -/
def LeavesOnce (graph : Digraph TokenAccount EdgeWeight) (start : TokenAccount)
    (route : List (Arc TokenAccount EdgeWeight)) : Prop :=
  ∀ e ∈ route.tail, ¬graph.Adj start e.target

def BestRate (graph : Digraph TokenAccount EdgeWeight) (start goal : TokenAccount)
    (edges : List EdgeWeight) : Prop :=
  ∀ other, SimplePath graph start other goal → rate (other.map Arc.weight) ≤ rate edges

/-- No simple path has a better rate than one that is with the neighbours of the start only
once. -/
def Unbeaten (graph : Digraph TokenAccount EdgeWeight) (start goal : TokenAccount) : Prop :=
  ∀ route, SimplePath graph start route goal → LeavesOnce graph start route →
    BestRate graph start goal (route.map Arc.weight)

variable {std : Containers} {pools : PoolInfoList} {start goal : TokenAccount}

variable {route : List (Arc TokenAccount EdgeWeight)}

theorem abs_costFrom (h : ∀ e ∈ route, e.weight.estimatedRate ≤ 0) (d : EdgeWeight) :
    |(costFrom d route).estimatedRate| = |d.estimatedRate| * rate (route.map Arc.weight) := by
  induction route generalizing d with
  | nil => exact (mul_one _).symm
  | cons e route ih =>
    obtain ⟨he, h⟩ := List.forall_mem_cons.1 h
    rw [costFrom, List.foldl_cons, ← costFrom, ih h, EdgeWeight.add_eq, abs_mul,
      abs_of_nonpos he, mul_assoc]
    rfl

theorem rate_of_costFrom {d : EdgeWeight} (hroute : (tokenGraph std pools).IsRoute start route goal)
    (h : costFrom default route = d) : rate (route.map Arc.weight) = |d.estimatedRate| := by
  have hcost := abs_costFrom (fun e he ↦ weight_nonpos (hroute.mem e he)) default
  rw [h, show (default : EdgeWeight).estimatedRate = 1 from rfl, abs_one, one_mul] at hcost
  exact hcost.symm

theorem simple (std : Containers) (pools : PoolInfoList) : Simple (tokenGraph std pools) where
  nodes _ he := adj_nodes (Digraph.adj_of_mem he)
  loopless _ := loopless
  unique _ he _ := arc_unique he

/-- What the search from `start` keeps: the tokens next to the start have the rates of their
edges, and every other token the rate of a path that leaves them at once. -/
structure Grown (graph : Digraph TokenAccount EdgeWeight) (start : TokenAccount)
    (visited : List TokenAccount) (scores : SortedMap TokenAccount EdgeWeight) : Prop where
  held : start ∈ visited → ∀ f ∈ graph.edges, f.source = start →
    scores.get f.target = some (default + f.weight)
  tree : ∀ {u d}, scores.get u = some d → u ≠ start →
    ∃ route, SimplePath graph start route u ∧ LeavesOnce graph start route ∧
      (∀ e ∈ route, e.source ∈ visited) ∧ costFrom default route = d

section Grown

variable {s s' : Search std TokenAccount EdgeWeight} {v : TokenAccount} {d : EdgeWeight}
  {P : EdgeWeight → Prop}

theorem add_neg_iff {d w : EdgeWeight} (hw : w.estimatedRate < 0) :
    (d + w).estimatedRate < 0 ↔ 0 < d.estimatedRate := by
  rw [EdgeWeight.add_eq]
  exact ⟨fun h ↦ pos_of_mul_neg_left h hw.le, fun h ↦ mul_neg_of_pos_of_neg h hw⟩

theorem Grown.held_visit (hpos : PositiveRates (tokenGraph std pools))
    (hs : s.Inv (tokenGraph std pools) P start [])
    (h : Grown (tokenGraph std pools) start s.visited s.scores)
    (hvisit : Search.Visit (tokenGraph std pools) s s' v d) (hstart : start ∈ s'.visited)
    {f : Arc TokenAccount EdgeWeight} (hf : f ∈ (tokenGraph std pools).edges)
    (hfs : f.source = start) : s'.scores.get f.target = some (default + f.weight) := by
  have hneg : ∀ e ∈ (tokenGraph std pools).edges, e.weight.estimatedRate < 0 := fun e he ↦
    neg_pos.1 (hpos e he)
  have hnext : (default + f.weight).estimatedRate < 0 := (add_neg_iff (hneg f hf)).2 one_pos
  by_cases hold : start ∈ s.visited
  · have hget := h.held hold f hf hfs
    by_cases hmem : f.target ∈ v :: s.visited
    · rw [hvisit.kept hmem, hget]
    obtain ⟨new, hnew, hle⟩ := hvisit.smaller hget
    rw [hnew]
    obtain hsame | ⟨e, he, -, -, rfl⟩ := hvisit.cases hnew
    · rw [← hsame, hget]
    · have hleast := hvisit.least (not_or.1 (mt List.mem_cons.2 hmem)).2 hget
      rw [EdgeWeight.lt_iff, not_lt] at hle hleast
      have hd := (add_neg_iff (hneg e he)).1 (hle.trans_lt hnext)
      exact absurd (hleast.trans_lt hnext) hd.not_gt
  · have hnil : s.visited = [] := by
      by_contra hne
      exact hold (hs.start_visited hne)
    rw [hvisit.visited, hnil, List.mem_singleton] at hstart
    subst hstart
    obtain rfl := Option.some.inj (hvisit.score.symm.trans hs.start_score)
    obtain ⟨new, hnew, -⟩ := hvisit.relaxed f hf hfs (hnil ▸ List.not_mem_nil)
    obtain hsame | ⟨e, he, hes, het, rfl⟩ := hvisit.cases hnew
    · obtain ⟨e, -, -, hvis, -⟩ := hs.came_from hsame fun h ↦ loopless hf (hfs.trans h.symm)
      rw [hnil] at hvis
      cases hvis
    · rw [hnew, arc_unique hf he (hes.trans hfs.symm) het]

theorem SimplePath.snoc {graph : Digraph TokenAccount EdgeWeight}
    {route : List (Arc TokenAccount EdgeWeight)} {e : Arc TokenAccount EdgeWeight}
    {visited : List TokenAccount} (h : SimplePath graph start route e.source)
    (honce : LeavesOnce graph start route) (hvisited : ∀ f ∈ route, f.source ∈ visited)
    (he : e ∈ graph.edges) (hnew : e.target ∉ e.source :: visited) (hstart : e.target ≠ start)
    (hadj : ¬graph.Adj start e.target) :
    SimplePath graph start (route ++ [e]) e.target ∧ LeavesOnce graph start (route ++ [e]) := by
  refine ⟨⟨h.isRoute.snoc he, ?_⟩, ?_⟩
  · rw [List.map_append, ← List.cons_append, List.nodup_append]
    refine ⟨h.nodup, List.nodup_singleton _, ?_⟩
    intro t ht t' ht' htt
    rw [List.map_singleton, List.mem_singleton] at ht'
    subst htt ht'
    rcases List.mem_cons.1 ht with ht | ht
    · exact hstart ht
    · obtain ⟨f, hf, hft⟩ := List.mem_map.1 ht
      rcases h.isRoute.target_mem f hf with hend | ⟨f', hf', hlink⟩
      · exact hnew (hft ▸ hend ▸ List.mem_cons_self)
      · exact hnew (List.mem_cons_of_mem _ (hft ▸ hlink ▸ hvisited f' hf'))
  · cases route with
    | nil =>
      intro f hf
      cases hf
    | cons g route =>
      intro f hf
      rcases List.mem_append.1 hf with hf | hf
      · exact honce f hf
      · rw [List.mem_singleton.1 hf]
        exact hadj

theorem Grown.visit (hpos : PositiveRates (tokenGraph std pools))
    (hs : s.Inv (tokenGraph std pools) P start [])
    (h : Grown (tokenGraph std pools) start s.visited s.scores)
    (hvisit : Search.Visit (tokenGraph std pools) s s' v d) :
    Grown (tokenGraph std pools) start s'.visited s'.scores := by
  have hmono : ∀ {t}, t ∈ s.visited → t ∈ s'.visited := fun ht ↦
    hvisit.visited ▸ List.mem_cons_of_mem v ht
  have hv : v ∈ s'.visited := hvisit.visited ▸ List.mem_cons_self
  have hstart : start ∈ s'.visited := by
    by_cases hvs : v = start
    · exact hvs ▸ hv
    · exact hmono (hvisit.start_mem hs hvs)
  refine ⟨fun _ f hf hfs ↦ h.held_visit hpos hs hvisit hstart hf hfs, fun {u du} hdu hne ↦ ?_⟩
  by_cases hold : s.scores.get u = some du
  · obtain ⟨route, hpath, honce, hvisited, hcost⟩ := h.tree hold hne
    exact ⟨route, hpath, honce, fun e he ↦ hmono (hvisited e he), hcost⟩
  by_cases hadj : (tokenGraph std pools).Adj start u
  · obtain ⟨f, hf, hfs, rfl⟩ := hadj
    have hget := h.held_visit hpos hs hvisit hstart hf hfs
    obtain rfl := Option.some.inj (hdu.symm.trans hget)
    refine ⟨[f], ⟨⟨hf, hfs, rfl⟩, ?_⟩, nofun, ?_, rfl⟩
    · simpa using hne.symm
    · simpa [hfs] using hstart
  · obtain ⟨e, he, rfl, rfl, rfl⟩ := (hvisit.cases hdu).resolve_left hold
    have hes : e.source ≠ start := fun hes ↦ hadj ⟨e, he, hes, rfl⟩
    have hnew : e.target ∉ e.source :: s.visited := fun hmem ↦
      hold ((hvisit.kept hmem).symm.trans hdu)
    obtain ⟨route, hpath, honce, hvisited, rfl⟩ := h.tree hvisit.score hes
    obtain ⟨hpath', honce'⟩ := hpath.snoc honce hvisited he hnew hne hadj
    refine ⟨route ++ [e], hpath', honce', ?_, costFrom_snoc _ _ _⟩
    intro f hf
    rcases List.mem_append.1 hf with hf | hf
    · exact hmono (hvisited f hf)
    · rwa [List.mem_singleton.1 hf]

/-- Paths that leave the neighbours of the start at once reach the goal in two hops. -/
def TwoHops (graph : Digraph TokenAccount EdgeWeight) (start goal : TokenAccount) : Prop :=
  ∀ route, SimplePath graph start route goal → LeavesOnce graph start route → route.length ≤ 2

theorem Grown.goal_pos (hpos : PositiveRates (tokenGraph std pools)) {visited : List TokenAccount}
    {scores : SortedMap TokenAccount EdgeWeight}
    (h : Grown (tokenGraph std pools) start visited scores)
    (htwo : TwoHops (tokenGraph std pools) start goal)
    (hadj : ¬(tokenGraph std pools).Adj start goal) (hne : goal ≠ start)
    (hd : scores.get goal = some d) : 0 < d.estimatedRate := by
  obtain ⟨route, hpath, honce, -, rfl⟩ := h.tree hd hne
  have hlength := htwo route hpath honce
  match route, hlength with
  | [], _ => exact absurd hpath.isRoute.symm hne
  | [e], _ =>
    obtain ⟨he, hes, het⟩ := hpath.isRoute
    exact absurd ⟨e, he, hes, het⟩ hadj
  | [e, f], _ =>
    obtain ⟨he, -, hf, -⟩ := hpath.isRoute
    have hneg := neg_pos.1 (hpos e he)
    have hneg' := neg_pos.1 (hpos f hf)
    change 0 < 1 * e.weight.estimatedRate * f.weight.estimatedRate
    rw [one_mul]
    exact mul_pos_of_neg_of_neg hneg hneg'

/-- The neighbours of the start are visited before the goal and have offered it their score. -/
structure Late (graph : Digraph TokenAccount EdgeWeight) (start goal : TokenAccount)
    (visited : List TokenAccount) (scores : SortedMap TokenAccount EdgeWeight) : Prop where
  early : goal ∈ visited → ∀ e ∈ graph.edges, e.target = goal → graph.Adj start e.source →
    e.source ∈ visited
  relaxed : ∀ e ∈ graph.edges, e.target = goal → graph.Adj start e.source →
    e.source ∈ visited → ∀ {d}, scores.get e.source = some d →
      ∃ d', scores.get goal = some d' ∧ ¬d + e.weight < d'

theorem Late.visit (hpos : PositiveRates (tokenGraph std pools))
    (hP : Scoring (tokenGraph std pools) P) (htwo : TwoHops (tokenGraph std pools) start goal)
    (hadj : ¬(tokenGraph std pools).Adj start goal) (hne : goal ≠ start)
    (hs : s.Inv (tokenGraph std pools) P start [])
    (hgrown : Grown (tokenGraph std pools) start s.visited s.scores)
    (h : Late (tokenGraph std pools) start goal s.visited s.scores)
    (hvisit : Search.Visit (tokenGraph std pools) s s' v d) :
    Late (tokenGraph std pools) start goal s'.visited s'.scores := by
  constructor
  · rw [hvisit.visited]
    intro hgoal e he het hsource
    rcases List.mem_cons.1 hgoal with rfl | hgoal
    · -- the goal comes off the queue with a positive score, so no negative one is left
      by_contra hnot
      obtain ⟨f, hf, hfs, hft⟩ := hsource
      have hget := hgrown.held (hvisit.start_mem hs hne) f hf hfs
      have hleast := hvisit.least (fun hmem ↦ hnot (List.mem_cons_of_mem _ (hft ▸ hmem))) hget
      rw [EdgeWeight.lt_iff, not_lt] at hleast
      have hneg := (add_neg_iff (d := default) (neg_pos.1 (hpos f hf))).2 one_pos
      have hgoal := hgrown.goal_pos hpos htwo hadj hne hvisit.score
      exact absurd (hgoal.trans_le hleast) hneg.not_gt
    · exact List.mem_cons_of_mem v (h.early hgoal e he het hsource)
  · rw [hvisit.visited]
    intro e he het hsource hmem ds hds
    rw [hvisit.kept hmem] at hds
    rcases List.mem_cons.1 hmem with hev | hmem
    · have hfresh : goal ∉ s.visited := fun hgoal ↦
        hvisit.fresh (hev ▸ h.early hgoal e he het hsource)
      obtain rfl := Option.some.inj (hvisit.score.symm.trans (hev ▸ hds))
      exact het ▸ hvisit.relaxed e he hev (het ▸ hfresh)
    · obtain ⟨mid, hmid, hle⟩ := h.relaxed e he het hsource hmem hds
      obtain ⟨new, hnew, hle'⟩ := hvisit.smaller hmid
      exact ⟨new, hnew, hP.not_lt_trans hle' hle⟩

end Grown

section Scores

theorem grown_init (graph : Digraph TokenAccount EdgeWeight) (start : TokenAccount) :
    Grown graph start [] (SortedMap.empty.insert start default) := by
  refine ⟨nofun, fun {u d} hd hne ↦ ?_⟩
  rw [SortedMap.get_insert_of_ne hne] at hd
  cases hd

/-- The score of a token is, up to its sign, the rate of a path that is with the neighbours of the
start only once. -/
theorem exists_leavesOnce (hpos : PositiveRates (tokenGraph std pools)) {d : EdgeWeight}
    (hd : (dijkstra std (tokenGraph std pools) start none).get goal = some d) (hne : goal ≠ start) :
    ∃ route, SimplePath (tokenGraph std pools) start route goal ∧
      LeavesOnce (tokenGraph std pools) start route ∧
      rate (route.map Arc.weight) = |d.estimatedRate| := by
  obtain ⟨visited, hgrown, -⟩ := dijkstra_exhausts std start
    (J := Grown (tokenGraph std pools) start) (scoring_nonzero hpos)
    (fun _ _ _ _ hs h hvisit ↦ h.visit hpos hs hvisit) (grown_init _ start)
  obtain ⟨route, hpath, honce, -, hcost⟩ := hgrown.tree hd hne
  exact ⟨route, hpath, honce, rate_of_costFrom hpath.isRoute hcost⟩

theorem le_rate_of_twoHops (hpos : PositiveRates (tokenGraph std pools)) {d : EdgeWeight}
    (hd : (dijkstra std (tokenGraph std pools) start none).get goal = some d)
    (htwo : TwoHops (tokenGraph std pools) start goal) (hne : goal ≠ start)
    {route : List (Arc TokenAccount EdgeWeight)}
    (hpath : SimplePath (tokenGraph std pools) start route goal)
    (honce : LeavesOnce (tokenGraph std pools) start route) :
    |d.estimatedRate| ≤ rate (route.map Arc.weight) := by
  have hscore : ∀ {e : Arc TokenAccount EdgeWeight}, e ∈ (tokenGraph std pools).edges →
      e.source = start → (dijkstra std (tokenGraph std pools) start none).get e.target =
        some ⟨none, e.weight.estimatedRate⟩ := fun he hes ↦
    get_of_arc he hes (neg_pos.1 (hpos _ he)).ne (Option.some_ne_none start).symm
  have hlength := htwo route hpath honce
  match route, hlength with
  | [], _ => exact absurd hpath.isRoute.symm hne
  | [e], _ =>
    obtain ⟨he, hes, rfl⟩ := hpath.isRoute
    obtain rfl := Option.some.inj ((hscore he hes).symm.trans hd)
    rw [abs_of_neg (neg_pos.1 (hpos e he))]
    exact (mul_one _).ge
  | [e, f], _ =>
    obtain ⟨he, hes, hf, hfs, rfl⟩ := hpath.isRoute
    have hadj : ¬(tokenGraph std pools).Adj start f.target := honce f (by simp)
    obtain ⟨visited, ⟨hgrown, hlate⟩, hall⟩ := dijkstra_exhausts std start
      (J := fun visited scores ↦ Grown (tokenGraph std pools) start visited scores ∧
        Late (tokenGraph std pools) start f.target visited scores) (scoring_nonzero hpos)
      (fun _ _ _ _ hs h hvisit ↦ ⟨h.1.visit hpos hs hvisit,
        h.2.visit hpos (scoring_nonzero hpos) htwo hadj hne hs h.1 hvisit⟩)
      ⟨grown_init _ start, nofun, nofun⟩
    have hsource := hfs ▸ hscore he hes
    obtain ⟨d', hd', hle⟩ := hlate.relaxed f hf rfl ⟨e, he, hes, hfs.symm⟩ (hall hsource) hsource
    obtain rfl := Option.some.inj (hd.symm.trans hd')
    rw [abs_of_pos (hgrown.goal_pos hpos htwo hadj hne hd)]
    rw [EdgeWeight.lt_iff, not_lt, EdgeWeight.add_eq] at hle
    refine hle.trans_eq ?_
    change e.weight.estimatedRate * f.weight.estimatedRate =
      -e.weight.estimatedRate * (-f.weight.estimatedRate * 1)
    ring

end Scores

section Fresh

variable {fuel : ℕ} {r : Except (Failure TokenAccount) (List TokenAccount)} {tokens : TokenGraph}

theorem rate_of_getEdges (hpos : PositiveRates (tokenGraph std pools))
    (hupdate : (new std pools).updateGraph std fuel start = some (r, tokens))
    {edges : List EdgeWeight} (hedges : tokens.graph.getEdges start goal = .ok edges) :
    goal ≠ start ∧ ∃ d, (dijkstra std (tokenGraph std pools) start none).get goal = some d ∧
      rate edges = |d.estimatedRate| := by
  obtain ⟨m, q, hm, hq, -⟩ := CachedPath.cached_of_getEdges hedges
  obtain ⟨-, hgraph, hcached⟩ := cached_of_updateGraph hupdate
  obtain ⟨outs, hsearch⟩ := hcached hm
  have hfound := CachedPath.found_search hsearch
  obtain ⟨u, hu⟩ := hfound.mem_keys.1 (SortedMap.mem_keys_of_get hq)
  obtain ⟨d, hd⟩ := SortedMap.exists_get (GraphPath.findPrev_some hu).1
  have hne : goal ≠ start := by
    intro hgoal
    rw [hgoal, start_no_prev hsearch] at hu
    cases hu
  have hprev : ∀ v ∈ (dijkstra std (tokenGraph std pools) start none).keys, v ≠ start →
      GraphPath.findPrev (tokenGraph std pools)
        (dijkstra std (tokenGraph std pools) start none) v ≠ none := fun v hv hvs ↦
    Option.ne_none_iff_exists'.2 (exists_prev hpos hv hvs)
  obtain ⟨route, hroute, htargets, hcost⟩ := (hfound.get.1 hq).route
    (labels std pools start none).start_score hprev hd
  have hwalk := CachedPath.getEdges_of_isRoute (hgraph ▸ simple std pools) hm hq
    (hgraph ▸ hroute) htargets
  obtain rfl := Except.ok.inj (hedges.symm.trans hwalk)
  exact ⟨hne, d, hd, rate_of_costFrom hroute hcost⟩

end Fresh

/-- With positive rates, the path from the start to a goal has the best rate of all simple paths if
those that are with the neighbours of the start only once have it. If these take two hops at most,
only then. -/
theorem getPath_bestRate (std : Containers) (fuel : ℕ) (pools : PoolInfoList)
    (start goal : TokenAccount) (hpos : PositiveRates (tokenGraph std pools))
    (r : Except (Failure TokenAccount) (List TokenAccount)) (tokens : TokenGraph)
    (hupdate : (new std pools).updateGraph std fuel start = some (r, tokens)) (path : TokenPath)
    (hpath : tokens.getPath start goal = some (.ok path)) :
    ∃ edges, tokens.graph.getEdges start goal = .ok edges ∧
      pairsOf tokens.pools edges = some (.ok path) ∧
      (Unbeaten (tokenGraph std pools) start goal →
        BestRate (tokenGraph std pools) start goal edges) ∧
      (TwoHops (tokenGraph std pools) start goal →
        BestRate (tokenGraph std pools) start goal edges →
        Unbeaten (tokenGraph std pools) start goal) := by
  obtain ⟨edges, hedges, hpairs⟩ := edges_of_getPath hpath
  obtain ⟨hne, d, hd, hrate⟩ := rate_of_getEdges hpos hupdate hedges
  refine ⟨edges, hedges, hpairs, fun hunbeaten ↦ ?_, fun htwo hbest ↦ ?_⟩
  · obtain ⟨route, hroute, honce, hsame⟩ := exists_leavesOnce hpos hd hne
    intro other hother
    rw [hrate, ← hsame]
    exact hunbeaten route hroute honce other hother
  · intro route hroute honce other hother
    have hle := hbest other hother
    rw [hrate] at hle
    exact hle.trans (le_rate_of_twoHops hpos hd htwo hne hroute honce)

theorem SimplePath.length_lt {graph : Digraph TokenAccount EdgeWeight}
    (h : SimplePath graph start route goal) {tokens : List TokenAccount} (hstart : start ∈ tokens)
    (htokens : ∀ e ∈ graph.edges, e.target ∈ tokens) : route.length < tokens.length := by
  have hsubset : start :: route.map Arc.target ⊆ tokens := by
    refine List.cons_subset.2 ⟨hstart, fun v hv ↦ ?_⟩
    obtain ⟨e, he, rfl⟩ := List.mem_map.1 hv
    exact htokens e (h.isRoute.mem e he)
  have hlength := (h.nodup.subperm hsubset).length_le
  rw [List.length_cons, List.length_map] at hlength
  exact hlength

def trianglePools : PoolInfoList :=
  .new [twoTokenPool 0 ⟨"a"⟩ ⟨"b"⟩ 1000 1000, twoTokenPool 1 ⟨"b"⟩ ⟨"c"⟩ 1000 1000,
    twoTokenPool 2 ⟨"a"⟩ ⟨"c"⟩ 1000 900]

theorem getPath_bestRate_triangle : ∃ tokens path edges,
    (new .lists trianglePools).updateGraph .lists 4 ⟨"a"⟩ = some (.ok [⟨"b"⟩, ⟨"c"⟩], tokens) ∧
      tokens.getPath ⟨"a"⟩ ⟨"c"⟩ = some (.ok path) ∧
      tokens.graph.getEdges ⟨"a"⟩ ⟨"c"⟩ = .ok edges ∧
      BestRate (tokenGraph .lists trianglePools) ⟨"a"⟩ ⟨"c"⟩ edges ∧
      ∃ other, SimplePath (tokenGraph .lists trianglePools) ⟨"a"⟩ other ⟨"c"⟩ ∧
        other.length = 2 ∧ rate (other.map Arc.weight) < rate edges := by
  have hrun : ((new .lists trianglePools).updateGraph .lists 4 ⟨"a"⟩).map
      (fun r ↦ (r.1, r.2.getPath ⟨"a"⟩ ⟨"c"⟩)) = some (.ok [⟨"b"⟩, ⟨"c"⟩],
        some (.ok [⟨twoTokenPool 2 ⟨"a"⟩ ⟨"c"⟩ 1000 900, 0, 1⟩])) := by decide +kernel
  have hwalk : ((new .lists trianglePools).updateGraph .lists 4 ⟨"a"⟩).map
      (fun r ↦ r.2.graph.getEdges ⟨"a"⟩ ⟨"c"⟩) = some (.ok [⟨some ⟨2, 0, 1⟩, -299 / 500⟩]) := by
    decide +kernel
  obtain ⟨⟨r, tokens⟩, hupdate, heq⟩ := Option.map_eq_some_iff.1 hrun
  obtain ⟨rfl, hpath⟩ := Prod.mk.inj heq
  rw [hupdate] at hwalk
  have hpos : PositiveRates (tokenGraph .lists trianglePools) := by decide +kernel
  obtain ⟨edges, hedges, -, hbest, -⟩ :=
    getPath_bestRate .lists 4 trianglePools ⟨"a"⟩ ⟨"c"⟩ hpos _ tokens hupdate _ hpath
  obtain rfl := Except.ok.inj (hedges.symm.trans (Option.some.inj hwalk))
  have hadj := Digraph.adj_of_mem (show (⟨⟨"a"⟩, ⟨"c"⟩, ⟨some ⟨2, 0, 1⟩, -299 / 500⟩⟩ :
    Arc TokenAccount EdgeWeight) ∈ (tokenGraph .lists trianglePools).edges by decide +kernel)
  have hdirect : ∀ e ∈ (tokenGraph .lists trianglePools).edges, e.source = ⟨"a"⟩ →
      e.target = ⟨"c"⟩ → rate [e.weight] = 299 / 500 := by decide +kernel
  have hdetour : ∀ e ∈ (tokenGraph .lists trianglePools).edges, e.source = ⟨"a"⟩ →
      ∀ f ∈ (tokenGraph .lists trianglePools).edges, f.source = e.target → f.target = ⟨"c"⟩ →
      rate [e.weight, f.weight] ≤ 299 / 500 := by decide +kernel
  have hcases (route) (h : SimplePath (tokenGraph .lists trianglePools) ⟨"a"⟩ route ⟨"c"⟩) :
      rate (route.map Arc.weight) = 299 / 500 ∨
        rate (route.map Arc.weight) ≤ 299 / 500 ∧ ∃ f ∈ route.tail, f.target = ⟨"c"⟩ := by
    have hlength : route.length < [(⟨"a"⟩ : TokenAccount), ⟨"b"⟩, ⟨"c"⟩].length :=
      h.length_lt (by decide) (by decide +kernel)
    match route, hlength with
    | [], _ =>
      have hsame : (⟨"a"⟩ : TokenAccount) = ⟨"c"⟩ := h.isRoute
      exact absurd hsame (by decide)
    | [e], _ =>
      obtain ⟨he, hes, het⟩ := h.isRoute
      exact .inl (hdirect e he hes het)
    | [e, f], _ =>
      obtain ⟨he, hes, hf, hfs, hft⟩ := h.isRoute
      exact .inr ⟨hdetour e he hes f hf hfs hft, f, List.mem_singleton_self f, hft⟩
  refine ⟨tokens, _, _, hupdate, hpath, hedges, hbest fun route hroute honce other hother ↦ ?_,
    [⟨⟨"a"⟩, ⟨"b"⟩, ⟨some ⟨0, 0, 1⟩, -83 / 125⟩⟩, ⟨⟨"b"⟩, ⟨"c"⟩, ⟨some ⟨1, 0, 1⟩, -83 / 125⟩⟩],
    ⟨⟨by decide +kernel, rfl, by decide +kernel, rfl, rfl⟩, by decide⟩, rfl, by decide +kernel⟩
  obtain heq | ⟨-, f, hf, hft⟩ := hcases route hroute
  · rw [heq]
    exact (hcases other hother).elim Eq.le And.left
  · exact absurd (hft ▸ hadj) (honce f hf)

def detourPools : PoolInfoList :=
  .new [twoTokenPool 0 ⟨"a"⟩ ⟨"b"⟩ 1000 1000, twoTokenPool 1 ⟨"b"⟩ ⟨"c"⟩ 1000 1000,
    twoTokenPool 2 ⟨"a"⟩ ⟨"c"⟩ 1000 100]

/-- The edge from `a` to `c` yields 0.066 and the way through `b` 0.44, but it is taken. -/
theorem getPath_misses_detour : PositiveRates (tokenGraph .lists detourPools) ∧
    ∃ tokens path edges,
      (new .lists detourPools).updateGraph .lists 4 ⟨"a"⟩ = some (.ok [⟨"b"⟩, ⟨"c"⟩], tokens) ∧
      tokens.getPath ⟨"a"⟩ ⟨"c"⟩ = some (.ok path) ∧
      tokens.graph.getEdges ⟨"a"⟩ ⟨"c"⟩ = .ok edges ∧ rate edges = 33 / 500 ∧
      ∃ other, SimplePath (tokenGraph .lists detourPools) ⟨"a"⟩ other ⟨"c"⟩ ∧
        rate (other.map Arc.weight) = (83 / 125) ^ 2 := by
  refine ⟨by decide +kernel, ?_⟩
  have hrun : ((new .lists detourPools).updateGraph .lists 4 ⟨"a"⟩).map
      (fun r ↦ (r.1, r.2.getPath ⟨"a"⟩ ⟨"c"⟩)) = some (.ok [⟨"b"⟩, ⟨"c"⟩],
        some (.ok [⟨twoTokenPool 2 ⟨"a"⟩ ⟨"c"⟩ 1000 100, 0, 1⟩])) := by decide +kernel
  have hrate : ((new .lists detourPools).updateGraph .lists 4 ⟨"a"⟩).map
      (fun r ↦ r.2.graph.getEdges ⟨"a"⟩ ⟨"c"⟩) = some (.ok [⟨some ⟨2, 0, 1⟩, -33 / 500⟩]) := by
    decide +kernel
  obtain ⟨⟨r, tokens⟩, hupdate, heq⟩ := Option.map_eq_some_iff.1 hrun
  obtain ⟨rfl, hpath⟩ := Prod.mk.inj heq
  rw [hupdate] at hrate
  refine ⟨tokens, _, _, hupdate, hpath, Option.some.inj hrate, by decide +kernel,
    [⟨⟨"a"⟩, ⟨"b"⟩, ⟨some ⟨0, 0, 1⟩, -83 / 125⟩⟩, ⟨⟨"b"⟩, ⟨"c"⟩, ⟨some ⟨1, 0, 1⟩, -83 / 125⟩⟩],
    ⟨⟨by decide +kernel, rfl, by decide +kernel, rfl, rfl⟩, by decide⟩, by decide +kernel⟩

end Zaciraci.Path.TokenGraph
