import Zaciraci.Lib.ShortestPath
import Zaciraci.Path.Termination

namespace Zaciraci.Path

open Zaciraci.Lib

structure Simple {N E : Type} (graph : Digraph N E) : Prop where
  nodes : ∀ e ∈ graph.edges, e.source ∈ graph.nodes ∧ e.target ∈ graph.nodes
  loopless : ∀ e ∈ graph.edges, e.source ≠ e.target
  unique : ∀ e ∈ graph.edges, ∀ f ∈ graph.edges, f.source = e.source → f.target = e.target → f = e

structure Weighted {N : Type} (graph : Digraph N ℤ) : Prop extends Simple graph where
  pos : ∀ e ∈ graph.edges, 0 < e.weight

section Routes

variable {N E : Type} [LinearOrder N]

theorem GraphPath.Chain.route [DecidableEq E] [Add E] [Inhabited E] {graph : Digraph N E}
    {goals : SortedMap N E} {start v : N} {l : List N} (h : GraphPath.Chain graph goals v l)
    (hstart : goals.get start = some default)
    (hprev : ∀ u ∈ goals.keys, u ≠ start → GraphPath.findPrev graph goals u ≠ none) {d : E}
    (hd : goals.get v = some d) :
    ∃ route, graph.IsRoute start route v ∧ route.map Arc.target = l.reverse ∧
      costFrom default route = d := by
  induction h generalizing d with
  | @stop v hnone =>
    obtain rfl : v = start := by
      by_contra hne
      exact hprev v (SortedMap.mem_keys_of_get hd) hne hnone
    obtain rfl := Option.some.inj (hd.symm.trans hstart)
    exact ⟨[], rfl, rfl, rfl⟩
  | @next v u l hu _ ih =>
    obtain ⟨e, he, rfl, rfl, sd, hsd, hd', -⟩ := GraphPath.Precedes.tight hu
    obtain rfl := Option.some.inj (hd'.symm.trans hd)
    obtain ⟨route, hroute, htargets, hcost⟩ := ih hsd
    refine ⟨route ++ [e], hroute.snoc he, ?_, ?_⟩
    · rw [List.map_append, htargets, List.reverse_cons]
      rfl
    · rw [costFrom_snoc, hcost]

namespace CachedPath

variable [ToString N] {cache : CachedPath N E}

theorem getWeight_of_mem (hg : Simple cache.graph) {e : Arc N E} (he : e ∈ cache.graph.edges) :
    cache.getWeight e.source e.target = .ok e.weight := by
  have hfind : cache.graph.findEdge e.source e.target = some e := by
    have hout := Digraph.mem_outgoing.2 ⟨he, rfl⟩
    obtain ⟨f, hf⟩ : ∃ f, cache.graph.findEdge e.source e.target = some f := by
      rw [← Option.isSome_iff_exists, Digraph.findEdge, List.find?_isSome]
      exact ⟨e, hout, decide_eq_true rfl⟩
    have hf' : (cache.graph.outgoing e.source).find? (·.target = e.target) = some f := hf
    obtain ⟨hmem, hsource⟩ := Digraph.mem_outgoing.1 (List.mem_of_find?_eq_some hf')
    have htarget := List.find?_some hf'
    rw [hf, hg.unique e he f hmem hsource (of_decide_eq_true htarget)]
  obtain ⟨hsource, htarget⟩ := hg.nodes e he
  refine except_bind_eq_ok.2 ⟨_, nodeIndex_of_mem hsource, ?_⟩
  refine except_bind_eq_ok.2 ⟨_, nodeIndex_of_mem htarget, ?_⟩
  rw [hfind]
  rfl

theorem walk_of_isRoute (hg : Simple cache.graph) {q : List N} {a goal : N}
    {route : List (Arc N E)} (hroute : cache.graph.IsRoute a route goal)
    (htargets : route.map Arc.target = q ++ [goal]) :
    cache.walk goal a q = .ok (route.map Arc.weight) := by
  induction q generalizing a route with
  | nil =>
    obtain ⟨e, rfl, rfl⟩ := List.map_eq_singleton_iff.1 htargets
    obtain ⟨he, rfl, -⟩ := hroute
    rw [walk, getWeight_of_mem hg he]
    rfl
  | cons token q ih =>
    obtain ⟨e, rest, rfl, rfl, hrest⟩ := List.map_eq_cons_iff.1 htargets
    obtain ⟨he, rfl, hroute⟩ := hroute
    rw [walk, getWeight_of_mem hg he]
    change (do let edges ← cache.walk goal e.target q; pure (e.weight :: edges)) = _
    rw [ih hroute hrest]
    rfl

theorem getEdges_of_isRoute (hg : Simple cache.graph) {start goal : N} {m : PathToOut N}
    {q : List N} (hget : cache.cachedPath.get start = some m) (hq : m.get goal = some q)
    {route : List (Arc N E)} (hroute : cache.graph.IsRoute start route goal)
    (htargets : route.map Arc.target = (goal :: q.reverse).reverse) :
    cache.getEdges start goal = .ok (route.map Arc.weight) := by
  rw [List.reverse_cons, List.reverse_reverse] at htargets
  rw [getEdges, getPath, hget]
  dsimp only
  rw [hq]
  exact walk_of_isRoute hg hroute htargets

end CachedPath

end Routes

variable {N : Type} [LinearOrder N] {graph : Digraph N ℤ} {std : Containers} {start : N}

namespace Weighted

omit [LinearOrder N] in
theorem growing (hg : Weighted graph) : Growing graph fun d : ℤ ↦ 0 ≤ d where
  start := le_rfl
  add hd he := add_nonneg hd (hg.pos _ he).le
  eq_of_not_lt _ _ h h' := by omega
  asymm h := by omega
  split b h := by omega
  loopless := hg.loopless
  grows _ he := by
    have hpos := hg.pos _ he
    omega
  mono h _ := by omega

theorem labels (hg : Weighted graph) (std : Containers) (start : N) :
    Labels graph (fun d : ℤ ↦ 0 ≤ d) start (dijkstra std graph start none) :=
  (dijkstra_run std hg.growing.toScoring start none).1

theorem findPrev_start (hg : Weighted graph) (std : Containers) (start : N) :
    GraphPath.findPrev graph (dijkstra std graph start none) start = none := by
  by_contra hsome
  obtain ⟨u, hu⟩ := Option.ne_none_iff_exists'.1 hsome
  obtain ⟨e, he, -, -, sd, hsd, hd, -⟩ := GraphPath.Precedes.tight hu
  have hzero := Option.some.inj (hd.symm.trans (hg.labels std start).start_score)
  have hnonneg := (hg.labels std start).valid hsd
  have hpos := hg.pos e he
  change sd + e.weight = 0 at hzero
  omega

theorem findPrev_ne_none (hg : Weighted graph) {v : N}
    (hv : v ∈ (dijkstra std graph start none).keys) (hne : v ≠ start) :
    GraphPath.findPrev graph (dijkstra std graph start none) v ≠ none := by
  obtain ⟨d, hd⟩ := SortedMap.exists_get hv
  obtain ⟨e, he, rfl, sd, hsd, rfl⟩ := (hg.labels std start).came_from hd hne
  intro hnone
  rw [GraphPath.findPrev, hd, Option.bind_some, List.findSome?_eq_none_iff] at hnone
  have hedge := hnone e (Digraph.mem_incoming.2 ⟨he, rfl⟩)
  have hpos := hg.pos e he
  rw [hsd, Option.bind_some, if_pos ⟨rfl, by omega⟩] at hedge
  cases hedge

/-- Scores get smaller towards the start, so every chain of predecessors ends. -/
theorem exists_chain (hg : Weighted graph) {v : N} {d : ℤ}
    (hd : (dijkstra std graph start none).get v = some d) :
    ∃ l, GraphPath.Chain graph (dijkstra std graph start none) v l := by
  induction hn : d.toNat using Nat.strong_induction_on generalizing v d with
  | _ n ih =>
    cases hprev : GraphPath.findPrev graph (dijkstra std graph start none) v with
    | none => exact ⟨[], .stop hprev⟩
    | some u =>
      obtain ⟨e, he, rfl, rfl, sd, hsd, hd', -⟩ := GraphPath.Precedes.tight hprev
      have hsum := Option.some.inj (hd.symm.trans hd')
      have hpos := hg.pos e he
      have hnonneg := (hg.labels std start).valid hsd
      obtain ⟨l, hl⟩ := ih sd.toNat (by omega) hsd rfl
      exact ⟨e.target :: l, .next hprev hl⟩

end Weighted

omit [LinearOrder N] in
theorem costFrom_eq (d : ℤ) (route : List (Arc N ℤ)) :
    costFrom d route = d + (route.map Arc.weight).sum := by
  induction route generalizing d with
  | nil => exact (add_zero d).symm
  | cons e route ih =>
    rw [costFrom, List.foldl_cons, ← costFrom, ih, List.map_cons, List.sum_cons, add_assoc]

namespace CachedPath

section History

variable {E : Type} [DecidableEq E] [Add E] [Inhabited E] [LT E] [DecidableLT E] [ToString N]

def Calls (std : Containers) (start : N) (cache cache' : CachedPath N E) : Prop :=
  ∃ fuel s goal r, (s = start → goal = none) ∧
    cache.updatePath std fuel s goal = some (r, cache')

structure FullSearch (std : Containers) (start : N) (graph : Digraph N E)
    (cache : CachedPath N E) : Prop where
  graph_eq : cache.graph = graph
  entry : ∀ {m}, cache.cachedPath.get start = some m →
    ∃ fuel outs, search std fuel graph start none = some (m, outs)

theorem FullSearch.calls {graph : Digraph N E} {cache cache' : CachedPath N E}
    (h : FullSearch std start graph cache) (hcall : Calls std start cache cache') :
    FullSearch std start graph cache' := by
  obtain ⟨fuel, s, goal, r, hgoal, hcall⟩ := hcall
  have hcompute : cache.computePath std fuel s goal = some (r, cache') →
      FullSearch std start graph cache' := by
    intro hcompute
    rw [computePath] at hcompute
    split at hcompute
    · obtain ⟨-, rfl⟩ := Prod.mk.inj (Option.some.inj hcompute)
      exact h
    · next s goal hresolve =>
      obtain ⟨rfl, rfl⟩ := resolve_eq_ok hresolve
      obtain ⟨⟨m, outs⟩, hsearch, hstore⟩ := Option.bind_eq_some_iff.1 hcompute
      obtain ⟨-, rfl⟩ := Prod.mk.inj (Option.some.inj hstore)
      refine ⟨(store_graph _ _).trans h.graph_eq, fun {m'} hget ↦ ?_⟩
      by_cases hs : start = s
      · subst hs
        obtain rfl := hgoal rfl
        rw [store] at hget
        split_ifs at hget
        · exact h.entry hget
        · obtain rfl := Option.some.inj ((SortedMap.get_insert_self _ _ _).symm.trans hget)
          exact ⟨fuel, outs, h.graph_eq ▸ hsearch⟩
      · exact h.entry ((get_store_of_ne hs m).symm.trans hget)
  unfold updatePath at hcall
  split at hcall
  · obtain ⟨-, rfl⟩ := Prod.mk.inj (Option.some.inj hcall)
    exact h
  · exact hcompute hcall

theorem fullSearch_of_calls {graph : Digraph N E} {cache : CachedPath N E}
    (h : Relation.ReflTransGen (Calls std start) (new graph) cache) :
    FullSearch std start graph cache := by
  induction h with
  | refl => exact ⟨rfl, nofun⟩
  | tail _ hcall ih => exact ih.calls hcall

end History

variable [ToString N]

theorem found_shortest (hg : Weighted graph) {m : PathToOut N} {outs : List N}
    (h : Found graph (dijkstra std graph start none) m outs) :
    (∀ v, v ∈ m.keys ↔ v ≠ start ∧ graph.Reaches start v) ∧
      ∀ cache : CachedPath N ℤ, cache.graph = graph → cache.cachedPath.get start = some m →
        ∀ goal ∈ m.keys, ∃ route, graph.IsRoute start route goal ∧
          cache.getEdges start goal = .ok (route.map Arc.weight) ∧
          ∀ other, graph.IsRoute start other goal →
            (route.map Arc.weight).sum ≤ (other.map Arc.weight).sum := by
  constructor
  · intro v
    rw [h.mem_keys]
    constructor
    · intro hprev
      obtain ⟨u, hu⟩ := hprev
      have hreach := (mem_dijkstra_none hg.growing.toScoring).1 (GraphPath.findPrev_some hu).1
      refine ⟨fun hv ↦ ?_, hreach⟩
      rw [hv, hg.findPrev_start std start] at hu
      cases hu
    · intro hv
      rw [← Option.ne_none_iff_exists']
      exact hg.findPrev_ne_none ((mem_dijkstra_none hg.growing.toScoring).2 hv.2) hv.1
  · rintro cache rfl hget goal hgoal
    obtain ⟨q, hq⟩ := SortedMap.exists_get hgoal
    have hchain := h.get.1 hq
    obtain ⟨u, hu⟩ := h.mem_keys.1 hgoal
    obtain ⟨d, hd⟩ := SortedMap.exists_get (GraphPath.findPrev_some hu).1
    obtain ⟨route, hroute, htargets, hcost⟩ := hchain.route (hg.labels std start).start_score
      (fun v hv hne ↦ hg.findPrev_ne_none hv hne) hd
    refine ⟨route, hroute, getEdges_of_isRoute hg.toSimple hget hq hroute htargets, ?_⟩
    · intro other hother
      obtain ⟨d', hd', hle⟩ := dijkstra_least std hg.growing hother
      obtain rfl := Option.some.inj (hd.symm.trans hd')
      rw [← hcost, costFrom_eq, costFrom_eq] at hle
      omega

/-- After calls that leave the paths from `start` to searches without a goal, `update_path` returns
the nodes that can be reached, and the edges to each are those of a shortest route. -/
theorem updatePath_shortest (std : Containers) (graph : Digraph N ℤ) (hg : Weighted graph)
    (start : N) (hstart : start ∈ graph.nodes) (cache : CachedPath N ℤ)
    (hcalls : Relation.ReflTransGen (Calls std start) (new graph) cache) :
    ∃ enough, ∀ fuel ≥ enough, ∃ outs cache',
      cache.updatePath std fuel start none = some (.ok outs, cache') ∧ outs.Nodup ∧
      (∀ v, v ∈ outs ↔ v ≠ start ∧ graph.Reaches start v) ∧
      ∀ goal ∈ outs, ∃ route, graph.IsRoute start route goal ∧
        cache'.getEdges start goal = .ok (route.map Arc.weight) ∧
        ∀ other, graph.IsRoute start other goal →
          (route.map Arc.weight).sum ≤ (other.map Arc.weight).sum := by
  obtain ⟨rfl, hentry⟩ := fullSearch_of_calls hcalls
  cases hget : cache.cachedPath.get start with
  | some m =>
    obtain ⟨fuel, outs, hsearch⟩ := hentry hget
    obtain ⟨hmem, hedges⟩ := found_shortest hg (found_search hsearch)
    refine ⟨0, fun fuel _ ↦ ⟨std.iter m.keys, cache, updatePath_of_get hget, ?_, ?_, ?_⟩⟩
    · exact (std.iter_perm m.keys).nodup_iff.2 m.keys_nodup
    · intro v
      rw [std.mem_iter, hmem]
    · intro goal hgoal
      exact hedges cache rfl hget goal (std.mem_iter.1 hgoal)
  | none =>
    have hchains : ∀ v ∈ (dijkstra std cache.graph start none).keys,
        ∃ l, GraphPath.Chain cache.graph (dijkstra std cache.graph start none) v l := by
      intro v hv
      obtain ⟨d, hd⟩ := SortedMap.exists_get hv
      exact hg.exists_chain hd
    obtain ⟨enough, henough⟩ := GraphPath.findAllPath_returns std hchains
    refine ⟨enough, fun fuel hfuel ↦ ?_⟩
    obtain ⟨ps, hps⟩ := henough fuel hfuel
    obtain ⟨⟨m, outs⟩, hsearch⟩ : ∃ found, search std fuel cache.graph start none = some found := by
      rw [search, hps]
      exact ⟨_, rfl⟩
    have hfound := found_search hsearch
    obtain ⟨hmem, hedges⟩ := found_shortest hg hfound
    refine ⟨outs, cache.store start m, ?_, hfound.nodup, ?_, ?_⟩
    · rw [updatePath_of_not_get hget, computePath_of_mem hstart (fun _ h ↦ by cases h), hsearch]
      rfl
    · intro v
      rw [hfound.mem_outs, hmem]
    · intro goal hgoal
      have hkey := hfound.mem_outs.1 hgoal
      have hne : m.entries ≠ [] := fun hnil ↦ by
        rw [SortedMap.keys, hnil] at hkey
        cases hkey
      refine hedges _ (store_graph start m) ?_ goal hkey
      rw [store, if_neg hne]
      exact SortedMap.get_insert_self _ _ _

def ladder : Digraph String ℤ where
  nodes := ["A", "B", "C", "D", "E", "F"]
  edges := [⟨"A", "B", 1⟩, ⟨"B", "A", 2⟩, ⟨"A", "C", 3⟩, ⟨"C", "A", 2⟩, ⟨"B", "D", 4⟩,
    ⟨"D", "B", 5⟩, ⟨"C", "D", 4⟩, ⟨"D", "C", 3⟩, ⟨"C", "E", 6⟩, ⟨"E", "C", 7⟩, ⟨"D", "F", 8⟩,
    ⟨"F", "D", 9⟩, ⟨"E", "F", 5⟩, ⟨"F", "E", 6⟩]

theorem updatePath_shortest_ladder : ∃ enough, ∀ fuel ≥ enough, ∃ outs cache',
    (new ladder).updatePath .lists fuel "A" none = some (.ok outs, cache') ∧
      ∃ weights, cache'.getEdges "A" "F" = .ok weights ∧ weights.sum ≤ 13 := by
  have hg : Weighted ladder :=
    ⟨⟨by decide +kernel, by decide +kernel, by decide +kernel⟩, by decide +kernel⟩
  have hroute : ladder.IsRoute "A" [⟨"A", "B", 1⟩, ⟨"B", "D", 4⟩, ⟨"D", "F", 8⟩] "F" :=
    ⟨by decide +kernel, rfl, by decide +kernel, rfl, by decide +kernel, rfl, rfl⟩
  have hreach : ladder.Reaches "A" "F" := by
    refine .tail (.tail (.single (b := "B") ?_) (c := "D") ?_) ?_
    · exact Digraph.adj_of_mem (e := ⟨"A", "B", 1⟩) hroute.1
    · exact Digraph.adj_of_mem (e := ⟨"B", "D", 4⟩) hroute.2.2.1
    · exact Digraph.adj_of_mem (e := ⟨"D", "F", 8⟩) hroute.2.2.2.2.1
  obtain ⟨enough, henough⟩ :=
    updatePath_shortest .lists ladder hg "A" (by decide +kernel) _ .refl
  refine ⟨enough, fun fuel hfuel ↦ ?_⟩
  obtain ⟨outs, cache', hcall, -, hmem, hedges⟩ := henough fuel hfuel
  obtain ⟨route, -, hweights, hleast⟩ := hedges "F" ((hmem "F").2 ⟨by decide, hreach⟩)
  exact ⟨outs, cache', hcall, _, hweights, hleast _ hroute⟩

end CachedPath

end Zaciraci.Path
