import Zaciraci.Path.TokenGraph

namespace Zaciraci.Path.TokenGraph

open Zaciraci.Lib Zaciraci.Dex

/-- Every edge yields something for what is put in. A rate is stored with its sign turned. -/
def PositiveRates (graph : Digraph TokenAccount EdgeWeight) : Prop :=
  ∀ e ∈ graph.edges, 0 < -e.weight.estimatedRate

instance (graph : Digraph TokenAccount EdgeWeight) : Decidable (PositiveRates graph) :=
  inferInstanceAs (Decidable (∀ e ∈ graph.edges, 0 < -e.weight.estimatedRate))

variable {std : Containers} {pools : PoolInfoList} {start : TokenAccount}

theorem adj_symm (hpos : PositiveRates (tokenGraph std pools)) (a b : TokenAccount)
    (h : (tokenGraph std pools).Adj a b) : (tokenGraph std pools).Adj b a := by
  obtain ⟨e, he, rfl, rfl⟩ := h
  obtain ⟨pool, edge, ⟨hp, hsimple, ha, hb, hne, hedge⟩, hw⟩ := offers_of_mem he
  have hrate := hpos e he
  rw [hw] at hrate
  obtain ⟨edge', hedge'⟩ := getByIds_reverse hedge (Edge.return_pos hrate)
  exact adj_of_offers ⟨hp, hsimple, hb, ha, hne.symm, hedge'⟩

theorem scoring_nonzero (hpos : PositiveRates (tokenGraph std pools)) :
    Scoring (tokenGraph std pools) fun w ↦ w.pairId = none ∧ w.estimatedRate ≠ 0 := by
  have hmul : ∀ r : ℚ, r ≠ 0 → ∀ e ∈ (tokenGraph std pools).edges,
      r * e.weight.estimatedRate ≠ 0 := by
    intro r hr e he
    have hneg := neg_pos.mp (hpos e he)
    exact mul_ne_zero hr hneg.ne
  exact scoring one_ne_zero hmul

theorem labels (std : Containers) (pools : PoolInfoList) (start : TokenAccount)
    (goal : Option TokenAccount) : Labels (tokenGraph std pools) (fun w ↦ w.pairId = none ∧ True)
      start (dijkstra std (tokenGraph std pools) start goal) :=
  (dijkstra_run std (scoring (Q := fun _ ↦ True) trivial fun _ _ _ _ ↦ trivial) start goal).1

variable {goal : Option TokenAccount} {v : TokenAccount}

/-- A token other than the start that some rate leads to has a predecessor: a product with a
negative rate is another score. -/
theorem exists_prev_of_ne_zero {d : EdgeWeight}
    (hd : (dijkstra std (tokenGraph std pools) start goal).get v = some d)
    (hrate : d.estimatedRate ≠ 0) (hne : v ≠ start) :
    ∃ u, GraphPath.findPrev (tokenGraph std pools)
      (dijkstra std (tokenGraph std pools) start goal) v = some u := by
  obtain ⟨e, he, rfl, sd, hsd, rfl⟩ := (labels std pools start goal).came_from hd hne
  rw [EdgeWeight.add_eq] at hrate
  have hmoves : sd ≠ sd + e.weight := by
    intro h
    have hsame := congrArg EdgeWeight.estimatedRate h
    rw [EdgeWeight.add_eq] at hsame
    have hone : e.weight.estimatedRate = 1 :=
      mul_left_cancel₀ (left_ne_zero_of_mul hrate) (hsame.symm.trans (mul_one _).symm)
    have hnonpos := weight_nonpos he
    rw [hone] at hnonpos
    norm_num at hnonpos
  rw [← Option.ne_none_iff_exists']
  intro hnone
  rw [GraphPath.findPrev, hd, Option.bind_some, List.findSome?_eq_none_iff] at hnone
  have hedge := hnone e (Digraph.mem_incoming.mpr ⟨he, rfl⟩)
  rw [hsd, Option.bind_some, if_pos ⟨rfl, hmoves⟩] at hedge
  cases hedge

theorem exists_prev (hpos : PositiveRates (tokenGraph std pools))
    (hv : v ∈ (dijkstra std (tokenGraph std pools) start goal).keys) (hne : v ≠ start) :
    ∃ u, GraphPath.findPrev (tokenGraph std pools)
      (dijkstra std (tokenGraph std pools) start goal) v = some u := by
  obtain ⟨hlabels, _⟩ := dijkstra_run std (scoring_nonzero hpos) start goal
  obtain ⟨d, hd⟩ := SortedMap.exists_get hv
  exact exists_prev_of_ne_zero hd (hlabels.valid hd).2 hne

theorem not_chain {graph : Digraph TokenAccount EdgeWeight}
    {goals : SortedMap TokenAccount EdgeWeight}
    (h : ∀ v ∈ goals.keys, ∃ u, GraphPath.findPrev graph goals v = some u) {l : List TokenAccount}
    (hv : v ∈ goals.keys) : ¬GraphPath.Chain graph goals v l := by
  intro hchain
  induction hchain with
  | stop hnone =>
    obtain ⟨u, hu⟩ := h _ hv
    rw [hnone] at hu
    cases hu
  | next hprev _ ih => exact ih (GraphPath.findPrev_some hprev).2

/-- A search that returns has found a path to every scored token but the start: a predecessor of
the start would close a cycle of predecessors. -/
theorem mem_found (hpos : PositiveRates (tokenGraph std pools)) {m : PathToOut TokenAccount}
    {outs : List TokenAccount} (hfound : CachedPath.Found (tokenGraph std pools)
      (dijkstra std (tokenGraph std pools) start goal) m outs) :
    v ∈ outs ↔ v ≠ start ∧ v ∈ (dijkstra std (tokenGraph std pools) start goal).keys := by
  rw [hfound.mem_outs, hfound.mem_keys]
  constructor
  · rintro ⟨u, hu⟩
    obtain ⟨hv, _⟩ := GraphPath.findPrev_some hu
    refine ⟨?_, hv⟩
    rintro rfl
    obtain ⟨l, hl⟩ := hfound.chains v hv
    refine not_chain (fun w hw ↦ ?_) hv hl
    by_cases hwv : w = v
    · subst hwv
      exact ⟨u, hu⟩
    · exact exists_prev hpos hw hwv
  · rintro ⟨hne, hv⟩
    exact exists_prev hpos hv hne

/-- On a fresh graph with positive rates, `update_graph` returns the tokens that can be both
bought from the start and sold back for it. -/
theorem updateGraph_mutually_reachable (std : Containers) (pools : PoolInfoList)
    (start : TokenAccount) (fuel : ℕ) (hpos : PositiveRates (tokenGraph std pools))
    {r : Except (Failure TokenAccount) (List TokenAccount)} {tokens : TokenGraph}
    (h : updateGraph std fuel (new std pools) start = some (r, tokens)) :
    (start ∈ (tokenGraph std pools).nodes → ∃ goals, r = .ok goals) ∧
      ∀ goals, r = .ok goals → goals.Nodup ∧ ∀ g, g ∈ goals ↔
        g ≠ start ∧ (tokenGraph std pools).Reaches start g ∧
          (tokenGraph std pools).Reaches g start := by
  have hP := scoring_nonzero hpos
  have hc := coherent_new std fuel pools start
  by_cases hstart : start ∈ (tokenGraph std pools).nodes
  swap
  · rw [updateGraph_unknown hc hstart] at h
    obtain ⟨rfl, _⟩ := Prod.mk.inj (Option.some.inj h)
    exact ⟨fun hs ↦ absurd hs hstart, fun _ h ↦ by cases h⟩
  obtain ⟨m, outs, outs', hsearch, hnodup, hkeys, rfl, hsome, _⟩ := updateGraph_spec hc hstart h
  have hfound := CachedPath.found_search hsearch
  have hmem : ∀ g, g ∈ outs' ↔ g ≠ start ∧ (tokenGraph std pools).Reaches start g := by
    intro g
    rw [hkeys, ← hfound.mem_outs, mem_found hpos hfound, mem_dijkstra_none hP]
  have hleads : ∀ g ∈ outs', leadsOn std fuel (tokenGraph std pools) start g = true := by
    intro g hg
    obtain ⟨hne, hreach⟩ := (hmem g).mp hg
    obtain ⟨⟨m', back⟩, hback⟩ := Option.isSome_iff_exists.mp (hsome g hg)
    have hgoal : start ∈ (dijkstra std (tokenGraph std pools) g (some start)).keys :=
      mem_dijkstra_goal hP (hreach.symm (adj_symm hpos))
    have hin := (mem_found hpos (CachedPath.found_search hback)).mpr ⟨hne.symm, hgoal⟩
    rw [leadsOn, hback]
    simpa using List.ne_nil_of_mem hin
  rw [List.filter_eq_self.mpr hleads]
  refine ⟨fun _ ↦ ⟨outs', rfl⟩, ?_⟩
  rintro goals hgoals
  obtain rfl := Except.ok.inj hgoals
  refine ⟨hnodup, fun g ↦ ?_⟩
  rw [hmem]
  constructor
  · rintro ⟨hne, hreach⟩
    exact ⟨hne, hreach, hreach.symm (adj_symm hpos)⟩
  · rintro ⟨hne, hreach, _⟩
    exact ⟨hne, hreach⟩

def twoTokenPool (id : ℕ) (a b : TokenAccount) (x y : BitVec 128) : PoolInfo :=
  ⟨id, poolKindSimple, [a, b], [x, y], 30⟩

def chainPools : PoolInfoList :=
  .new [twoTokenPool 0 ⟨"a"⟩ ⟨"b"⟩ 1000 3000, twoTokenPool 1 ⟨"b"⟩ ⟨"c"⟩ 2000 500]

theorem updateGraph_mutually_reachable_chain : ∃ tokens,
    updateGraph .lists 5 (new .lists chainPools) ⟨"a"⟩ = some (.ok [⟨"b"⟩, ⟨"c"⟩], tokens) ∧
      ∀ g, g ∈ [(⟨"b"⟩ : TokenAccount), ⟨"c"⟩] ↔
        g ≠ ⟨"a"⟩ ∧ (tokenGraph .lists chainPools).Reaches ⟨"a"⟩ g ∧
          (tokenGraph .lists chainPools).Reaches g ⟨"a"⟩ := by
  have hrun : (updateGraph .lists 5 (new .lists chainPools) ⟨"a"⟩).map Prod.fst =
      some (.ok [⟨"b"⟩, ⟨"c"⟩]) := by decide +kernel
  obtain ⟨⟨r, tokens⟩, h, rfl⟩ := Option.map_eq_some_iff.mp hrun
  have hpos : PositiveRates (tokenGraph .lists chainPools) := by decide +kernel
  have hgoals := updateGraph_mutually_reachable .lists chainPools ⟨"a"⟩ 5 hpos h
  exact ⟨tokens, h, (hgoals.2 _ rfl).2⟩

end Zaciraci.Path.TokenGraph
