import Mathlib.Tactic.Linarith
import Zaciraci.Path.Hops

namespace Zaciraci.Path

open Zaciraci.Lib Zaciraci.Dex

namespace GraphPath

variable {N E : Type} [LinearOrder N] [DecidableEq E] [Add E] {graph : Digraph N E}
  {goals : SortedMap N E}

theorem findPath_returns {v : N} {l : List N} (h : Chain graph goals v l) {fuel : ℕ}
    (hfuel : l.length < fuel) (paths : SortedMap N (List N)) :
    ∃ r, findPath graph goals fuel paths v = some r := by
  induction h generalizing fuel paths with
  | @stop v hnone =>
    cases fuel with
    | zero => omega
    | succ fuel =>
      rw [findPath, hnone]
      cases paths.get v <;> exact ⟨_, rfl⟩
  | @next v u l hprev _ ih =>
    cases fuel with
    | zero => omega
    | succ fuel =>
      rw [List.length_cons] at hfuel
      obtain ⟨⟨more, paths'⟩, hmore⟩ := ih (show l.length < fuel by omega) paths
      rw [findPath, hprev]
      cases paths.get v with
      | some result => exact ⟨_, rfl⟩
      | none =>
        dsimp only
        rw [hmore]
        exact ⟨_, rfl⟩

theorem foldlM_findPath_returns {fuel : ℕ} {vs : List N}
    (h : ∀ v ∈ vs, ∃ l, Chain graph goals v l ∧ l.length < fuel) (paths : SortedMap N (List N)) :
    ∃ r, vs.foldlM (fun paths v ↦ (findPath graph goals fuel paths v).map Prod.snd) paths =
      some r := by
  induction vs generalizing paths with
  | nil => exact ⟨paths, rfl⟩
  | cons v vs ih =>
    obtain ⟨⟨l, hl, hlength⟩, hvs⟩ := List.forall_mem_cons.1 h
    obtain ⟨r, hr⟩ := findPath_returns hl hlength paths
    rw [List.foldlM_cons, hr]
    exact ih hvs r.2

theorem chains_bounded {vs : List N} (h : ∀ v ∈ vs, ∃ l, Chain graph goals v l) :
    ∃ n, ∀ v ∈ vs, ∃ l, Chain graph goals v l ∧ l.length < n := by
  induction vs with
  | nil => exact ⟨0, by simp⟩
  | cons v vs ih =>
    obtain ⟨⟨l, hl⟩, hvs⟩ := List.forall_mem_cons.1 h
    obtain ⟨n, hn⟩ := ih hvs
    refine ⟨max n (l.length + 1), List.forall_mem_cons.2 ⟨⟨l, hl, by omega⟩, fun w hw ↦ ?_⟩⟩
    obtain ⟨l', hl', hlength⟩ := hn w hw
    exact ⟨l', hl', by omega⟩

theorem findAllPath_returns (std : Containers)
    (h : ∀ v ∈ goals.keys, ∃ l, Chain graph goals v l) :
    ∃ enough, ∀ fuel ≥ enough, ∃ ps, findAllPath std fuel graph goals = some ps := by
  obtain ⟨n, hn⟩ := chains_bounded h
  refine ⟨n, fun fuel hfuel ↦ ?_⟩
  have hkeys : ∀ v ∈ std.iter goals.keys, ∃ l, Chain graph goals v l ∧ l.length < fuel := by
    intro v hv
    obtain ⟨l, hl, hlength⟩ := hn v (std.mem_iter.1 hv)
    exact ⟨l, hl, by omega⟩
  obtain ⟨paths, hpaths⟩ := foldlM_findPath_returns hkeys .empty
  rw [findAllPath, hpaths]
  exact ⟨_, rfl⟩

def Precedes (graph : Digraph N E) (goals : SortedMap N E) (u v : N) : Prop :=
  findPrev graph goals v = some u

theorem fresh_of_trail
    (hcycle : ∀ u l, (u :: l).Nodup → ¬(u :: l ++ [u]).IsChain (Precedes graph goals))
    {u v : N} {trail : List N} (htrail : (v :: trail).IsChain (Precedes graph goals))
    (hnodup : (v :: trail).Nodup) (hprev : findPrev graph goals v = some u) :
    (u :: v :: trail).Nodup := by
  refine List.nodup_cons.2 ⟨fun hmem ↦ ?_, hnodup⟩
  obtain ⟨before, after, hsplit⟩ := List.append_of_mem hmem
  rw [hsplit] at htrail hnodup
  refine hcycle u before ?_ ?_
  · refine List.nodup_cons.2 ⟨?_, hnodup.of_append_left⟩
    exact fun hu ↦ List.disjoint_of_nodup_append hnodup hu List.mem_cons_self
  · have hback := (List.isChain_split.1 htrail).1
    cases before with
    | nil =>
      obtain ⟨rfl, -⟩ := List.cons.inj hsplit
      exact List.isChain_pair.2 hprev
    | cons w before =>
      obtain ⟨rfl, -⟩ := List.cons.inj hsplit
      exact List.isChain_cons_cons.2 ⟨hprev, hback⟩

/-- Predecessors that never come back to a token they have passed end somewhere. The induction is
on the number of tokens that have not been passed. -/
theorem chain_of_trail
    (hcycle : ∀ u l, (u :: l).Nodup → ¬(u :: l ++ [u]).IsChain (Precedes graph goals))
    {n : ℕ} {v : N} {trail : List N} (htrail : (v :: trail).IsChain (Precedes graph goals))
    (hnodup : (v :: trail).Nodup) (hkeys : v :: trail ⊆ goals.keys)
    (hn : goals.keys.length ≤ n + (v :: trail).length) : ∃ l, Chain graph goals v l := by
  induction n generalizing v trail with
  | zero =>
    cases hprev : findPrev graph goals v with
    | none => exact ⟨[], .stop hprev⟩
    | some u =>
      have hlonger := List.Subperm.length_le ((fresh_of_trail hcycle htrail hnodup hprev).subperm
        (List.cons_subset.2 ⟨(findPrev_some hprev).2, hkeys⟩))
      rw [List.length_cons] at hlonger
      omega
  | succ n ih =>
    cases hprev : findPrev graph goals v with
    | none => exact ⟨[], .stop hprev⟩
    | some u =>
      obtain ⟨l, hl⟩ := ih (List.isChain_cons_cons.2 ⟨hprev, htrail⟩)
        (fresh_of_trail hcycle htrail hnodup hprev)
        (List.cons_subset.2 ⟨(findPrev_some hprev).2, hkeys⟩)
        (by simp only [List.length_cons] at hn ⊢; omega)
      exact ⟨v :: l, .next hprev hl⟩

theorem exists_chain
    (hcycle : ∀ u l, (u :: l).Nodup → ¬(u :: l ++ [u]).IsChain (Precedes graph goals))
    {v : N} (hv : v ∈ goals.keys) : ∃ l, Chain graph goals v l :=
  chain_of_trail hcycle (List.isChain_singleton v) (List.nodup_singleton v)
    (List.cons_subset.2 ⟨hv, List.nil_subset _⟩) (Nat.le_add_right _ _)

def Tight (graph : Digraph N E) (goals : SortedMap N E) (u v : N) : Prop :=
  ∃ e ∈ graph.edges, e.source = u ∧ e.target = v ∧ ∃ sd,
    goals.get u = some sd ∧ goals.get v = some (sd + e.weight) ∧ sd ≠ sd + e.weight

/-- A simple cycle in which every score is accounted for by the one before it. -/
structure TightCycle (graph : Digraph N E) (goals : SortedMap N E) (v : N) (l : List N) :
    Prop where
  nodup : (v :: l).Nodup
  tight : (v :: l ++ [v]).IsChain (Tight graph goals)

theorem Precedes.tight {u v : N} (h : Precedes graph goals u v) : Tight graph goals u v := by
  obtain ⟨d, hd, hfind⟩ := Option.bind_eq_some_iff.1 h
  obtain ⟨e, he, hsome⟩ := List.exists_of_findSome?_eq_some hfind
  obtain ⟨sd, hsd, hif⟩ := Option.bind_eq_some_iff.1 hsome
  obtain ⟨he, htarget⟩ := Digraph.mem_incoming.1 he
  dsimp only at hif
  split_ifs at hif with hmoves
  obtain rfl := Option.some.inj hif
  exact ⟨e, he, rfl, htarget, sd, hsd, hmoves.1 ▸ hd, hmoves.2⟩

theorem exists_chain_of_not_tightCycle (h : ∀ v l, ¬TightCycle graph goals v l) {v : N}
    (hv : v ∈ goals.keys) : ∃ l, Chain graph goals v l :=
  exists_chain (fun u l hnodup hchain ↦
    h u l ⟨hnodup, hchain.imp fun _ _ hprev ↦ Precedes.tight hprev⟩) hv

def leavingLast (graph : Digraph N E) (c : List N) : Digraph N E where
  nodes := graph.nodes
  edges := graph.edges.filter (·.source ∉ c) ++ graph.edges.filter (·.source ∈ c)

theorem findPrev_leavingLast {c : List N} {u v : N} (hu : u ∈ c) (h : Tight graph goals u v) :
    ∃ w ∈ c, findPrev (leavingLast graph c) goals v = some w := by
  obtain ⟨e, he, rfl, rfl, sd, hsd, hd, hmoves⟩ := h
  rw [findPrev, hd, Option.bind_some, Digraph.incoming, leavingLast, List.filter_append,
    List.reverse_append, List.findSome?_append]
  cases hfind : (((graph.edges.filter (·.source ∈ c)).filter
      (·.target = e.target)).reverse).findSome? fun edge ↦ (goals.get edge.source).bind fun sd' ↦
        let x := sd' + edge.weight
        if sd + e.weight = x ∧ sd' ≠ x then some edge.source else none with
  | none =>
    have hnone := List.findSome?_eq_none_iff.1 hfind e (by simp [he, hu])
    rw [hsd, Option.bind_some] at hnone
    simp [hmoves] at hnone
  | some w =>
    obtain ⟨f, hf, hsome⟩ := List.exists_of_findSome?_eq_some hfind
    obtain ⟨sd', -, hif⟩ := Option.bind_eq_some_iff.1 hsome
    dsimp only at hif
    split_ifs at hif
    obtain rfl := Option.some.inj hif
    rw [List.mem_reverse, List.mem_filter, List.mem_filter] at hf
    exact ⟨f.source, of_decide_eq_true hf.1.2, rfl⟩

omit [DecidableEq E] [Add E] in
theorem perm_leavingLast (graph : Digraph N E) (c : List N) :
    (leavingLast graph c).edges.Perm graph.edges := by
  have hsplit := List.filter_append_perm (fun e : Arc N E ↦ decide (e.source ∉ c)) graph.edges
  simpa [leavingLast] using hsplit

section Cycles

omit [DecidableEq E]

theorem not_tightCycle_of_rank (rank : N → ℕ)
    (h : ∀ u v, Tight graph goals u v → rank u < rank v) (v : N) (l : List N) :
    ¬TightCycle graph goals v l := by
  intro hcycle
  have hchain : (v :: l ++ [v]).IsChain fun a b ↦ rank a < rank b := hcycle.tight.imp h
  have htrans : IsTrans N fun a b ↦ rank a < rank b := ⟨fun _ _ _ ↦ lt_trans⟩
  have hpairs := List.isChain_iff_pairwise.1 hchain
  exact lt_irrefl _ ((List.pairwise_append.1 hpairs).2.2 v List.mem_cons_self v (by simp))

theorem TightCycle.exists_tight {v : N} {l : List N} (h : TightCycle graph goals v l) {w : N}
    (hw : w ∈ v :: l) : ∃ u ∈ v :: l, Tight graph goals u w := by
  have hmem : w ∈ l ++ [v] := by
    rw [List.mem_append, List.mem_singleton]
    exact (List.mem_cons.1 hw).symm
  obtain ⟨before, after, hsplit⟩ := List.append_of_mem hmem
  have hchain := h.tight
  rw [List.cons_append, hsplit, ← List.cons_append, List.isChain_append] at hchain
  have hlast := List.getLast?_eq_some_getLast (List.cons_ne_nil v before)
  refine ⟨_, ?_, hchain.2.2 _ hlast w rfl⟩
  obtain heq | hbefore := List.mem_cons.1 (List.getLast_mem (List.cons_ne_nil v before))
  · rw [heq]
    exact List.mem_cons_self
  · have hin : (v :: before).getLast (List.cons_ne_nil v before) ∈ l ++ [v] :=
      hsplit ▸ List.mem_append_left _ hbefore
    rw [List.mem_append, List.mem_singleton] at hin
    exact List.mem_cons.2 hin.symm

end Cycles

/-- Where the arcs that leave a tight cycle were added last, the paths of its tokens have no
beginning. -/
theorem TightCycle.diverges {std : Containers} {v : N} {l : List N}
    (h : TightCycle graph goals v l) (fuel : ℕ) :
    findAllPath std fuel (leavingLast graph (v :: l)) goals = none := by
  have hendless : ∀ w l', Chain (leavingLast graph (v :: l)) goals w l' → w ∉ v :: l := by
    intro w l' hchain hw
    induction hchain with
    | stop hnone =>
      obtain ⟨u, hu, htight⟩ := h.exists_tight hw
      obtain ⟨w', -, hprev⟩ := findPrev_leavingLast hu htight
      cases hnone.symm.trans hprev
    | next hprev _ ih =>
      obtain ⟨u, hu, htight⟩ := h.exists_tight hw
      obtain ⟨w', hw', hprev'⟩ := findPrev_leavingLast hu htight
      obtain rfl := Option.some.inj (hprev.symm.trans hprev')
      exact ih hw'
  by_contra hsome
  obtain ⟨ps, hps⟩ := Option.ne_none_iff_exists'.1 hsome
  obtain ⟨_, -, e, -, -, -, sd, -, hd, -⟩ := h.exists_tight List.mem_cons_self
  obtain ⟨l', hl'⟩ := (findAllPath_spec hps).2.1 v (SortedMap.mem_keys_of_get hd)
  exact hendless v l' hl' List.mem_cons_self

end GraphPath

namespace TokenGraph

inductive Walk (graph : Digraph TokenAccount EdgeWeight) :
    TokenAccount → List TokenAccount → TokenAccount → ℚ → Prop
  | nil (a : TokenAccount) : Walk graph a [] a 1
  | cons {e : Arc TokenAccount EdgeWeight} {tokens : List TokenAccount} {b : TokenAccount}
      {r : ℚ} : e ∈ graph.edges → Walk graph e.target tokens b r →
      Walk graph e.source (e.source :: tokens) b (e.weight.estimatedRate * r)

/-- The tokens of a simple cycle around which the stored rates multiply to one. -/
structure UnitCycle (graph : Digraph TokenAccount EdgeWeight) (v : TokenAccount)
    (tokens : List TokenAccount) : Prop where
  ne_nil : tokens ≠ []
  nodup : tokens.Nodup
  walk : Walk graph v tokens v 1

variable {std : Containers} {pools : PoolInfoList} {start : TokenAccount}
  {goal : Option TokenAccount}

variable {a b : TokenAccount}

theorem walk_of_tight {goals : SortedMap TokenAccount EdgeWeight}
    {graph : Digraph TokenAccount EdgeWeight} {l : List TokenAccount}
    (h : (a :: l ++ [b]).IsChain (GraphPath.Tight graph goals)) :
    ∃ r da db, Walk graph a (a :: l) b r ∧ goals.get a = some da ∧ goals.get b = some db ∧
      db.estimatedRate = da.estimatedRate * r := by
  induction l generalizing a with
  | nil =>
    obtain ⟨e, he, rfl, rfl, sd, hsd, hd, -⟩ := List.isChain_pair.1 h
    exact ⟨_, sd, _, .cons he (.nil _), hsd, hd, by rw [EdgeWeight.add_eq, mul_one]⟩
  | cons c l ih =>
    obtain ⟨hac, hrest⟩ := List.isChain_cons_cons.1 h
    obtain ⟨e, he, rfl, rfl, sd, hsd, hd, -⟩ := hac
    obtain ⟨r, dc, db, hwalk, hdc, hdb, hr⟩ := ih hrest
    refine ⟨_, sd, db, .cons he hwalk, hsd, hdb, ?_⟩
    obtain rfl := Option.some.inj (hd.symm.trans hdc)
    rw [hr, EdgeWeight.add_eq, mul_assoc]

theorem unitCycle_of_tight {u : TokenAccount} {l : List TokenAccount}
    (h : GraphPath.TightCycle (tokenGraph std pools)
      (dijkstra std (tokenGraph std pools) start goal) u l) :
    (tokenGraph std pools).Reaches start u ∧ UnitCycle (tokenGraph std pools) u (u :: l) := by
  obtain ⟨r, d, d', hwalk, hd, hd', hr⟩ := walk_of_tight h.tight
  obtain rfl := Option.some.inj (hd.symm.trans hd')
  have hne : d.estimatedRate ≠ 0 := by
    obtain ⟨w, e, -, -, -, sd, hsd, -, hmoves⟩ : ∃ w, GraphPath.Tight (tokenGraph std pools)
        (dijkstra std (tokenGraph std pools) start goal) u w := by
      have htight := h.tight
      cases l with
      | nil => exact ⟨u, List.isChain_pair.1 htight⟩
      | cons w l => exact ⟨w, (List.isChain_cons_cons.1 htight).1⟩
    obtain rfl := Option.some.inj (hsd.symm.trans hd)
    obtain ⟨pairId, rate⟩ := sd
    obtain rfl : pairId = none := ((labels std pools start goal).valid hsd).1
    rintro (rfl : rate = 0)
    exact hmoves (by rw [EdgeWeight.add_eq, zero_mul])
  have hone : r = 1 := mul_left_cancel₀ hne (hr.symm.trans (mul_one _).symm)
  exact ⟨(labels std pools start goal).reached hd, List.cons_ne_nil _ _, h.nodup, hone ▸ hwalk⟩

theorem search_returns_of_chains
    (h : ∀ v ∈ (dijkstra std (tokenGraph std pools) start goal).keys, ∃ l, GraphPath.Chain
      (tokenGraph std pools) (dijkstra std (tokenGraph std pools) start goal) v l) :
    ∃ enough, ∀ fuel ≥ enough,
      ∃ found, CachedPath.search std fuel (tokenGraph std pools) start goal = some found := by
  obtain ⟨enough, henough⟩ := GraphPath.findAllPath_returns std h
  refine ⟨enough, fun fuel hfuel ↦ ?_⟩
  obtain ⟨ps, hps⟩ := henough fuel hfuel
  rw [CachedPath.search, hps]
  exact ⟨_, rfl⟩

theorem search_returns_of_not_tightCycle (h : ∀ v l, ¬GraphPath.TightCycle (tokenGraph std pools)
      (dijkstra std (tokenGraph std pools) start goal) v l) :
    ∃ enough, ∀ fuel ≥ enough,
      ∃ found, CachedPath.search std fuel (tokenGraph std pools) start goal = some found :=
  search_returns_of_chains fun _ hv ↦ GraphPath.exists_chain_of_not_tightCycle h hv

theorem search_returns (h : ∀ v tokens, (tokenGraph std pools).Reaches start v →
      ¬UnitCycle (tokenGraph std pools) v tokens) :
    ∃ enough, ∀ fuel ≥ enough,
      ∃ found, CachedPath.search std fuel (tokenGraph std pools) start goal = some found :=
  search_returns_of_not_tightCycle fun v l hcycle ↦
    h v (v :: l) (unitCycle_of_tight hcycle).1 (unitCycle_of_tight hcycle).2

/-- A token whose rate from the start is not zero keeps the score the start gives it: what comes
off the queue before it has a negative score too, and leads to a positive one. -/
theorem get_of_arc {e : Arc TokenAccount EdgeWeight} (he : e ∈ (tokenGraph std pools).edges)
    (hsource : e.source = start) (hrate : e.weight.estimatedRate ≠ 0) (hgoal : goal ≠ some start) :
    (dijkstra std (tokenGraph std pools) start goal).get e.target =
      some ⟨none, e.weight.estimatedRate⟩ := by
  have hneg : e.weight.estimatedRate < 0 := lt_of_le_of_ne (weight_nonpos he) hrate
  have hscore : (default : EdgeWeight) + e.weight = ⟨none, e.weight.estimatedRate⟩ :=
    congrArg _ (one_mul _)
  have hP : Scoring (tokenGraph std pools) fun w ↦ w.pairId = none ∧ True :=
    scoring (Q := fun _ ↦ True) trivial fun _ _ _ _ ↦ trivial
  rw [← hscore]
  refine dijkstra_get_of_held hP he hsource hgoal ?_ ?_
  · intro f hf hfs hft
    exact arc_unique he hf (hfs.trans hsource.symm) hft
  · intro d _ hd f hf _
    rw [hscore, EdgeWeight.lt_iff, not_lt] at hd
    rw [hscore, EdgeWeight.add_eq, EdgeWeight.lt_iff, not_lt]
    exact hneg.le.trans (mul_nonneg_of_nonpos_of_nonpos (hd.trans hneg.le) (weight_nonpos hf))

theorem Walk.of_cons {graph : Digraph TokenAccount EdgeWeight} {a b c : TokenAccount}
    {tokens : List TokenAccount} {r : ℚ} (h : Walk graph a (c :: tokens) b r) :
    c = a ∧ ∃ e ∈ graph.edges, e.source = a ∧ ∃ r', Walk graph e.target tokens b r' ∧
      r = e.weight.estimatedRate * r' := by
  cases h with
  | cons he h => exact ⟨rfl, _, he, rfl, _, h, rfl⟩

theorem Walk.of_nil {graph : Digraph TokenAccount EdgeWeight} {r : ℚ} (h : Walk graph a [] b r) :
    b = a ∧ r = 1 := by
  cases h
  exact ⟨rfl, rfl⟩

/-- From a token on a unit cycle of two hops the search never returns: the way back makes the
other token a predecessor of the start. -/
theorem search_diverges {u : TokenAccount}
    (hcycle : UnitCycle (tokenGraph std pools) start [start, u]) (hgoal : goal ≠ some start)
    (fuel : ℕ) : CachedPath.search std fuel (tokenGraph std pools) start goal = none := by
  obtain ⟨-, e, he, hsource, r, hback, hone⟩ := hcycle.walk.of_cons
  obtain ⟨hu, f, hf, hfs, r', hend, rfl⟩ := hback.of_cons
  obtain ⟨hstart, rfl⟩ := hend.of_nil
  rw [mul_one] at hone
  have hrate : e.weight.estimatedRate ≠ 0 := left_ne_zero_of_mul (hone ▸ one_ne_zero)
  have hscore := get_of_arc he hsource hrate hgoal
  by_contra hsome
  obtain ⟨⟨m, outs⟩, hsearch⟩ := Option.ne_none_iff_exists'.1 hsome
  have hprev := start_no_prev hsearch
  rw [GraphPath.findPrev, (labels std pools start goal).start_score, Option.bind_some,
    List.findSome?_eq_none_iff] at hprev
  have hedge := hprev f (Digraph.mem_incoming.2 ⟨hf, hstart.symm⟩)
  rw [hfs, hscore, Option.bind_some, EdgeWeight.add_eq, ← hone, if_pos ?_] at hedge
  · cases hedge
  · refine ⟨rfl, fun h ↦ ?_⟩
    have hsame : e.weight.estimatedRate = 1 := congrArg EdgeWeight.estimatedRate h
    have hnonpos := weight_nonpos he
    rw [hsame] at hnonpos
    norm_num at hnonpos

/-- Where prices can be given to the tokens so that no arc yields as much as it takes, no cycle
of rates multiplies to one. -/
theorem Walk.loses {graph : Digraph TokenAccount EdgeWeight} {price : TokenAccount → ℚ}
    (hloss : ∀ e ∈ graph.edges, |e.weight.estimatedRate| * price e.target < price e.source)
    {tokens : List TokenAccount} {r : ℚ} (h : Walk graph a tokens b r) :
    |r| * price b ≤ price a ∧ (tokens ≠ [] → |r| * price b < price a) := by
  induction h with
  | nil a => simp
  | @cons e tokens b r he _ ih =>
    have hstep : |e.weight.estimatedRate * r| * price b < price e.source :=
      calc |e.weight.estimatedRate * r| * price b
          = |e.weight.estimatedRate| * (|r| * price b) := by rw [abs_mul, mul_assoc]
        _ ≤ |e.weight.estimatedRate| * price e.target :=
          mul_le_mul_of_nonneg_left ih.1 (abs_nonneg _)
        _ < price e.source := hloss e he
    exact ⟨hstep.le, fun _ ↦ hstep⟩

theorem not_unitCycle_of_prices {graph : Digraph TokenAccount EdgeWeight}
    (price : TokenAccount → ℚ)
    (hloss : ∀ e ∈ graph.edges, |e.weight.estimatedRate| * price e.target < price e.source)
    (v : TokenAccount) (tokens : List TokenAccount) : ¬UnitCycle graph v tokens := by
  intro h
  have hlt := (h.walk.loses hloss).2 h.ne_nil
  rw [abs_one, one_mul] at hlt
  exact lt_irrefl _ hlt

theorem updatePath_diverges {u : TokenAccount}
    (hcycle : UnitCycle (tokenGraph std pools) start [start, u])
    (hgoal : ∀ g, goal = some g → g ≠ start ∧ g ∈ (tokenGraph std pools).nodes) (fuel : ℕ) :
    (CachedPath.new (tokenGraph std pools)).updatePath std fuel start goal = none := by
  obtain ⟨-, e, he, rfl, -⟩ := hcycle.walk.of_cons
  have hstart := (adj_nodes (Digraph.adj_of_mem he)).1
  have hne : goal ≠ some e.source := fun h ↦ (hgoal _ h).1 rfl
  have hcompute : (CachedPath.new (tokenGraph std pools)).computePath std fuel e.source goal =
      none := by
    rw [CachedPath.computePath_of_mem hstart fun g hg ↦ (hgoal g hg).2]
    exact Option.map_eq_none_iff.2 (search_diverges hcycle hne fuel)
  cases goal with
  | none => exact hcompute
  | some g => exact hcompute

/-- Whatever is cached, `update_path` returns if no simple cycle of arcs accounts for the scores of
its tokens. If there is one, the paths are never found where the arcs that leave its tokens were
added last, and on a fresh graph in no order, if it goes from the start in two hops. -/
theorem updatePath_terminates (std : Containers) (pools : PoolInfoList) (start : TokenAccount)
    (goal : Option TokenAccount) :
    let graph := tokenGraph std pools
    let scores := dijkstra std graph start goal
    ((∀ v l, ¬GraphPath.TightCycle graph scores v l) →
      ∀ cache : CachedPath TokenAccount EdgeWeight, cache.graph = graph →
        ∃ enough, ∀ fuel ≥ enough, ∃ r, cache.updatePath std fuel start goal = some r) ∧
    (∀ v l, GraphPath.TightCycle graph scores v l →
      (GraphPath.leavingLast graph (v :: l)).edges.Perm graph.edges ∧
      ∀ fuel, GraphPath.findAllPath std fuel (GraphPath.leavingLast graph (v :: l)) scores =
        none) ∧
    ((∀ g, goal = some g → g ≠ start ∧ g ∈ graph.nodes) →
      ∀ u, UnitCycle graph start [start, u] →
        ∀ fuel, (CachedPath.new graph).updatePath std fuel start goal = none) := by
  intro graph scores
  refine ⟨fun h cache hcache ↦ ?_, fun v l hcycle ↦ ?_, ?_⟩
  · obtain ⟨enough, henough⟩ := search_returns_of_not_tightCycle h
    refine ⟨enough, fun fuel hfuel ↦ CachedPath.updatePath_returns ?_⟩
    rw [hcache]
    exact henough fuel hfuel
  · exact ⟨GraphPath.perm_leavingLast graph _, hcycle.diverges⟩
  · exact fun hgoal u hcycle ↦ updatePath_diverges hcycle hgoal

def mirroredPools : PoolInfoList :=
  .new [twoTokenPool 0 ⟨"a"⟩ ⟨"b"⟩ 2000 3007, twoTokenPool 1 ⟨"a"⟩ ⟨"b"⟩ 3007 2000]

theorem unitCycle_of_mem {graph : Digraph TokenAccount EdgeWeight} (hne : a ≠ b)
    (h : ∃ e ∈ graph.edges, ∃ f ∈ graph.edges, (e.source = a ∧ e.target = b) ∧
      (f.source = b ∧ f.target = a) ∧ e.weight.estimatedRate * f.weight.estimatedRate = 1) :
    UnitCycle graph a [a, b] := by
  obtain ⟨e, he, f, hf, ⟨rfl, rfl⟩, ⟨hsource, htarget⟩, hone⟩ := h
  refine ⟨List.cons_ne_nil _ _, by simpa using hne, ?_⟩
  have hwalk := Walk.cons he (hsource ▸ Walk.cons hf (.nil f.target))
  rwa [htarget, mul_one, hone] at hwalk

theorem updatePath_mirrored_diverges : ¬∃ fuel r,
    (CachedPath.new (tokenGraph .lists mirroredPools)).updatePath .lists fuel ⟨"a"⟩ none =
      some r := by
  have hcycle : UnitCycle (tokenGraph .lists mirroredPools) ⟨"a"⟩ [⟨"a"⟩, ⟨"b"⟩] :=
    unitCycle_of_mem (by decide) (by decide +kernel)
  intro h
  obtain ⟨fuel, r, hr⟩ := h
  rw [updatePath_diverges hcycle (fun _ h ↦ by cases h) fuel] at hr
  cases hr

def crossedPools : PoolInfoList :=
  .new [twoTokenPool 0 ⟨"a"⟩ ⟨"b"⟩ 2000 3007, twoTokenPool 1 ⟨"a"⟩ ⟨"b"⟩ 3007 2000,
    twoTokenPool 2 ⟨"s"⟩ ⟨"a"⟩ 1000 1000, twoTokenPool 3 ⟨"s"⟩ ⟨"b"⟩ 1000 1000]

/-- From the third token both have scores of their own, for which no way around the cycle
accounts. -/
theorem updatePath_terminates_crossed :
    UnitCycle (tokenGraph .lists crossedPools) ⟨"a"⟩ [⟨"a"⟩, ⟨"b"⟩] ∧
      ∃ enough, ∀ fuel ≥ enough, ∃ r,
        (CachedPath.new (tokenGraph .lists crossedPools)).updatePath .lists fuel ⟨"s"⟩ none =
          some r := by
  refine ⟨unitCycle_of_mem (by decide) (by decide +kernel), ?_⟩
  let scores := dijkstra .lists (tokenGraph .lists crossedPools) ⟨"s"⟩ none
  let rank : TokenAccount → ℕ := fun t ↦ if t = ⟨"s"⟩ then 0 else 1
  have hscores : ∀ e ∈ (tokenGraph .lists crossedPools).edges,
      (scores.get e.source).map (· + e.weight) = scores.get e.target →
        rank e.source < rank e.target := by decide +kernel
  refine (updatePath_terminates .lists crossedPools ⟨"s"⟩ none).1
    (GraphPath.not_tightCycle_of_rank rank ?_) _ rfl
  rintro u v ⟨e, he, rfl, rfl, sd, hsd, hd, -⟩
  exact hscores e he (by rw [hsd, hd, Option.map_some])

end TokenGraph

end Zaciraci.Path
