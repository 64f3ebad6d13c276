import Zaciraci.Lib.Dijkstra

namespace Zaciraci.Lib

namespace Digraph

variable {N W : Type}

def IsRoute (g : Digraph N W) : N → List (Arc N W) → N → Prop
  | a, [], b => a = b
  | a, e :: route, b => e ∈ g.edges ∧ e.source = a ∧ g.IsRoute e.target route b

variable {route : List (Arc N W)}

theorem IsRoute.snoc {g : Digraph N W} {a : N} {e : Arc N W} (h : g.IsRoute a route e.source)
    (he : e ∈ g.edges) :
    g.IsRoute a (route ++ [e]) e.target := by
  induction route generalizing a with
  | nil => exact ⟨he, Eq.symm h, rfl⟩
  | cons f route ih => exact ⟨h.1, h.2.1, ih h.2.2⟩

theorem IsRoute.mem {g : Digraph N W} {a b : N} (h : g.IsRoute a route b) :
    ∀ e ∈ route, e ∈ g.edges := by
  induction route generalizing a with
  | nil => nofun
  | cons f route ih => exact List.forall_mem_cons.2 ⟨h.1, ih h.2.2⟩

theorem IsRoute.target_mem {g : Digraph N W} {a b : N} (h : g.IsRoute a route b) :
    ∀ e ∈ route, e.target = b ∨ ∃ f ∈ route, f.source = e.target := by
  induction route generalizing a with
  | nil => nofun
  | cons f route ih =>
    refine List.forall_mem_cons.2 ⟨?_, fun e he ↦ ?_⟩
    · cases route with
      | nil => exact .inl h.2.2
      | cons f' route => exact .inr ⟨f', by simp, h.2.2.2.1⟩
    · refine (ih h.2.2 e he).imp_right fun hlink ↦ ?_
      obtain ⟨f', hf', hlink⟩ := hlink
      exact ⟨f', List.mem_cons_of_mem f hf', hlink⟩

end Digraph

section Cost

variable {N W : Type} [Add W]

def costFrom (d : W) (route : List (Arc N W)) : W := route.foldl (fun d e ↦ d + e.weight) d

theorem costFrom_snoc (d : W) (route : List (Arc N W)) (e : Arc N W) :
    costFrom d (route ++ [e]) = costFrom d route + e.weight := by
  rw [costFrom, List.foldl_append]
  rfl

variable [Inhabited W] [LT W]

/-- No arc makes a score smaller, or changes the order of two scores. -/
structure Growing (g : Digraph N W) (P : W → Prop) : Prop extends Scoring g P where
  grows : ∀ {d : W} {e : Arc N W}, P d → e ∈ g.edges → ¬d + e.weight < d
  mono : ∀ {d d' : W} {e : Arc N W}, ¬d' < d → e ∈ g.edges → ¬d' + e.weight < d + e.weight

theorem Scoring.not_lt_trans {g : Digraph N W} {P : W → Prop} (hP : Scoring g P) {a b c : W}
    (hab : ¬b < a) (hbc : ¬c < b) : ¬c < a := fun h ↦ (hP.split b h).elim hbc hab

end Cost

variable {N W : Type} [Add W] [Inhabited W] [LT W] [LinearOrder N] [DecidableLT W]
  {std : Containers} {g : Digraph N W} {P : W → Prop} {start : N}

namespace Search

section Relax

variable {s : Search std N W} {d : W}

omit [Inhabited W] in
theorem relax_cases (s : Search std N W) (d : W) (e : Arc N W) (v : N) :
    (s.relax d e).scores.get v = s.scores.get v ∨
      e.target = v ∧ (s.relax d e).scores.get v = some (d + e.weight) ∧
        ∀ old, s.scores.get v = some old → d + e.weight < old := by
  have hrec : ∀ score, (s.record e.target score).scores.get v = s.scores.get v ∨ e.target = v ∧
      (s.record e.target score).scores.get v = some score := by
    intro score
    by_cases hv : v = e.target
    · exact .inr ⟨hv.symm, hv ▸ SortedMap.get_insert_self _ _ _⟩
    · exact .inl (SortedMap.get_insert_of_ne hv)
  rw [Search.relax]
  split_ifs
  · exact .inl rfl
  · cases hold : s.scores.get e.target with
    | none =>
      obtain h | ⟨rfl, h⟩ := hrec (d + e.weight)
      · exact .inl h
      · exact .inr ⟨rfl, h, fun old hget ↦ by rw [hold] at hget; cases hget⟩
    | some old =>
      dsimp only
      split_ifs with hlt
      · obtain h | ⟨rfl, h⟩ := hrec (d + e.weight)
        · exact .inl h
        · exact .inr ⟨rfl, h, fun old' hget ↦ Option.some.inj (hold.symm.trans hget) ▸ hlt⟩
      · exact .inl rfl

theorem relax_le (hP : Scoring g P) {v : N} {old : W} (h : s.scores.get v = some old)
    (e : Arc N W) : ∃ new, (s.relax d e).scores.get v = some new ∧ ¬old < new := by
  obtain hsame | ⟨-, hget, hlt⟩ := relax_cases s d e v
  · exact ⟨old, hsame.trans h, hP.irrefl old⟩
  · exact ⟨_, hget, hP.asymm (hlt old h)⟩

theorem foldl_relax_le (hP : Scoring g P) {v : N} {old : W} (h : s.scores.get v = some old)
    (l : List (Arc N W)) :
    ∃ new, (l.foldl (Search.relax d) s).scores.get v = some new ∧ ¬old < new := by
  induction l generalizing s old with
  | nil => exact ⟨old, h, hP.irrefl old⟩
  | cons e l ih =>
    obtain ⟨mid, hmid, hle⟩ := relax_le hP (d := d) h e
    obtain ⟨new, hnew, hle'⟩ := ih hmid
    exact ⟨new, hnew, hP.not_lt_trans hle' hle⟩

omit [Inhabited W] in
theorem foldl_relax_cases {v : N} {new : W} {l : List (Arc N W)}
    (h : (l.foldl (Search.relax d) s).scores.get v = some new) :
    s.scores.get v = some new ∨ ∃ e ∈ l, e.target = v ∧ new = d + e.weight := by
  induction l generalizing s with
  | nil => exact .inl h
  | cons e l ih =>
    obtain hmid | ⟨f, hf, hfv, hnew⟩ := ih h
    · obtain hsame | ⟨hev, hget, -⟩ := relax_cases s d e v
      · exact .inl (hsame.symm.trans hmid)
      · exact .inr ⟨e, List.mem_cons_self, hev, Option.some.inj (hmid.symm.trans hget)⟩
    · exact .inr ⟨f, List.mem_cons_of_mem e hf, hfv, hnew⟩

theorem relax_target (hP : Scoring g P) {e : Arc N W} (ht : e.target ∉ s.visited) :
    ∃ new, (s.relax d e).scores.get e.target = some new ∧ ¬d + e.weight < new := by
  rw [Search.relax, if_neg ht]
  cases hold : s.scores.get e.target with
  | none => exact ⟨_, SortedMap.get_insert_self _ _ _, hP.irrefl _⟩
  | some old =>
    dsimp only
    split_ifs with hlt
    · exact ⟨_, SortedMap.get_insert_self _ _ _, hP.irrefl _⟩
    · exact ⟨old, hold, hlt⟩

theorem foldl_relax_target (hP : Scoring g P) {l : List (Arc N W)} {e : Arc N W} (he : e ∈ l)
    (ht : e.target ∉ s.visited) :
    ∃ new, (l.foldl (Search.relax d) s).scores.get e.target = some new ∧ ¬d + e.weight < new := by
  induction l generalizing s with
  | nil => cases he
  | cons f l ih =>
    have hvis : (s.relax d f).visited = s.visited := foldl_relax_visited s d [f]
    rcases List.mem_cons.1 he with rfl | he
    · obtain ⟨mid, hmid, hle⟩ := relax_target hP (d := d) ht
      obtain ⟨new, hnew, hle'⟩ := foldl_relax_le hP hmid l
      exact ⟨new, hnew, hP.not_lt_trans hle' hle⟩
    · exact ih he (hvis ▸ ht)

end Relax

/-- What a visit of the node `v` with the score `d` does. -/
structure Visit (g : Digraph N W) (s s' : Search std N W) (v : N) (d : W) : Prop where
  score : s.scores.get v = some d
  fresh : v ∉ s.visited
  least : ∀ {u du}, u ∉ s.visited → s.scores.get u = some du → ¬du < d
  visited : s'.visited = v :: s.visited
  kept : ∀ {u}, u ∈ v :: s.visited → s'.scores.get u = s.scores.get u
  cases : ∀ {u new}, s'.scores.get u = some new → s.scores.get u = some new ∨
    ∃ e ∈ g.edges, e.source = v ∧ e.target = u ∧ new = d + e.weight
  smaller : ∀ {u old}, s.scores.get u = some old → ∃ new, s'.scores.get u = some new ∧ ¬old < new
  relaxed : ∀ e ∈ g.edges, e.source = v → e.target ∉ s.visited →
    ∃ new, s'.scores.get e.target = some new ∧ ¬d + e.weight < new

theorem Inv.visit_spec {s : Search std N W} (hP : Scoring g P) (hs : s.Inv g P start []) {d : W}
    {v : N} {rest : std.Heap (W × N) minScored}
    (hpop : std.pop s.visitNext = some ((d, v), rest)) (hv : v ∉ s.visited) :
    Visit g s (Search.visit g v d { s with visitNext := rest }) v d where
  score := hs.popped hP hpop hv
  fresh := hv
  least hu hdu := by
    simpa [minScored] using std.pop_greatest hP.ranking hpop _ (hs.queued hdu hu)
  visited := congrArg (v :: ·) (foldl_relax_visited _ d (g.outgoing v))
  kept {u} hu := by
    obtain ⟨du, hdu⟩ : ∃ du, s.scores.get u = some du := by
      rcases List.mem_cons.1 hu with rfl | hu
      · exact ⟨d, hs.popped hP hpop hv⟩
      · exact SortedMap.exists_get (hs.visited_scored u hu)
    rw [hdu]
    refine get_foldl_relax_of_not_lt (s := { s with visitNext := rest }) hdu fun e he heu ↦ ?_
    obtain ⟨he', hev⟩ := Digraph.mem_outgoing.1 he
    rcases List.mem_cons.1 hu with huv | hu
    · exact absurd (hev.trans (heu.trans huv).symm) (hP.loopless e he')
    · exact .inl hu
  cases h := by
    refine (foldl_relax_cases h).imp_right fun hnew ↦ ?_
    obtain ⟨e, he, heu, hnew⟩ := hnew
    exact ⟨e, (Digraph.mem_outgoing.1 he).1, (Digraph.mem_outgoing.1 he).2, heu, hnew⟩
  smaller h := foldl_relax_le hP (s := { s with visitNext := rest }) h (g.outgoing v)
  relaxed e he hev ht := foldl_relax_target hP (Digraph.mem_outgoing.2 ⟨he, hev⟩) ht

theorem Visit.start_mem {s s' : Search std N W} {v : N} {d : W} (hs : s.Inv g P start [])
    (h : Visit g s s' v d) (hne : v ≠ start) : start ∈ s.visited := by
  obtain ⟨e, -, -, hvis, -⟩ := hs.came_from h.score hne
  exact hs.start_visited (List.ne_nil_of_mem hvis)

theorem loop_exhausts (hP : Scoring g P) {J : List N → SortedMap N W → Prop}
    (hvisit : ∀ (s s' : Search std N W) v d, s.Inv g P start [] → J s.visited s.scores →
      Visit g s s' v d → J s'.visited s'.scores)
    {fuel : ℕ} {s : Search std N W} (hs : s.Inv g P start []) (hJ : J s.visited s.scores)
    (hfuel : s.budget g < fuel) :
    ∃ visited, J visited (s.loop g none fuel).scores ∧
      ∀ {v d}, (s.loop g none fuel).scores.get v = some d → v ∈ visited := by
  induction fuel generalizing s with
  | zero => omega
  | succ fuel ih =>
    rw [Search.loop]
    split
    · next hpop =>
      refine ⟨s.visited, hJ, fun {v d} hd ↦ ?_⟩
      by_contra hnot
      have hqueued := hs.queued hd hnot
      rw [std.pop_none.1 hpop] at hqueued
      exact Multiset.notMem_zero _ hqueued
    · next d v rest hpop =>
      have hdrop := budget_drop (g := g) hpop
      split_ifs with hv hgoal
      · exact ih (hs.drop hpop hv) hJ (by omega)
      · cases hgoal
      · have hbudget := budget_visit (g := g) (s := { s with visitNext := rest }) (d := d) hv
        exact ih (hs.visit hP hpop hv) (hvisit s _ v d hs hJ (hs.visit_spec hP hpop hv)) (by omega)

/-- Visited nodes have the least scores, and their arcs have been relaxed. -/
structure Settled (g : Digraph N W) (visited : List N) (scores : SortedMap N W) : Prop where
  least : ∀ {u v du dv}, u ∈ visited → v ∉ visited → scores.get u = some du →
    scores.get v = some dv → ¬dv < du
  relaxed : ∀ e ∈ g.edges, e.source ∈ visited → ∀ {d}, scores.get e.source = some d →
    ∃ d', scores.get e.target = some d' ∧ ¬d + e.weight < d'

theorem Settled.visit (hP : Growing g P) {s s' : Search std N W} {v : N} {d : W}
    (hs : s.Inv g P start []) (h : Settled g s.visited s.scores) (hvisit : Visit g s s' v d) :
    Settled g s'.visited s'.scores := by
  have hPd := hs.valid hvisit.score
  have hle : ∀ {u du}, u ∈ v :: s.visited → s.scores.get u = some du → ¬d < du := by
    intro u du hu hdu
    rcases List.mem_cons.1 hu with rfl | hu
    · rw [Option.some.inj (hvisit.score.symm.trans hdu)]
      exact hP.irrefl du
    · exact h.least hu hvisit.fresh hdu hvisit.score
  constructor
  · rw [hvisit.visited]
    intro u w du dw hu hw hdu hdw
    refine hP.not_lt_trans (hle hu ((hvisit.kept hu).symm.trans hdu)) ?_
    obtain hold | ⟨e, he, -, -, rfl⟩ := hvisit.cases hdw
    · exact hvisit.least (not_or.1 (mt List.mem_cons.2 hw)).2 hold
    · exact hP.grows hPd he
  · rw [hvisit.visited]
    intro e he hsrc ds hds
    rw [hvisit.kept hsrc] at hds
    rcases List.mem_cons.1 hsrc with hev | hsrc
    · obtain rfl : d = ds := Option.some.inj (hvisit.score.symm.trans (hev ▸ hds))
      by_cases ht : e.target ∈ s.visited
      · obtain ⟨dt, hdt⟩ := SortedMap.exists_get (hs.visited_scored _ ht)
        have ht' := List.mem_cons_of_mem v ht
        exact ⟨dt, (hvisit.kept ht').trans hdt,
          hP.not_lt_trans (hle ht' hdt) (hP.grows hPd he)⟩
      · exact hvisit.relaxed e he hev ht
    · obtain ⟨dt, hdt, hnot⟩ := h.relaxed e he hsrc hds
      obtain ⟨new, hnew, hless⟩ := hvisit.smaller hdt
      exact ⟨new, hnew, hP.not_lt_trans hless hnot⟩

end Search

theorem dijkstra_exhausts (std : Containers) (start : N) (hP : Scoring g P)
    {J : List N → SortedMap N W → Prop}
    (hvisit : ∀ (s s' : Search std N W) v d, s.Inv g P start [] → J s.visited s.scores →
      Search.Visit g s s' v d → J s'.visited s'.scores)
    (hJ : J [] (SortedMap.empty.insert start default)) :
    ∃ visited, J visited (dijkstra std g start none) ∧
      ∀ {v d}, (dijkstra std g start none).get v = some d → v ∈ visited :=
  Search.loop_exhausts hP hvisit (Search.init_inv hP) hJ (Nat.lt_succ_of_le Search.budget_init)

theorem dijkstra_relaxed (std : Containers) (hP : Growing g P) (start : N) {e : Arc N W}
    (he : e ∈ g.edges) {d : W} (hd : (dijkstra std g start none).get e.source = some d) :
    ∃ d', (dijkstra std g start none).get e.target = some d' ∧ ¬d + e.weight < d' := by
  obtain ⟨visited, hsettled, hall⟩ := dijkstra_exhausts std start
    (J := Search.Settled g) hP.toScoring (fun _ _ _ _ hs h hvisit ↦ h.visit hP hs hvisit)
    ⟨nofun, nofun⟩
  exact hsettled.relaxed e he (hall hd) hd

theorem dijkstra_le_costFrom (std : Containers) (hP : Growing g P) (start : N)
    {route : List (Arc N W)} {a b : N} (hroute : g.IsRoute a route b) {d c : W}
    (hd : (dijkstra std g start none).get a = some d) (hc : ¬c < d) :
    ∃ d', (dijkstra std g start none).get b = some d' ∧ ¬costFrom c route < d' := by
  induction route generalizing a d c with
  | nil =>
    obtain rfl : a = b := hroute
    exact ⟨d, hd, hc⟩
  | cons e route ih =>
    obtain ⟨he, rfl, hroute⟩ := hroute
    obtain ⟨d', hd', hle⟩ := dijkstra_relaxed std hP start he hd
    exact ih hroute hd' (hP.not_lt_trans hle (hP.mono hc he))

theorem dijkstra_least (std : Containers) (hP : Growing g P) {route : List (Arc N W)} {v : N}
    (hroute : g.IsRoute start route v) :
    ∃ d, (dijkstra std g start none).get v = some d ∧ ¬costFrom default route < d :=
  dijkstra_le_costFrom std hP start hroute (dijkstra_run std hP.toScoring start none).1.start_score
    (hP.irrefl _)

end Zaciraci.Lib
