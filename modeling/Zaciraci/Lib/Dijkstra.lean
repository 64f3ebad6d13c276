import Mathlib.Logic.Relation
import Zaciraci.Lib.Containers

namespace Zaciraci.Lib

structure Arc (N W : Type) where
  source : N
  target : N
  weight : W
  deriving DecidableEq, Repr

/-- A `petgraph::Graph` whose nodes are named by their weights; the arcs stand in the order in
which they were added. -/
structure Digraph (N W : Type) where
  nodes : List N
  edges : List (Arc N W)

namespace Digraph

variable {N W : Type}

def Adj (g : Digraph N W) (a b : N) : Prop := ∃ e ∈ g.edges, e.source = a ∧ e.target = b

abbrev Reaches (g : Digraph N W) : N → N → Prop := Relation.ReflTransGen g.Adj

theorem adj_of_mem {g : Digraph N W} {e : Arc N W} (he : e ∈ g.edges) : g.Adj e.source e.target :=
  ⟨e, he, rfl, rfl⟩

theorem Reaches.symm {g : Digraph N W} (hg : ∀ a b, g.Adj a b → g.Adj b a) {a b : N}
    (h : g.Reaches a b) : g.Reaches b a := by
  induction h with
  | refl => exact .refl
  | tail _ hbc ih => exact .head (hg _ _ hbc) ih

variable [DecidableEq N]

/-- Adjacency lists are walked from the newest arc to the oldest. -/
def outgoing (g : Digraph N W) (n : N) : List (Arc N W) := (g.edges.filter (·.source = n)).reverse

def incoming (g : Digraph N W) (n : N) : List (Arc N W) := (g.edges.filter (·.target = n)).reverse

def findEdge (g : Digraph N W) (a b : N) : Option (Arc N W) := (g.outgoing a).find? (·.target = b)

theorem mem_outgoing {g : Digraph N W} {n : N} {e : Arc N W} :
    e ∈ g.outgoing n ↔ e ∈ g.edges ∧ e.source = n := by simp [outgoing]

theorem mem_incoming {g : Digraph N W} {n : N} {e : Arc N W} :
    e ∈ g.incoming n ↔ e ∈ g.edges ∧ e.target = n := by simp [incoming]

def pending (g : Digraph N W) (visited : List N) : ℕ := g.edges.countP (·.source ∉ visited)

theorem pending_cons {g : Digraph N W} {visited : List N} {n : N} (h : n ∉ visited) :
    g.pending (n :: visited) + (g.outgoing n).length = g.pending visited := by
  simp only [pending, outgoing, List.length_reverse, ← List.countP_eq_length_filter]
  induction g.edges with
  | nil => rfl
  | cons e l ih =>
    by_cases he : e.source = n
    · rw [List.countP_cons_of_neg (by simp [he]), List.countP_cons_of_pos (by simp [he]),
        List.countP_cons_of_pos (by simp [he, h])]
      omega
    · by_cases hv : e.source ∈ visited
      · rwa [List.countP_cons_of_neg (by simp [hv]), List.countP_cons_of_neg (by simp [he]),
          List.countP_cons_of_neg (by simp [hv])]
      · rw [List.countP_cons_of_pos (by simp [he, hv]), List.countP_cons_of_neg (by simp [he]),
          List.countP_cons_of_pos (by simp [hv])]
        omega

end Digraph

variable {N W : Type} [Add W] [Inhabited W] [LT W]

/-- What the run needs of the scores that can occur: a score is determined by its rank. -/
structure Scoring (g : Digraph N W) (P : W → Prop) : Prop where
  start : P default
  add : ∀ {d : W} {e : Arc N W}, P d → e ∈ g.edges → P (d + e.weight)
  eq_of_not_lt : ∀ {a b : W}, P a → P b → ¬a < b → ¬b < a → a = b
  asymm : ∀ {a b : W}, a < b → ¬b < a
  split : ∀ {a c : W} (b : W), a < c → a < b ∨ b < c
  loopless : ∀ e ∈ g.edges, e.source ≠ e.target

namespace Scoring

variable {g : Digraph N W} {P : W → Prop}

theorem irrefl (hP : Scoring g P) (a : W) : ¬a < a := fun h ↦ hP.asymm h h

theorem trans (hP : Scoring g P) {a b c : W} (hab : a < b) (hbc : b < c) : a < c :=
  (hP.split c hab).resolve_right (hP.asymm hbc)

end Scoring

variable [LinearOrder N] [DecidableLT W]

def minScored (a b : W × N) : Bool := b.1 < a.1

/-- The state of one run of `petgraph::algo::dijkstra`. -/
structure Search (std : Containers) (N W : Type) [LinearOrder N] [LT W] [DecidableLT W] where
  visited : List N
  scores : SortedMap N W
  visitNext : std.Heap (W × N) minScored

namespace Search

variable {std : Containers}

def init (std : Containers) (start : N) : Search std N W where
  visited := []
  scores := SortedMap.empty.insert start default
  visitNext := std.push std.empty (default, start)

def record (s : Search std N W) (next : N) (score : W) : Search std N W :=
  { s with scores := s.scores.insert next score, visitNext := std.push s.visitNext (score, next) }

def relax (nodeScore : W) (s : Search std N W) (e : Arc N W) : Search std N W :=
  if e.target ∈ s.visited then s
  else
    let nextScore := nodeScore + e.weight
    match s.scores.get e.target with
    | some old => if nextScore < old then s.record e.target nextScore else s
    | none => s.record e.target nextScore

def visit (g : Digraph N W) (node : N) (nodeScore : W) (s : Search std N W) : Search std N W :=
  let s' := (g.outgoing node).foldl (relax nodeScore) s
  { s' with visited := node :: s'.visited }

def loop (g : Digraph N W) (goal : Option N) : ℕ → Search std N W → Search std N W
  | 0, s => s
  | fuel + 1, s =>
    match std.pop s.visitNext with
    | none => s
    | some ((nodeScore, node), rest) =>
      if node ∈ s.visited then loop g goal fuel { s with visitNext := rest }
      else if goal = some node then { s with visitNext := rest }
      else loop g goal fuel (visit g node nodeScore { s with visitNext := rest })

end Search

/-- Every arc puts at most one entry on the queue, so `edges.length + 2` rounds are enough. -/
def dijkstra (std : Containers) (g : Digraph N W) (start : N) (goal : Option N) : SortedMap N W :=
  (Search.loop g goal (g.edges.length + 2) (Search.init std start)).scores

omit [LinearOrder N] in
theorem Scoring.ranking {g : Digraph N W} {P : W → Prop} (hP : Scoring g P) :
    Ranking (minScored : W × N → W × N → Bool) where
  asymm a b h := by
    simp only [minScored, decide_eq_true_eq, decide_eq_false_iff_not] at h ⊢
    exact hP.asymm h
  split a b c h := by
    simp only [minScored, decide_eq_true_eq] at h ⊢
    exact (hP.split b.1 h).symm

namespace Search

section

variable {std : Containers}

omit [Inhabited W]

def mark (node : N) (s : Search std N W) : Search std N W :=
  { s with visited := node :: s.visited }

theorem relax_mark {node : N} {d : W} {e : Arc N W} (h : e.target ≠ node) (s : Search std N W) :
    (s.mark node).relax d e = (s.relax d e).mark node := by
  have hmem : e.target ∈ (s.mark node).visited ↔ e.target ∈ s.visited := by
    simp [mark, h]
  by_cases ht : e.target ∈ s.visited
  · rw [Search.relax, if_pos (hmem.mpr ht), Search.relax, if_pos ht]
  · rw [Search.relax, if_neg fun h' ↦ ht (hmem.mp h'), Search.relax, if_neg ht]
    have hscores : (s.mark node).scores = s.scores := rfl
    rw [hscores]
    cases s.scores.get e.target with
    | none => rfl
    | some old =>
      dsimp only
      split_ifs <;> rfl

theorem foldl_relax_mark {node : N} {d : W} {l : List (Arc N W)} (h : ∀ e ∈ l, e.target ≠ node)
    (s : Search std N W) : l.foldl (relax d) (s.mark node) = (l.foldl (relax d) s).mark node := by
  induction l generalizing s with
  | nil => rfl
  | cons e l ih =>
    rw [List.foldl_cons, List.foldl_cons, relax_mark (h e List.mem_cons_self),
      ih fun f hf ↦ h f (List.mem_cons_of_mem e hf)]

theorem card_relax_le (s : Search std N W) (d : W) (e : Arc N W) :
    (std.items (s.relax d e).visitNext).card ≤ (std.items s.visitNext).card + 1 := by
  have hrec : ∀ score, (std.items (s.record e.target score).visitNext).card =
      (std.items s.visitNext).card + 1 := by
    intro score
    rw [Search.record, std.items_push, Multiset.card_cons]
  rw [Search.relax]
  split_ifs
  · omega
  · cases s.scores.get e.target with
    | none => exact (hrec _).le
    | some old =>
      dsimp only
      split_ifs
      · exact (hrec _).le
      · omega

theorem card_foldl_relax_le (s : Search std N W) (d : W) (l : List (Arc N W)) :
    (std.items (l.foldl (relax d) s).visitNext).card ≤
      (std.items s.visitNext).card + l.length := by
  induction l generalizing s with
  | nil => rfl
  | cons e l ih =>
    have h := card_relax_le s d e
    have hl := ih (s.relax d e)
    rw [List.foldl_cons, List.length_cons]
    omega

theorem foldl_relax_visited (s : Search std N W) (d : W) (l : List (Arc N W)) :
    (l.foldl (relax d) s).visited = s.visited := by
  induction l generalizing s with
  | nil => rfl
  | cons e l ih =>
    rw [List.foldl_cons, ih, Search.relax]
    split_ifs
    · rfl
    · cases s.scores.get e.target with
      | none => rfl
      | some old =>
        dsimp only
        split_ifs <;> rfl

theorem get_relax_of_not_lt {s : Search std N W} {d w : W} {u : N} {e : Arc N W}
    (hu : s.scores.get u = some w)
    (he : e.target = u → u ∈ s.visited ∨ ¬d + e.weight < w) :
    (s.relax d e).scores.get u = some w := by
  have hrec : ∀ score, e.target ≠ u → (s.record e.target score).scores.get u = some w :=
    fun score hne ↦ (SortedMap.get_insert_of_ne hne.symm).trans hu
  rw [Search.relax]
  split_ifs with hvis
  · exact hu
  · by_cases hne : e.target = u
    · subst hne
      rw [hu]
      dsimp only
      rw [if_neg ((he rfl).resolve_left hvis)]
      exact hu
    · cases s.scores.get e.target with
      | none => exact hrec _ hne
      | some old =>
        dsimp only
        split_ifs
        · exact hrec _ hne
        · exact hu

theorem get_foldl_relax_of_not_lt {s : Search std N W} {d w : W} {u : N} {l : List (Arc N W)}
    (hu : s.scores.get u = some w)
    (hl : ∀ e ∈ l, e.target = u → u ∈ s.visited ∨ ¬d + e.weight < w) :
    (l.foldl (relax d) s).scores.get u = some w := by
  induction l generalizing s with
  | nil => exact hu
  | cons e l ih =>
    obtain ⟨he, hl⟩ := List.forall_mem_cons.mp hl
    have hvis : (s.relax d e).visited = s.visited := foldl_relax_visited s d [e]
    exact ih (get_relax_of_not_lt hu he) (hvis ▸ hl)

theorem get_foldl_relax_of_mem {s : Search std N W} {d : W} {l : List (Arc N W)} {e : Arc N W}
    (hirrefl : ¬d + e.weight < d + e.weight) (he : e ∈ l)
    (hl : ∀ f ∈ l, f.target = e.target → f = e) (hvis : e.target ∉ s.visited)
    (hs : s.scores.get e.target = none) :
    (l.foldl (relax d) s).scores.get e.target = some (d + e.weight) := by
  induction l generalizing s with
  | nil => cases he
  | cons f l ih =>
    obtain ⟨hf, hl⟩ := List.forall_mem_cons.mp hl
    have hvis' : (s.relax d f).visited = s.visited := foldl_relax_visited s d [f]
    rw [List.foldl_cons]
    by_cases hfe : f.target = e.target
    · obtain rfl := hf hfe
      have hget : (s.relax d f).scores.get f.target = some (d + f.weight) := by
        rw [Search.relax, if_neg hvis, hs]
        exact SortedMap.get_insert_self _ _ _
      refine get_foldl_relax_of_not_lt hget fun g hg hgt ↦ .inr ?_
      rwa [hl g hg hgt]
    · have hmem : e ∈ l := (List.mem_cons.mp he).resolve_left fun h ↦ hfe (h ▸ rfl)
      refine ih hmem hl (hvis' ▸ hvis) ?_
      have hrec : ∀ score, (s.record f.target score).scores.get e.target = none :=
        fun score ↦ (SortedMap.get_insert_of_ne (Ne.symm hfe)).trans hs
      rw [Search.relax]
      split_ifs
      · exact hs
      · cases s.scores.get f.target with
        | none => exact hrec _
        | some old =>
          dsimp only
          split_ifs
          · exact hrec _
          · exact hs

end

variable {std : Containers} {g : Digraph N W} {P : W → Prop} {start : N}

/-- The invariant of the loop, with the arcs of `waived` still to be relaxed. -/
structure Inv (g : Digraph N W) (P : W → Prop) (start : N) (waived : List (Arc N W))
    (s : Search std N W) : Prop where
  start_score : s.scores.get start = some default
  start_visited : s.visited ≠ [] → start ∈ s.visited
  valid : ∀ {v d}, s.scores.get v = some d → P d
  reached : ∀ {v d}, s.scores.get v = some d → g.Reaches start v
  came_from : ∀ {v d}, s.scores.get v = some d → v ≠ start →
    ∃ e ∈ g.edges, e.target = v ∧ e.source ∈ s.visited ∧
      ∃ d', s.scores.get e.source = some d' ∧ d = d' + e.weight
  queued : ∀ {v d}, s.scores.get v = some d → v ∉ s.visited → (d, v) ∈ std.items s.visitNext
  scored : ∀ {v d}, (d, v) ∈ std.items s.visitNext →
    P d ∧ ∃ d', s.scores.get v = some d' ∧ (v ∉ s.visited → ¬d < d')
  visited_scored : ∀ v ∈ s.visited, v ∈ s.scores.keys
  closed : ∀ e ∈ g.edges, e.source ∈ s.visited → e ∉ waived → e.target ∈ s.scores.keys

omit [Add W] in
theorem items_init (std : Containers) (start : N) :
    std.items (init std start : Search std N W).visitNext = {(default, start)} := by
  rw [init, std.items_push, std.items_empty]
  rfl

theorem init_inv (hP : Scoring g P) : (init std start : Search std N W).Inv g P start [] := by
  have hget : ∀ {v d}, (init std start : Search std N W).scores.get v = some d →
      v = start ∧ d = default := by
    intro v d h
    rw [init, SortedMap.get_insert] at h
    split_ifs at h with hv
    · exact ⟨hv, (Option.some.inj h).symm⟩
    · cases h
  have hitems := items_init (W := W) std start
  refine ⟨SortedMap.get_insert_self _ _ _, absurd rfl, ?_, ?_, ?_, ?_, ?_, ?_, ?_⟩
  · intro v d h
    exact (hget h).2 ▸ hP.start
  · intro v d h
    exact (hget h).1 ▸ .refl
  · intro v d h hv
    exact absurd (hget h).1 hv
  · intro v d h _
    obtain ⟨rfl, rfl⟩ := hget h
    rw [hitems]
    exact Multiset.mem_singleton_self _
  · intro v d h
    rw [hitems, Multiset.mem_singleton] at h
    obtain ⟨rfl, rfl⟩ := Prod.mk.inj h
    exact ⟨hP.start, default, SortedMap.get_insert_self _ _ _, fun _ ↦ hP.irrefl _⟩
  · intro v hv
    cases hv
  · intro e _ he
    cases he

variable {s : Search std N W} {d : W} {rest : std.Heap (W × N) minScored}

theorem Inv.popped (hP : Scoring g P) (hs : s.Inv g P start []) {v : N}
    (hpop : std.pop s.visitNext = some ((d, v), rest)) (hv : v ∉ s.visited) :
    s.scores.get v = some d := by
  have hmem : (d, v) ∈ std.items s.visitNext := by
    rw [std.items_pop hpop]
    exact Multiset.mem_cons_self _ _
  obtain ⟨hd, d', hd', hnot⟩ := hs.scored hmem
  have hmin := std.pop_greatest hP.ranking hpop (d', v) (hs.queued hd' hv)
  rw [hd', hP.eq_of_not_lt hd (hs.valid hd') (hnot hv) (by simpa [minScored] using hmin)]

theorem Inv.drop (hs : s.Inv g P start []) {v : N}
    (hpop : std.pop s.visitNext = some ((d, v), rest)) (hv : v ∈ s.visited) :
    Inv g P start [] { s with visitNext := rest } := by
  have hitems := std.items_pop hpop
  refine { hs with queued := ?_, scored := ?_ }
  · intro u du hu hu'
    have hmem := hs.queued hu hu'
    rw [hitems, Multiset.mem_cons] at hmem
    refine hmem.resolve_left fun h ↦ hu' ?_
    rw [(Prod.mk.inj h).2]
    exact hv
  · intro u du hu
    refine hs.scored ?_
    rw [hitems]
    exact Multiset.mem_cons_of_mem hu

theorem Inv.settle (hs : s.Inv g P start []) {v : N}
    (hpop : std.pop s.visitNext = some ((d, v), rest)) :
    Inv g P start (g.outgoing v) { s with visited := v :: s.visited, visitNext := rest } := by
  have hitems := std.items_pop hpop
  have hold : ∀ {u du}, (du, u) ∈ std.items rest → (du, u) ∈ std.items s.visitNext := by
    intro u du hu
    rw [hitems]
    exact Multiset.mem_cons_of_mem hu
  have hnotMem : ∀ {u}, u ∉ v :: s.visited → u ≠ v ∧ u ∉ s.visited := by
    intro u hu
    rwa [List.mem_cons, not_or] at hu
  have hmem : (d, v) ∈ std.items s.visitNext := by
    rw [hitems]
    exact Multiset.mem_cons_self _ _
  obtain ⟨_, dv, hdv, _⟩ := hs.scored hmem
  refine { hs with
    start_visited := ?_, came_from := ?_, queued := ?_, scored := ?_, visited_scored := ?_,
    closed := ?_ }
  · intro _
    -- nothing is scored but the start node as long as nothing is visited
    by_cases hstart : v = start
    · exact hstart ▸ List.mem_cons_self
    · obtain ⟨e, _, _, he, _⟩ := hs.came_from hdv hstart
      exact List.mem_cons_of_mem _ (hs.start_visited (List.ne_nil_of_mem he))
  · intro u du hu hne
    obtain ⟨e, he, ht, hv, hd⟩ := hs.came_from hu hne
    exact ⟨e, he, ht, List.mem_cons_of_mem _ hv, hd⟩
  · intro u du hu hu'
    have hmem := hs.queued hu (hnotMem hu').2
    rw [hitems, Multiset.mem_cons] at hmem
    exact hmem.resolve_left fun h ↦ (hnotMem hu').1 (Prod.mk.inj h).2
  · intro u du hu
    obtain ⟨hd, d', hd', hnot⟩ := hs.scored (hold hu)
    exact ⟨hd, d', hd', fun hu' ↦ hnot (hnotMem hu').2⟩
  · intro u hu
    rcases List.mem_cons.mp hu with rfl | hu
    · exact SortedMap.mem_keys_of_get hdv
    · exact hs.visited_scored u hu
  · intro e he hsrc hw
    rcases List.mem_cons.mp hsrc with h | h
    · exact absurd (Digraph.mem_outgoing.mpr ⟨he, h⟩) hw
    · exact hs.closed e he h List.not_mem_nil

variable {l : List (Arc N W)}

theorem Inv.waive {e : Arc N W} (hs : s.Inv g P start (e :: l)) (he : e.target ∈ s.scores.keys) :
    s.Inv g P start l := by
  refine { hs with closed := ?_ }
  intro f hf hsrc hw
  by_cases hfe : f = e
  · exact hfe ▸ he
  · exact hs.closed f hf hsrc fun h ↦ (List.mem_cons.mp h).elim hfe hw

theorem Inv.record (hP : Scoring g P) {e : Arc N W} (hs : s.Inv g P start (e :: l))
    (he : e ∈ g.edges) (hd : s.scores.get e.source = some d) (hsrc : e.source ∈ s.visited)
    (ht : e.target ∉ s.visited)
    (hlt : ∀ old, s.scores.get e.target = some old → d + e.weight < old) :
    (s.record e.target (d + e.weight)).Inv g P start l := by
  have hother : ∀ {v}, v ∈ s.visited →
      (s.record e.target (d + e.weight)).scores.get v = s.scores.get v := by
    intro v hv
    exact SortedMap.get_insert_of_ne fun h ↦ ht (h ▸ hv)
  have hself : (s.record e.target (d + e.weight)).scores.get e.target = some (d + e.weight) :=
    SortedMap.get_insert_self _ _ _
  have hitems : std.items (s.record e.target (d + e.weight)).visitNext =
      (d + e.weight, e.target) ::ₘ std.items s.visitNext := std.items_push _ _
  have hstart : start ∈ s.visited := hs.start_visited (List.ne_nil_of_mem hsrc)
  have hcases : ∀ {v dv}, (s.record e.target (d + e.weight)).scores.get v = some dv →
      v = e.target ∧ dv = d + e.weight ∨ v ≠ e.target ∧ s.scores.get v = some dv := by
    intro v dv h
    by_cases hv : v = e.target
    · subst hv
      exact .inl ⟨rfl, (Option.some.inj (hself.symm.trans h)).symm⟩
    · exact .inr ⟨hv, (SortedMap.get_insert_of_ne hv).symm.trans h⟩
  refine ⟨(hother hstart).trans hs.start_score, hs.start_visited, ?_, ?_, ?_, ?_, ?_, ?_, ?_⟩
  · intro v dv h
    rcases hcases h with ⟨_, rfl⟩ | ⟨_, h⟩
    · exact hP.add (hs.valid hd) he
    · exact hs.valid h
  · intro v dv h
    rcases hcases h with ⟨rfl, _⟩ | ⟨_, h⟩
    · exact (hs.reached hd).tail (Digraph.adj_of_mem he)
    · exact hs.reached h
  · intro v dv h hv
    rcases hcases h with ⟨rfl, rfl⟩ | ⟨_, h⟩
    · exact ⟨e, he, rfl, hsrc, d, (hother hsrc).trans hd, rfl⟩
    · obtain ⟨f, hf, hft, hfs, d', hd', hsum⟩ := hs.came_from h hv
      exact ⟨f, hf, hft, hfs, d', (hother hfs).trans hd', hsum⟩
  · intro v dv h hv
    rw [hitems]
    rcases hcases h with ⟨rfl, rfl⟩ | ⟨_, h⟩
    · exact Multiset.mem_cons_self _ _
    · exact Multiset.mem_cons_of_mem (hs.queued h hv)
  · intro v dv h
    rw [hitems, Multiset.mem_cons] at h
    rcases h with h | h
    · obtain ⟨rfl, rfl⟩ := Prod.mk.inj h
      exact ⟨hP.add (hs.valid hd) he, _, hself, fun _ ↦ hP.irrefl _⟩
    · obtain ⟨hdv, d', hd', hnot⟩ := hs.scored h
      by_cases hv : v = e.target
      · subst hv
        refine ⟨hdv, _, hself, fun hv hlt' ↦ hnot hv ?_⟩
        exact hP.trans hlt' (hlt d' hd')
      · exact ⟨hdv, d', (SortedMap.get_insert_of_ne hv).trans hd', hnot⟩
  · intro v hv
    exact SortedMap.mem_keys_insert.mpr (.inr (hs.visited_scored v hv))
  · intro f hf hfs hw
    by_cases hfe : f = e
    · exact SortedMap.mem_keys_insert.mpr (.inl (hfe ▸ rfl))
    · refine SortedMap.mem_keys_insert.mpr (.inr (hs.closed f hf hfs fun h ↦ ?_))
      exact (List.mem_cons.mp h).elim hfe hw

theorem Inv.relax (hP : Scoring g P) {e : Arc N W} (hs : s.Inv g P start (e :: l))
    (he : e ∈ g.edges) (hd : s.scores.get e.source = some d) (hsrc : e.source ∈ s.visited) :
    (s.relax d e).Inv g P start l ∧ (s.relax d e).scores.get e.source = some d ∧
      (s.relax d e).visited = s.visited := by
  by_cases ht : e.target ∈ s.visited
  · rw [Search.relax, if_pos ht]
    exact ⟨hs.waive (hs.visited_scored _ ht), hd, rfl⟩
  have hrec : (s.record e.target (d + e.weight)).scores.get e.source = some d :=
    (SortedMap.get_insert_of_ne (hP.loopless e he)).trans hd
  rw [Search.relax, if_neg ht]
  cases hold : s.scores.get e.target with
  | none =>
    refine ⟨hs.record hP he hd hsrc ht fun old h ↦ ?_, hrec, rfl⟩
    rw [hold] at h
    cases h
  | some old =>
    dsimp only
    split_ifs with hlt
    · refine ⟨hs.record hP he hd hsrc ht fun old' h ↦ ?_, hrec, rfl⟩
      rw [hold] at h
      exact Option.some.inj h ▸ hlt
    · exact ⟨hs.waive (SortedMap.mem_keys_of_get hold), hd, rfl⟩

theorem Inv.foldl_relax (hP : Scoring g P) {v : N} (hl : ∀ e ∈ l, e ∈ g.edges ∧ e.source = v)
    (hs : s.Inv g P start l) (hd : s.scores.get v = some d) (hv : v ∈ s.visited) :
    (l.foldl (Search.relax d) s).Inv g P start [] := by
  induction l generalizing s with
  | nil => exact hs
  | cons e l ih =>
    obtain ⟨he, rfl⟩ := hl e List.mem_cons_self
    obtain ⟨hs', hd', hvis⟩ := hs.relax hP he hd hv
    exact ih (fun f hf ↦ hl f (List.mem_cons_of_mem e hf)) hs' hd' (hvis ▸ hv)

theorem Inv.visit (hP : Scoring g P) (hs : s.Inv g P start []) {v : N}
    (hpop : std.pop s.visitNext = some ((d, v), rest)) (hv : v ∉ s.visited) :
    (Search.visit g v d { s with visitNext := rest }).Inv g P start [] := by
  have hout : ∀ e ∈ g.outgoing v, e ∈ g.edges ∧ e.source = v := fun e he ↦
    Digraph.mem_outgoing.mp he
  have hne : ∀ e ∈ g.outgoing v, e.target ≠ v := by
    intro e he ht
    exact hP.loopless e (hout e he).1 ((hout e he).2.trans ht.symm)
  have hfold : Search.visit g v d { s with visitNext := rest } = (g.outgoing v).foldl
      (Search.relax d) { s with visited := v :: s.visited, visitNext := rest } :=
    (foldl_relax_mark hne { s with visitNext := rest }).symm
  rw [hfold]
  exact (hs.settle hpop).foldl_relax hP hout (hs.popped hP hpop hv) List.mem_cons_self

def budget (g : Digraph N W) (s : Search std N W) : ℕ :=
  (std.items s.visitNext).card + g.pending s.visited

omit [Add W] [Inhabited W] in
theorem budget_drop {x : W × N} (hpop : std.pop s.visitNext = some (x, rest)) :
    budget g { s with visitNext := rest } + 1 = s.budget g := by
  simp only [budget, std.items_pop hpop, Multiset.card_cons]
  omega

omit [Inhabited W] in
theorem budget_visit {v : N} (hv : v ∉ s.visited) :
    (s.visit g v d).budget g ≤ s.budget g := by
  have hcard := card_foldl_relax_le s d (g.outgoing v)
  have hpending := g.pending_cons hv
  have hvis : (s.visit g v d).visited = v :: s.visited :=
    congrArg (v :: ·) (foldl_relax_visited s d (g.outgoing v))
  rw [budget, budget, hvis]
  change (std.items ((g.outgoing v).foldl (relax d) s).visitNext).card + _ ≤ _
  omega

end Search

structure Labels (g : Digraph N W) (P : W → Prop) (start : N) (scores : SortedMap N W) : Prop where
  start_score : scores.get start = some default
  valid : ∀ {v d}, scores.get v = some d → P d
  reached : ∀ {v d}, scores.get v = some d → g.Reaches start v
  came_from : ∀ {v d}, scores.get v = some d → v ≠ start →
    ∃ e ∈ g.edges, e.target = v ∧ ∃ d', scores.get e.source = some d' ∧ d = d' + e.weight

namespace Search

variable {std : Containers} {g : Digraph N W} {P : W → Prop} {start : N}

variable {s : Search std N W}

theorem Inv.labels (hs : s.Inv g P start []) :
    Labels g P start s.scores where
  start_score := hs.start_score
  valid := hs.valid
  reached := hs.reached
  came_from := by
    intro v d h hv
    obtain ⟨e, he, ht, _, hd⟩ := hs.came_from h hv
    exact ⟨e, he, ht, hd⟩

theorem Inv.complete (hs : s.Inv g P start []) (h : std.items s.visitNext = 0) {v : N}
    (hv : g.Reaches start v) : v ∈ s.scores.keys := by
  induction hv with
  | refl => exact SortedMap.mem_keys_of_get hs.start_score
  | tail _ hbc ih =>
    obtain ⟨e, he, rfl, rfl⟩ := hbc
    obtain ⟨d, hd⟩ := SortedMap.exists_get ih
    refine hs.closed e he ?_ List.not_mem_nil
    by_contra hnot
    have hq := hs.queued hd hnot
    rw [h] at hq
    exact Multiset.notMem_zero _ hq

theorem loop_labels (hP : Scoring g P) {goal : Option N} {fuel : ℕ} (hs : s.Inv g P start [])
    (hfuel : s.budget g < fuel) :
    Labels g P start (s.loop g goal fuel).scores ∧
      ((∀ v, g.Reaches start v → v ∈ (s.loop g goal fuel).scores.keys) ∨
        ∃ v, goal = some v ∧ v ∈ (s.loop g goal fuel).scores.keys) := by
  induction fuel generalizing s with
  | zero => omega
  | succ fuel ih =>
    rw [Search.loop]
    split
    · next hpop => exact ⟨hs.labels, .inl fun v ↦ hs.complete (std.pop_none.mp hpop)⟩
    · next d v rest hpop =>
      have hdrop := budget_drop (g := g) hpop
      split_ifs with hv hgoal
      · exact ih (hs.drop hpop hv) (by omega)
      · exact ⟨hs.labels, .inr ⟨v, hgoal, SortedMap.mem_keys_of_get (hs.popped hP hpop hv)⟩⟩
      · have hvisit := budget_visit (g := g) (s := { s with visitNext := rest }) (d := d) hv
        exact ih (hs.visit hP hpop hv) (by omega)

theorem loop_preserves (hP : Scoring g P) {J : List N → SortedMap N W → Prop}
    (hvisit : ∀ (s : Search std N W) d v rest, s.Inv g P start [] → J s.visited s.scores →
      std.pop s.visitNext = some ((d, v), rest) → v ∉ s.visited →
      J (visit g v d { s with visitNext := rest }).visited
        (visit g v d { s with visitNext := rest }).scores) {goal : Option N} {fuel : ℕ}
    (hs : s.Inv g P start []) (hJ : J s.visited s.scores) :
    ∃ visited, J visited (s.loop g goal fuel).scores := by
  induction fuel generalizing s with
  | zero => exact ⟨s.visited, hJ⟩
  | succ fuel ih =>
    rw [Search.loop]
    split
    · exact ⟨s.visited, hJ⟩
    · next d v rest hpop =>
      split_ifs with hv hgoal
      · exact ih (hs.drop hpop hv) hJ
      · exact ⟨s.visited, hJ⟩
      · exact ih (hs.visit hP hpop hv) (hvisit s d v rest hs hJ hpop hv)

omit [Add W] in
theorem budget_init : (init std start : Search std N W).budget g ≤ g.edges.length + 1 := by
  have hpending : g.pending [] ≤ g.edges.length := List.countP_le_length
  rw [budget, items_init, Multiset.card_singleton]
  change 1 + g.pending [] ≤ _
  omega

end Search

section dijkstra

variable {std : Containers} {g : Digraph N W} {P : W → Prop}

theorem dijkstra_run (std : Containers) (hP : Scoring g P) (start : N) (goal : Option N) :
    Labels g P start (dijkstra std g start goal) ∧
      ((∀ v, g.Reaches start v → v ∈ (dijkstra std g start goal).keys) ∨
        ∃ v, goal = some v ∧ v ∈ (dijkstra std g start goal).keys) :=
  Search.loop_labels hP (Search.init_inv hP) (Nat.lt_succ_of_le Search.budget_init)

theorem mem_dijkstra_none (hP : Scoring g P) {start v : N} :
    v ∈ (dijkstra std g start none).keys ↔ g.Reaches start v := by
  obtain ⟨hlabels, hall⟩ := dijkstra_run std hP start none
  constructor
  · intro h
    obtain ⟨d, hd⟩ := SortedMap.exists_get h
    exact hlabels.reached hd
  · rcases hall with h | ⟨u, hu, _⟩
    · exact h v
    · cases hu

theorem mem_dijkstra_goal (hP : Scoring g P) {start goal : N} (h : g.Reaches start goal) :
    goal ∈ (dijkstra std g start (some goal)).keys := by
  rcases (dijkstra_run std hP start (some goal)).2 with hall | ⟨u, hu, hmem⟩
  · exact hall goal h
  · exact Option.some.inj hu ▸ hmem

omit [Add W] in
theorem pop_init (std : Containers) (start : N) :
    ∃ rest, std.pop (Search.init std start : Search std N W).visitNext =
      some ((default, start), rest) := by
  have hitems := Search.items_init (W := W) std start
  cases hpop : std.pop (Search.init std start : Search std N W).visitNext with
  | none =>
    rw [std.pop_none, hitems] at hpop
    exact absurd hpop (Multiset.singleton_ne_zero _)
  | some x =>
    have hx : std.items (Search.init std start).visitNext = x.1 ::ₘ std.items x.2 :=
      std.items_pop hpop
    rw [hitems] at hx
    have hmem : x.1 ∈ ({(default, start)} : Multiset (W × N)) := hx ▸ Multiset.mem_cons_self _ _
    exact ⟨x.2, by rw [← Multiset.mem_singleton.mp hmem]⟩

theorem dijkstra_self (std : Containers) (g : Digraph N W) (start : N) :
    dijkstra std g start (some start) = SortedMap.empty.insert start default := by
  obtain ⟨rest, hpop⟩ := pop_init (W := W) std start
  rw [dijkstra, Search.loop, hpop]
  have hnot : start ∉ (Search.init std start : Search std N W).visited := List.not_mem_nil
  simp only [if_neg hnot, if_true]
  rfl

/-- The score that the start gives to a node stays if no score that may come off the queue before
it leads to a smaller one. -/
theorem dijkstra_get_of_held (hP : Scoring g P) {start : N} {goal : Option N} {e : Arc N W}
    (he : e ∈ g.edges) (hsrc : e.source = start) (hgoal : goal ≠ some start)
    (hunique : ∀ f ∈ g.edges, f.source = start → f.target = e.target → f = e)
    (hheld : ∀ d, P d → ¬default + e.weight < d → ∀ f ∈ g.edges, f.target = e.target →
      ¬d + f.weight < default + e.weight) :
    (dijkstra std g start goal).get e.target = some (default + e.weight) := by
  have hvisit : ∀ (s : Search std N W) d v rest, s.Inv g P start [] →
      s.scores.get e.target = some (default + e.weight) →
      std.pop s.visitNext = some ((d, v), rest) → v ∉ s.visited →
      (Search.visit g v d { s with visitNext := rest }).scores.get e.target =
        some (default + e.weight) := by
    intro s d v rest hs hJ hpop hv
    refine Search.get_foldl_relax_of_not_lt hJ fun f hf hft ↦ ?_
    by_cases hvis : e.target ∈ s.visited
    · exact .inl hvis
    · have hleast := std.pop_greatest hP.ranking hpop _ (hs.queued hJ hvis)
      have hvalid := hs.valid (hs.popped hP hpop hv)
      refine .inr (hheld d hvalid ?_ f (Digraph.mem_outgoing.mp hf).1 hft)
      simpa [minScored] using hleast
  obtain ⟨rest, hpop⟩ := pop_init (W := W) std start
  have hinit : (Search.init std start : Search std N W).Inv g P start [] := Search.init_inv hP
  have hne : e.target ≠ start := fun h ↦ hP.loopless e he (hsrc.trans h.symm)
  have hnot : start ∉ (Search.init std start : Search std N W).visited := List.not_mem_nil
  have hfirst : (Search.visit g start default
      { (Search.init std start : Search std N W) with visitNext := rest }).scores.get e.target =
        some (default + e.weight) := by
    refine Search.get_foldl_relax_of_mem (hP.irrefl _) (Digraph.mem_outgoing.mpr ⟨he, hsrc⟩) ?_
      List.not_mem_nil (SortedMap.get_insert_of_ne hne)
    intro f hf
    obtain ⟨hf, hfs⟩ := Digraph.mem_outgoing.mp hf
    exact hunique f hf hfs
  rw [dijkstra, Search.loop, hpop]
  simp only [if_neg hnot, if_neg hgoal]
  obtain ⟨_, h⟩ := Search.loop_preserves hP
    (J := fun _ scores ↦ scores.get e.target = some (default + e.weight)) hvisit
    (hinit.visit hP hpop hnot) hfirst
  exact h

end dijkstra

end Zaciraci.Lib
