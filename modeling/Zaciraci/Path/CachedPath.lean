import Zaciraci.Lib.Dijkstra
import Zaciraci.Lib.RustStd
import Zaciraci.Path.Edge

namespace Zaciraci.Path

open Zaciraci.Lib

variable {N E : Type} [LinearOrder N] [DecidableEq E] [Add E]

namespace GraphPath

def findPrev (graph : Digraph N E) (goals : SortedMap N E) (target : N) : Option N :=
  (goals.get target).bind fun d ↦
    (graph.incoming target).findSome? fun edge ↦
      (goals.get edge.source).bind fun sd ↦
        let x := sd + edge.weight
        if d = x ∧ sd ≠ x then some edge.source else none

/-- A call that does not return has no fuel that is enough for it. -/
def findPath (graph : Digraph N E) (goals : SortedMap N E) :
    ℕ → SortedMap N (List N) → N → Option (List N × SortedMap N (List N))
  | 0, _, _ => none
  | fuel + 1, paths, goal =>
    match paths.get goal with
    | some result => some (result, paths)
    | none =>
      match findPrev graph goals goal with
      | none => some ([], paths)
      | some prev => do
        let (more, paths) ← findPath graph goals fuel paths prev
        let path := goal :: more
        some (path, paths.insert goal path)

def findAllPath (std : Containers) (fuel : ℕ) (graph : Digraph N E) (goals : SortedMap N E) :
    Option (List (List N)) := do
  let paths ← (std.iter goals.keys).foldlM
    (fun paths goal ↦ (findPath graph goals fuel paths goal).map Prod.snd) .empty
  some ((std.iter paths.entries).map fun entry ↦ entry.2.reverse)

/-- The chain of predecessors of a node, the node itself first. -/
inductive Chain (graph : Digraph N E) (goals : SortedMap N E) : N → List N → Prop
  | stop {v : N} : findPrev graph goals v = none → Chain graph goals v []
  | next {v u : N} {l : List N} : findPrev graph goals v = some u → Chain graph goals u l →
    Chain graph goals v (v :: l)

variable {graph : Digraph N E} {goals : SortedMap N E}

theorem Chain.unique {v : N} {l l' : List N} (h : Chain graph goals v l)
    (h' : Chain graph goals v l') : l = l' := by
  induction h generalizing l' with
  | stop hv =>
    cases h' with
    | stop _ => rfl
    | next hv' _ => rw [hv] at hv'; cases hv'
  | next hv _ ih =>
    cases h' with
    | stop hv' => rw [hv] at hv'; cases hv'
    | next hv' hl' =>
      rw [hv, Option.some.injEq] at hv'
      subst hv'
      rw [ih hl']

theorem findPrev_some {v u : N} (h : findPrev graph goals v = some u) :
    v ∈ goals.keys ∧ u ∈ goals.keys := by
  obtain ⟨d, hd, hfind⟩ := Option.bind_eq_some_iff.mp h
  obtain ⟨e, _, he⟩ := List.exists_of_findSome?_eq_some hfind
  obtain ⟨sd, hsd, hif⟩ := Option.bind_eq_some_iff.mp he
  dsimp only at hif
  split_ifs at hif
  exact ⟨SortedMap.mem_keys_of_get hd, Option.some.inj hif ▸ SortedMap.mem_keys_of_get hsd⟩

def Memo (graph : Digraph N E) (goals : SortedMap N E) (paths : SortedMap N (List N)) : Prop :=
  ∀ v l, paths.get v = some l → l ≠ [] ∧ Chain graph goals v l

theorem findPath_spec {fuel : ℕ} {paths paths' : SortedMap N (List N)} {v : N} {l : List N}
    (hm : Memo graph goals paths) (h : findPath graph goals fuel paths v = some (l, paths')) :
    Chain graph goals v l ∧ Memo graph goals paths' ∧ paths.keys ⊆ paths'.keys ∧
      (l ≠ [] → v ∈ paths'.keys) := by
  induction fuel generalizing paths paths' v l with
  | zero => cases h
  | succ fuel ih =>
    rw [findPath] at h
    split at h
    · next result hget =>
      obtain ⟨rfl, rfl⟩ := Prod.mk.inj (Option.some.inj h)
      exact ⟨(hm v _ hget).2, hm, fun _ ↦ id, fun _ ↦ SortedMap.mem_keys_of_get hget⟩
    · split at h
      · next hprev =>
        obtain ⟨rfl, rfl⟩ := Prod.mk.inj (Option.some.inj h)
        exact ⟨.stop hprev, hm, fun _ ↦ id, absurd rfl⟩
      · next prev hprev =>
        obtain ⟨⟨more, paths₁⟩, hrec, heq⟩ := Option.bind_eq_some_iff.mp h
        obtain ⟨rfl, rfl⟩ := Prod.mk.inj (Option.some.inj heq)
        obtain ⟨hchain, hm₁, hsub, _⟩ := ih hm hrec
        have hv := hchain.next hprev
        refine ⟨hv, ?_, ?_, fun _ ↦ SortedMap.mem_keys_insert.mpr (.inl rfl)⟩
        · intro w l hw
          rw [SortedMap.get_insert] at hw
          split_ifs at hw with hwv
          · obtain rfl := Option.some.inj hw
            exact ⟨List.cons_ne_nil _ _, hwv ▸ hv⟩
          · exact hm₁ w l hw
        · intro w hw
          exact SortedMap.mem_keys_insert.mpr (.inr (hsub hw))

theorem foldlM_findPath_spec {fuel : ℕ} {vs : List N} {paths paths' : SortedMap N (List N)}
    (hm : Memo graph goals paths)
    (h : vs.foldlM (fun paths v ↦ (findPath graph goals fuel paths v).map Prod.snd) paths =
      some paths') :
    Memo graph goals paths' ∧ paths.keys ⊆ paths'.keys ∧
      ∀ v ∈ vs, ∃ l, Chain graph goals v l ∧ (l ≠ [] → v ∈ paths'.keys) := by
  induction vs generalizing paths with
  | nil =>
    obtain rfl := Option.some.inj h
    exact ⟨hm, fun _ ↦ id, by simp⟩
  | cons v vs ih =>
    rw [List.foldlM_cons] at h
    obtain ⟨paths₁, hv, hrest⟩ := Option.bind_eq_some_iff.mp h
    obtain ⟨⟨l, _⟩, hfind, rfl⟩ := Option.map_eq_some_iff.mp hv
    obtain ⟨hchain, hm₁, hsub, hmem⟩ := findPath_spec hm hfind
    obtain ⟨hm', hsub', hall⟩ := ih hm₁ hrest
    refine ⟨hm', fun w hw ↦ hsub' (hsub hw), ?_⟩
    intro w hw
    rcases List.mem_cons.mp hw with rfl | hw
    · exact ⟨l, hchain, fun hl ↦ hsub' (hmem hl)⟩
    · exact hall w hw

theorem chain_cons {v w : N} {l : List N} (h : Chain graph goals v (w :: l)) : w = v := by
  cases h
  rfl

theorem findAllPath_spec {std : Containers} {fuel : ℕ} {ps : List (List N)}
    (h : findAllPath std fuel graph goals = some ps) :
    (ps.map List.getLast?).Nodup ∧ (∀ v ∈ goals.keys, ∃ l, Chain graph goals v l) ∧
      ∀ p, p ∈ ps ↔ ∃ v l, p = (v :: l).reverse ∧ Chain graph goals v (v :: l) := by
  obtain ⟨paths, hfold, heq⟩ := Option.bind_eq_some_iff.mp h
  obtain rfl := Option.some.inj heq
  have hempty : Memo graph goals .empty := by
    intro v l hv
    cases hv
  obtain ⟨hm, _, hall⟩ := foldlM_findPath_spec hempty hfold
  have hentry : ∀ e ∈ paths.entries, ∃ l, e.2 = e.1 :: l ∧ Chain graph goals e.1 (e.1 :: l) := by
    rintro ⟨v, l⟩ he
    obtain ⟨hne, hchain⟩ := hm v l (SortedMap.get_eq_some.mpr he)
    obtain ⟨w, l', rfl⟩ := List.exists_cons_of_ne_nil hne
    obtain rfl := chain_cons hchain
    exact ⟨l', rfl, hchain⟩
  refine ⟨?_, ?_, ?_⟩
  · have hlast : ∀ e ∈ std.iter paths.entries, e.2.reverse.getLast? = some e.1 := by
      intro e he
      obtain ⟨l, hl, _⟩ := hentry e (std.mem_iter.mp he)
      simp [hl]
    rw [List.map_map, List.map_congr_left (g := fun e ↦ some e.1) hlast]
    have hkeys : ((std.iter paths.entries).map Prod.fst).Nodup :=
      ((std.iter_perm paths.entries).map Prod.fst).nodup_iff.mpr paths.keys_nodup
    have hsome := hkeys.map (Option.some_injective N)
    rwa [List.map_map] at hsome
  · intro v hv
    obtain ⟨l, hl, _⟩ := hall v (std.mem_iter.mpr hv)
    exact ⟨l, hl⟩
  · intro p
    rw [List.mem_map]
    constructor
    · rintro ⟨e, he, rfl⟩
      obtain ⟨l, hl, hchain⟩ := hentry e (std.mem_iter.mp he)
      exact ⟨e.1, l, congrArg List.reverse hl, hchain⟩
    · rintro ⟨v, l, rfl, hchain⟩
      have hv : v ∈ goals.keys := by
        cases hchain with
        | next hprev _ => exact (findPrev_some hprev).1
      obtain ⟨l', hl', hmem⟩ := hall v (std.mem_iter.mpr hv)
      obtain rfl := hchain.unique hl'
      obtain ⟨l₂, hl₂⟩ := SortedMap.exists_get (hmem (List.cons_ne_nil _ _))
      obtain rfl := hchain.unique (hm v l₂ hl₂).2
      exact ⟨(v, v :: l), std.mem_iter.mpr (SortedMap.get_eq_some.mp hl₂), rfl⟩

end GraphPath

abbrev PathToOut (N : Type) [LinearOrder N] := SortedMap N (List N)

structure CachedPath (N E : Type) [LinearOrder N] where
  graph : Digraph N E
  cachedPath : SortedMap N (PathToOut N)

namespace CachedPath

variable [ToString N] [Inhabited E] [LT E] [DecidableLT E]

def new (graph : Digraph N E) : CachedPath N E := ⟨graph, .empty⟩

def nodeIndex (cache : CachedPath N E) (token : N) : Except (Failure N) N :=
  if token ∈ cache.graph.nodes then .ok token
  else .error (.dex (.tokenNotFound (toString token)))

def recordPath (found : PathToOut N × List N) (path : List N) : PathToOut N × List N :=
  match path.getLast? with
  | some out => (found.1.insert out path.dropLast, found.2 ++ [out])
  | none => found

def search (std : Containers) (fuel : ℕ) (graph : Digraph N E) (start : N) (goal : Option N) :
    Option (PathToOut N × List N) := do
  let goals := dijkstra std graph start goal
  let paths ← GraphPath.findAllPath std fuel graph goals
  some (paths.foldl recordPath (.empty, []))

def store (cache : CachedPath N E) (start : N) (pathToOuts : PathToOut N) : CachedPath N E :=
  if pathToOuts.entries = [] then cache
  else { cache with cachedPath := cache.cachedPath.insert start pathToOuts }

def resolve (cache : CachedPath N E) (start : N) (goal : Option N) :
    Except (Failure N) (N × Option N) := do
  let start ← cache.nodeIndex start
  let goal ← match goal with
    | some goal => (cache.nodeIndex goal).map some
    | none => .ok none
  pure (start, goal)

/-- The part of `update_path` behind the cache. -/
def computePath (std : Containers) (fuel : ℕ) (cache : CachedPath N E) (start : N)
    (goal : Option N) : Option (Except (Failure N) (List N) × CachedPath N E) :=
  match cache.resolve start goal with
  | .error e => some (.error e, cache)
  | .ok (start, goal) => do
    let (pathToOuts, outs) ← search std fuel cache.graph start goal
    some (.ok outs, cache.store start pathToOuts)

def updatePath (std : Containers) (fuel : ℕ) (cache : CachedPath N E) (start : N)
    (goal : Option N) : Option (Except (Failure N) (List N) × CachedPath N E) :=
  match goal, cache.cachedPath.get start with
  | none, some pathToOuts => some (.ok (std.iter pathToOuts.keys), cache)
  | _, _ => cache.computePath std fuel start goal

def getWeight (cache : CachedPath N E) (tokenIn tokenOut : N) : Except (Failure N) E := do
  let source ← cache.nodeIndex tokenIn
  let target ← cache.nodeIndex tokenOut
  match cache.graph.findEdge source target with
  | some edge => pure edge.weight
  | none => .error (.invalidEdge tokenIn tokenOut)

def getPath (cache : CachedPath N E) (start goal : N) : Except (Failure N) (List N) :=
  match cache.cachedPath.get start with
  | none => .error (.startTokenNotFound start goal)
  | some pathToOuts =>
    match pathToOuts.get goal with
    | none => .error (.goalTokenNotFound start goal)
    | some path => .ok path

/-- The weights along `path` from `prev`, and on to `goal`. -/
def walk (cache : CachedPath N E) (goal : N) : N → List N → Except (Failure N) (List E)
  | prev, [] => do
    let edge ← cache.getWeight prev goal
    pure [edge]
  | prev, token :: path => do
    let edge ← cache.getWeight prev token
    let edges ← walk cache goal token path
    pure (edge :: edges)

def getEdges (cache : CachedPath N E) (start goal : N) : Except (Failure N) (List E) := do
  let path ← cache.getPath start goal
  cache.walk goal start path

end CachedPath

namespace CachedPath

section

variable {N E : Type} [LinearOrder N] {cache : CachedPath N E} {start : N}

theorem store_graph (start : N) (pathToOuts : PathToOut N) :
    (cache.store start pathToOuts).graph = cache.graph := by
  rw [store]
  split_ifs <;> rfl

theorem get_store_of_ne {v : N} (h : v ≠ start) (pathToOuts : PathToOut N) :
    (cache.store start pathToOuts).cachedPath.get v = cache.cachedPath.get v := by
  rw [store]
  split_ifs
  · rfl
  · exact SortedMap.get_insert_of_ne h

variable [ToString N]

theorem nodeIndex_of_mem (h : start ∈ cache.graph.nodes) : cache.nodeIndex start = .ok start :=
  if_pos h

theorem resolve_eq_ok {goal : Option N} {s : N} {g : Option N}
    (h : cache.resolve start goal = .ok (s, g)) : s = start ∧ g = goal := by
  have hindex : ∀ {token n}, cache.nodeIndex token = .ok n → n = token := by
    intro token n hn
    rw [nodeIndex] at hn
    split_ifs at hn
    exact (Except.ok.inj hn).symm
  obtain ⟨n, hn, hrest⟩ := except_bind_eq_ok.1 h
  obtain rfl := hindex hn
  cases goal with
  | none =>
    cases hrest
    exact ⟨rfl, rfl⟩
  | some goal =>
    obtain ⟨g', hg', hdone⟩ := except_bind_eq_ok.1 hrest
    cases hdone
    cases hg : cache.nodeIndex goal with
    | error e =>
      rw [hg] at hg'
      cases hg'
    | ok m =>
      rw [hg] at hg'
      cases hg'
      exact ⟨rfl, congrArg some (hindex hg)⟩

theorem resolve_of_mem {goal : Option N} (hstart : start ∈ cache.graph.nodes)
    (hgoal : ∀ g, goal = some g → g ∈ cache.graph.nodes) :
    cache.resolve start goal = .ok (start, goal) := by
  rw [resolve, nodeIndex_of_mem hstart]
  cases goal with
  | none => rfl
  | some g =>
    change (do let goal ← (cache.nodeIndex g).map some; pure (start, goal)) = _
    rw [nodeIndex_of_mem (hgoal g rfl)]
    rfl

theorem cached_of_getEdges {goal : N} {edges : List E}
    (h : cache.getEdges start goal = .ok edges) :
    ∃ m q, cache.cachedPath.get start = some m ∧ m.get goal = some q ∧
      cache.walk goal start q = .ok edges := by
  obtain ⟨q, hq, hwalk⟩ := except_bind_eq_ok.1 h
  rw [getPath] at hq
  split at hq
  · cases hq
  · next m hm =>
    split at hq
    · cases hq
    · next q' hq' =>
      cases hq
      exact ⟨m, _, hm, hq', hwalk⟩

end

structure Recorded (seen : List (List N)) (found : PathToOut N × List N) : Prop where
  get : ∀ {v q}, found.1.get v = some q ↔ q ++ [v] ∈ seen
  outs : ∀ {v}, v ∈ found.2 ↔ v ∈ found.1.keys
  nodup : found.2.Nodup

theorem recorded_nil : Recorded ([] : List (List N)) (.empty, []) where
  get := by simp
  outs := by simp [SortedMap.keys, SortedMap.empty]
  nodup := .nil

theorem Recorded.recordPath {seen : List (List N)} {found : PathToOut N × List N}
    (h : Recorded seen found) {p : List N} (hp : p ≠ [])
    (hnew : p.getLast? ∉ seen.map List.getLast?) :
    Recorded (seen ++ [p]) (recordPath found p) := by
  obtain ⟨q, out, rfl⟩ : ∃ q out, p = q ++ [out] :=
    ⟨p.dropLast, p.getLast hp, (List.dropLast_append_getLast hp).symm⟩
  have hfresh : ∀ q', q' ++ [out] ∉ seen := by
    intro q' hq'
    exact hnew (List.mem_map.mpr ⟨_, hq', by simp⟩)
  have hout : out ∉ found.1.keys := by
    intro hk
    obtain ⟨q', hq'⟩ := SortedMap.exists_get hk
    exact hfresh q' (h.get.mp hq')
  have hrec : CachedPath.recordPath found (q ++ [out]) =
      (found.1.insert out q, found.2 ++ [out]) := by
    simp [CachedPath.recordPath]
  rw [hrec]
  refine ⟨?_, ?_, ?_⟩
  · intro v q'
    rw [SortedMap.get_insert, List.mem_append, List.mem_singleton]
    by_cases hv : v = out
    · subst hv
      rw [if_pos rfl, Option.some.injEq]
      constructor
      · rintro rfl
        exact .inr rfl
      · rintro (hq | hq)
        · exact absurd hq (hfresh q')
        · exact (List.append_cancel_right hq).symm
    · rw [if_neg hv, h.get]
      constructor
      · exact .inl
      · rintro (hq | hq)
        · exact hq
        · exact absurd (List.cons.inj (List.append_inj_right' hq rfl)).1 hv
  · intro v
    rw [List.mem_append, List.mem_singleton, SortedMap.mem_keys_insert, h.outs]
    exact Or.comm
  · rw [List.nodup_append]
    refine ⟨h.nodup, List.nodup_singleton _, ?_⟩
    rintro v hv w hw rfl
    exact hout (List.mem_singleton.mp hw ▸ h.outs.mp hv)

theorem Recorded.foldl {seen l : List (List N)} {found : PathToOut N × List N}
    (h : Recorded seen found) (hl : ∀ p ∈ l, p ≠ [])
    (hnodup : ((seen ++ l).map List.getLast?).Nodup) :
    Recorded (seen ++ l) (l.foldl CachedPath.recordPath found) := by
  induction l generalizing seen found with
  | nil => simpa using h
  | cons p l ih =>
    have hassoc : seen ++ p :: l = seen ++ [p] ++ l := by simp
    have hnew : p.getLast? ∉ seen.map List.getLast? := by
      rw [List.map_append, List.nodup_append] at hnodup
      exact fun hmem ↦ hnodup.2.2 _ hmem _ (List.mem_map_of_mem List.mem_cons_self) rfl
    rw [List.foldl_cons, hassoc]
    rw [hassoc] at hnodup
    exact ih (h.recordPath (hl p List.mem_cons_self) hnew)
      (fun q hq ↦ hl q (List.mem_cons_of_mem p hq)) hnodup

/-- What a completed search has found: for every node with a predecessor, the nodes strictly
between the start and it. -/
structure Found (graph : Digraph N E) (goals : SortedMap N E) (pathToOuts : PathToOut N)
    (outs : List N) : Prop where
  get : ∀ {v q}, pathToOuts.get v = some q ↔ GraphPath.Chain graph goals v (v :: q.reverse)
  mem_outs : ∀ {v}, v ∈ outs ↔ v ∈ pathToOuts.keys
  nodup : outs.Nodup
  chains : ∀ v ∈ goals.keys, ∃ l, GraphPath.Chain graph goals v l

theorem Found.mem_keys {graph : Digraph N E} {goals : SortedMap N E} {m : PathToOut N}
    {outs : List N} (h : Found graph goals m outs) {v : N} :
    v ∈ m.keys ↔ ∃ u, GraphPath.findPrev graph goals v = some u := by
  constructor
  · intro hv
    obtain ⟨q, hq⟩ := SortedMap.exists_get hv
    cases h.get.mp hq with
    | next hprev _ => exact ⟨_, hprev⟩
  · rintro ⟨u, hu⟩
    obtain ⟨l, hl⟩ := h.chains u (GraphPath.findPrev_some hu).2
    have hchain := hl.next hu
    exact SortedMap.mem_keys_of_get (h.get.mpr ((List.reverse_reverse l).symm ▸ hchain))

variable [Inhabited E] [LT E] [DecidableLT E]

variable {goal : Option N}

theorem found_search {std : Containers} {fuel : ℕ} {graph : Digraph N E} {start : N}
    {pathToOuts : PathToOut N} {outs : List N}
    (h : search std fuel graph start goal = some (pathToOuts, outs)) :
    Found graph (dijkstra std graph start goal) pathToOuts outs := by
  obtain ⟨ps, hps, heq⟩ := Option.bind_eq_some_iff.mp h
  obtain ⟨hnodup, hchains, hmem⟩ := GraphPath.findAllPath_spec hps
  have hne : ∀ p ∈ ps, p ≠ [] := by
    rintro p hp rfl
    obtain ⟨v, l, hl, _⟩ := (hmem []).mp hp
    simp at hl
  have hrec := recorded_nil.foldl hne (by simpa using hnodup)
  rw [List.nil_append, Option.some.inj heq] at hrec
  refine ⟨?_, hrec.outs, hrec.nodup, hchains⟩
  intro v q
  rw [hrec.get, hmem]
  constructor
  · rintro ⟨w, l, hl, hchain⟩
    rw [List.reverse_cons] at hl
    obtain ⟨rfl, hw⟩ := List.append_inj' hl rfl
    obtain rfl := (List.cons.inj hw).1
    rwa [List.reverse_reverse]
  · intro hchain
    exact ⟨v, q.reverse, by simp, hchain⟩

variable [ToString N] {std : Containers} {fuel : ℕ} {cache : CachedPath N E} {start : N}

theorem computePath_of_mem (hstart : start ∈ cache.graph.nodes)
    (hgoal : ∀ g, goal = some g → g ∈ cache.graph.nodes) :
    cache.computePath std fuel start goal = (search std fuel cache.graph start goal).map
      fun found ↦ (.ok found.2, cache.store start found.1) := by
  rw [computePath, resolve_of_mem hstart hgoal]
  dsimp only
  cases search std fuel cache.graph start goal <;> rfl

theorem updatePath_returns (h : ∃ found, search std fuel cache.graph start goal = some found) :
    ∃ r, cache.updatePath std fuel start goal = some r := by
  have hcompute : ∃ r, cache.computePath std fuel start goal = some r := by
    obtain ⟨found, hfound⟩ := h
    rw [computePath]
    split
    · exact ⟨_, rfl⟩
    · next s g hresolve =>
      obtain ⟨rfl, rfl⟩ := resolve_eq_ok hresolve
      rw [hfound]
      exact ⟨_, rfl⟩
  unfold updatePath
  split
  · exact ⟨_, rfl⟩
  · exact hcompute

theorem updatePath_some (g : N) :
    cache.updatePath std fuel start (some g) = cache.computePath std fuel start (some g) := rfl

theorem updatePath_of_get {pathToOuts : PathToOut N}
    (h : cache.cachedPath.get start = some pathToOuts) :
    cache.updatePath std fuel start none = some (.ok (std.iter pathToOuts.keys), cache) := by
  simp only [updatePath, h]

theorem updatePath_of_not_get (h : cache.cachedPath.get start = none) :
    cache.updatePath std fuel start none = cache.computePath std fuel start none := by
  simp only [updatePath, h]

theorem graph_of_updatePath {r : Except (Failure N) (List N)} {cache' : CachedPath N E}
    (h : cache.updatePath std fuel start goal = some (r, cache')) :
    cache'.graph = cache.graph := by
  have hcompute : cache.computePath std fuel start goal = some (r, cache') →
      cache'.graph = cache.graph := by
    intro h
    rw [computePath] at h
    split at h
    · obtain ⟨-, rfl⟩ := Prod.mk.inj (Option.some.inj h)
      rfl
    · obtain ⟨found, -, hstore⟩ := Option.bind_eq_some_iff.1 h
      obtain ⟨-, rfl⟩ := Prod.mk.inj (Option.some.inj hstore)
      exact store_graph _ _
  unfold updatePath at h
  split at h
  · obtain ⟨-, rfl⟩ := Prod.mk.inj (Option.some.inj h)
    rfl
  · exact hcompute h

end CachedPath

end Zaciraci.Path
