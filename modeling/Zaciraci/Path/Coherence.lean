import Zaciraci.Path.Reachability

namespace Zaciraci.Path.TokenGraph

open Zaciraci.Lib Zaciraci.Dex

def history (std : Containers) (fuel : ℕ) (starts : List TokenAccount) (tokens : TokenGraph) :
    Option TokenGraph :=
  starts.foldlM (fun tokens start ↦ (updateGraph std fuel tokens start).map Prod.snd) tokens

theorem frame_of_history {std : Containers} {fuel : ℕ} {starts : List TokenAccount}
    {tokens tokens' : TokenGraph} (h : history std fuel starts tokens = some tokens') :
    tokens'.pools = tokens.pools ∧ tokens'.graph.graph = tokens.graph.graph := by
  induction starts generalizing tokens with
  | nil =>
    obtain rfl := Option.some.inj h
    exact ⟨rfl, rfl⟩
  | cons start starts ih =>
    obtain ⟨tokens₁, hfirst, hrest⟩ := Option.bind_eq_some_iff.1 h
    obtain ⟨⟨r, _⟩, hcall, rfl⟩ := Option.map_eq_some_iff.1 hfirst
    obtain ⟨hpools, hgraph⟩ := frame_of_updateGraph hcall
    obtain ⟨hpools', hgraph'⟩ := ih hrest
    exact ⟨hpools'.trans hpools, hgraph'.trans hgraph⟩

def SameAnswer :
    Except (Failure TokenAccount) (List TokenAccount) →
      Except (Failure TokenAccount) (List TokenAccount) → Prop
  | .ok goals, .ok goals' => ∀ g, g ∈ goals ↔ g ∈ goals'
  | .error e, .error e' => e = e'
  | _, _ => False

/-- After the calls of `before`, the call with start `s` answers as it would on a fresh graph, and
so does `get_path` from `s` once the calls of `after` have been made too. -/
def CallCoherent (std : Containers) (fuel : ℕ) (pools : PoolInfoList) (before : List TokenAccount)
    (s : TokenAccount) (after : List TokenAccount) : Prop :=
  ∀ tokens₁ r tokens₂ tokens₃, history std fuel before (new std pools) = some tokens₁ →
    updateGraph std fuel tokens₁ s = some (r, tokens₂) →
    history std fuel after tokens₂ = some tokens₃ →
    ∃ r' fresh, updateGraph std fuel (new std pools) s = some (r', fresh) ∧ SameAnswer r r' ∧
      ∀ goals, r = .ok goals → ∀ g ∈ goals, tokens₃.getPath s g = fresh.getPath s g

def Separated (graph : Digraph TokenAccount EdgeWeight) (starts : List TokenAccount) : Prop :=
  ∀ a ∈ starts, ∀ b ∈ starts, a ≠ b → ¬graph.Reaches a b

section congr

variable {t t' : TokenGraph} {s : TokenAccount}

theorem getWeight_congr (hg : t.graph.graph = t'.graph.graph) (a b : TokenAccount) :
    t.graph.getWeight a b = t'.graph.getWeight a b := by
  simp only [CachedPath.getWeight, CachedPath.nodeIndex, hg]

theorem walk_congr (hg : t.graph.graph = t'.graph.graph) (goal prev : TokenAccount)
    (path : List TokenAccount) : t.graph.walk goal prev path = t'.graph.walk goal prev path := by
  induction path generalizing prev with
  | nil => rw [CachedPath.walk, CachedPath.walk, getWeight_congr hg]
  | cons token path ih => rw [CachedPath.walk, CachedPath.walk, getWeight_congr hg, ih]

theorem getPath_congr (hp : t.pools = t'.pools) (hg : t.graph.graph = t'.graph.graph)
    (hs : t.graph.cachedPath.get s = t'.graph.cachedPath.get s) (goal : TokenAccount) :
    t.getPath s goal = t'.getPath s goal := by
  have hpath : t.graph.getPath s goal = t'.graph.getPath s goal := by
    simp only [CachedPath.getPath, hs]
  have hedges : t.graph.getEdges s goal = t'.graph.getEdges s goal := by
    simp only [CachedPath.getEdges, hpath, walk_congr hg]
  rw [getPath, getPath, hedges, hp]

end congr

variable {std : Containers} {fuel : ℕ} {pools : PoolInfoList} {s a : TokenAccount}
  {tokens tokens' : TokenGraph} {r : Except (Failure TokenAccount) (List TokenAccount)}

/-- A call with another start that does not reach `s` leaves alone what is cached under `s`; so
does a call with `s` itself once its paths are cached. -/
theorem get_of_updateGraph (hsep : a ≠ s → ¬(tokenGraph std pools).Reaches a s)
    (hc : Coherent std fuel pools a tokens)
    (h : updateGraph std fuel tokens a = some (r, tokens')) :
    tokens'.graph.cachedPath.get s = tokens.graph.cachedPath.get s ∨
      a = s ∧ ∃ m outs, CachedPath.search std fuel (tokenGraph std pools) s none = some (m, outs) ∧
        m.entries ≠ [] ∧ tokens'.graph.cachedPath.get s = some m := by
  by_cases ha : a ∈ (tokenGraph std pools).nodes
  swap
  · rw [updateGraph_unknown hc ha] at h
    obtain ⟨_, rfl⟩ := Prod.mk.inj (Option.some.inj h)
    exact .inl rfl
  obtain ⟨m, outs, _, hsearch, _, _, _, _, _, _, hget⟩ := updateGraph_spec hc ha h
  by_cases has : a = s
  · subst has
    rw [hget a (.inl rfl), CachedPath.store]
    split_ifs with hm
    · exact .inl rfl
    · exact .inr ⟨rfl, m, outs, hsearch, hm, SortedMap.get_insert_self _ _ _⟩
  · have hs : s ∉ m.keys := fun hs ↦ hsep has (reaches_of_found hsearch hs)
    rw [hget s (.inr hs), CachedPath.get_store_of_ne (Ne.symm has)]
    exact .inl rfl

theorem Coherent.updateGraph (hsep : a ≠ s → ¬(tokenGraph std pools).Reaches a s)
    (hs : Coherent std fuel pools s tokens) (ha : Coherent std fuel pools a tokens)
    (h : TokenGraph.updateGraph std fuel tokens a = some (r, tokens')) :
    Coherent std fuel pools s tokens' := by
  obtain ⟨hp, hg⟩ := frame_of_updateGraph h
  refine ⟨hp.trans ha.pools_eq, hg.trans ha.graph_eq, fun {m'} hm' ↦ ?_⟩
  rcases get_of_updateGraph hsep ha h with hget | ⟨rfl, m, outs, hsearch, hm, hget⟩
  · exact hs.cached (hget ▸ hm')
  · obtain rfl := Option.some.inj (hget.symm.trans hm')
    refine ⟨?_, hm, outs, hsearch⟩
    by_contra hnot
    rw [updateGraph_unknown ha hnot] at h
    obtain ⟨_, rfl⟩ := Prod.mk.inj (Option.some.inj h)
    exact hnot (ha.cached hget).1

theorem Coherent.get_updateGraph (hsep : a ≠ s → ¬(tokenGraph std pools).Reaches a s)
    (hs : Coherent std fuel pools s tokens) (ha : Coherent std fuel pools a tokens)
    (h : TokenGraph.updateGraph std fuel tokens a = some (r, tokens'))
    {m : PathToOut TokenAccount} (hm : tokens.graph.cachedPath.get s = some m) :
    tokens'.graph.cachedPath.get s = some m := by
  rcases get_of_updateGraph hsep ha h with hget | ⟨_, m', outs', hsearch', _, hget⟩
  · exact hget.trans hm
  · obtain ⟨_, _, outs, hsearch⟩ := hs.cached hm
    obtain ⟨rfl, _⟩ := Prod.mk.inj (Option.some.inj (hsearch.symm.trans hsearch'))
    exact hget

theorem coherent_history {all starts : List TokenAccount}
    (hsep : Separated (tokenGraph std pools) all) (hsub : ∀ x ∈ starts, x ∈ all)
    (hc : ∀ x ∈ all, Coherent std fuel pools x tokens)
    (h : history std fuel starts tokens = some tokens') :
    ∀ x ∈ all, Coherent std fuel pools x tokens' ∧ ∀ m,
      tokens.graph.cachedPath.get x = some m → tokens'.graph.cachedPath.get x = some m := by
  induction starts generalizing tokens with
  | nil =>
    obtain rfl := Option.some.inj h
    exact fun x hx ↦ ⟨hc x hx, fun _ ↦ id⟩
  | cons a starts ih =>
    obtain ⟨tokens₁, hfirst, hrest⟩ := Option.bind_eq_some_iff.mp h
    obtain ⟨⟨r, _⟩, hcall, rfl⟩ := Option.map_eq_some_iff.mp hfirst
    have ha : a ∈ all := hsub a List.mem_cons_self
    have hnext := ih (fun x hx ↦ hsub x (List.mem_cons_of_mem a hx))
      (fun x hx ↦ (hc x hx).updateGraph (hsep a ha x hx) (hc a ha) hcall) hrest
    intro x hx
    refine ⟨(hnext x hx).1, fun m hm ↦ (hnext x hx).2 m ?_⟩
    exact (hc x hx).get_updateGraph (hsep a ha x hx) (hc a ha) hcall hm

theorem get_of_found (hc : Coherent std fuel pools s tokens)
    (hs : s ∈ (tokenGraph std pools).nodes) (h : updateGraph std fuel tokens s = some (r, tokens'))
    {m : PathToOut TokenAccount} {outs : List TokenAccount}
    (hsearch : CachedPath.search std fuel (tokenGraph std pools) s none = some (m, outs))
    (hm : m.entries ≠ []) : tokens'.graph.cachedPath.get s = some m := by
  obtain ⟨m', _, _, hsearch', _, _, _, _, _, _, hget⟩ := updateGraph_spec hc hs h
  obtain ⟨rfl, _⟩ := Prod.mk.inj (Option.some.inj (hsearch.symm.trans hsearch'))
  rw [hget s (.inl rfl), CachedPath.store, if_neg hm]
  exact SortedMap.get_insert_self _ _ _

/-- In every history whose starts are separated, each call and each later path is what it would be
on a fresh graph. -/
theorem callCoherent_of_separated (std : Containers) (fuel : ℕ) (pools : PoolInfoList)
    (before : List TokenAccount) (s : TokenAccount) (after : List TokenAccount)
    (hsep : Separated (tokenGraph std pools) (before ++ s :: after)) :
    CallCoherent std fuel pools before s after := by
  intro tokens₁ r tokens₂ tokens₃ hbefore hcall hafter
  have hs : s ∈ before ++ s :: after := by simp
  have hnew := coherent_new std fuel pools s
  have hc₁ := coherent_history hsep (fun x hx ↦ List.mem_append_left _ hx)
    (fun x _ ↦ coherent_new std fuel pools x) hbefore
  by_cases hnode : s ∈ (tokenGraph std pools).nodes
  swap
  · refine ⟨_, _, updateGraph_unknown hnew hnode, ?_⟩
    rw [updateGraph_unknown (hc₁ s hs).1 hnode] at hcall
    obtain ⟨rfl, _⟩ := Prod.mk.inj (Option.some.inj hcall)
    exact ⟨rfl, fun _ h ↦ by cases h⟩
  obtain ⟨m, outs, outs', hsearch, _, hkeys, rfl, hsome, _⟩ :=
    updateGraph_spec (hc₁ s hs).1 hnode hcall
  obtain ⟨⟨r', fresh⟩, hfresh⟩ := updateGraph_returns hnew hnode hsearch
    fun g hg ↦ hsome g ((hkeys g).mpr hg)
  obtain ⟨m', _, outs'', hsearch', _, hkeys', rfl, _⟩ := updateGraph_spec hnew hnode hfresh
  obtain ⟨rfl, _⟩ := Prod.mk.inj (Option.some.inj (hsearch.symm.trans hsearch'))
  refine ⟨_, fresh, hfresh, ?_, ?_⟩
  · intro g
    rw [List.mem_filter, List.mem_filter, hkeys, hkeys']
  · intro goals hgoals g hg
    obtain rfl := Except.ok.inj hgoals
    have hg' := (hkeys g).mp (List.mem_filter.mp hg).1
    have hm : m.entries ≠ [] := by
      obtain ⟨q, hq⟩ := SortedMap.mem_keys.mp hg'
      exact List.ne_nil_of_mem hq
    have hc₂ : ∀ x ∈ before ++ s :: after, Coherent std fuel pools x tokens₂ := fun x hx ↦
      (hc₁ x hx).1.updateGraph (hsep s hs x hx) (hc₁ s hs).1 hcall
    have hc₃ := coherent_history hsep
      (fun x hx ↦ List.mem_append_right _ (List.mem_cons_of_mem s hx)) hc₂ hafter s hs
    have hget₃ := hc₃.2 m (get_of_found (hc₁ s hs).1 hnode hcall hsearch hm)
    obtain ⟨hp, hgraph⟩ := frame_of_updateGraph hfresh
    refine getPath_congr (hc₃.1.pools_eq.trans hp.symm) (hc₃.1.graph_eq.trans hgraph.symm) ?_ g
    rw [hget₃, get_of_found hnew hnode hfresh hsearch hm]

def islandPools : PoolInfoList :=
  .new [twoTokenPool 0 ⟨"a"⟩ ⟨"b"⟩ 1000 3000, twoTokenPool 1 ⟨"c"⟩ ⟨"d"⟩ 2000 500]

theorem islandPools_separated :
    Separated (tokenGraph .lists islandPools) [⟨"a"⟩, ⟨"c"⟩, ⟨"a"⟩] := by
  have hP : Scoring (tokenGraph .lists islandPools) fun w ↦ w.pairId = none ∧ True :=
    scoring (Q := fun _ ↦ True) trivial fun _ _ _ _ ↦ trivial
  have hreach : ∀ a ∈ [(⟨"a"⟩ : TokenAccount), ⟨"c"⟩, ⟨"a"⟩],
      ∀ b ∈ [(⟨"a"⟩ : TokenAccount), ⟨"c"⟩, ⟨"a"⟩], a ≠ b →
        b ∉ (dijkstra .lists (tokenGraph .lists islandPools) a none).keys := by decide +kernel
  intro a ha b hb hab h
  exact hreach a ha b hb hab ((mem_dijkstra_none hP).mpr h)

theorem callCoherent_of_separated_islands :
    (history .lists 5 [⟨"a"⟩, ⟨"c"⟩, ⟨"a"⟩] (new .lists islandPools)).isSome ∧
      CallCoherent .lists 5 islandPools [⟨"a"⟩] ⟨"c"⟩ [⟨"a"⟩] :=
  ⟨by decide +kernel,
    callCoherent_of_separated .lists 5 islandPools [⟨"a"⟩] ⟨"c"⟩ [⟨"a"⟩] islandPools_separated⟩

def linePools : PoolInfoList :=
  .new [twoTokenPool 0 ⟨"a"⟩ ⟨"b"⟩ 3000 1000, twoTokenPool 1 ⟨"b"⟩ ⟨"c"⟩ 2000 1000,
    twoTokenPool 2 ⟨"c"⟩ ⟨"d"⟩ 7000 3000]

/-- The search from `b` that stops at `a` never sees `d`, and what it files under `b` is what the
later call with start `b` finds in the cache. -/
theorem not_callCoherent_line : ¬CallCoherent .lists 8 linePools [⟨"a"⟩] ⟨"b"⟩ [] := by
  have hcall : ((history .lists 8 [⟨"a"⟩] (new .lists linePools)).bind fun tokens ↦
      updateGraph .lists 8 tokens ⟨"b"⟩).map Prod.fst = some (.ok [⟨"a"⟩, ⟨"c"⟩]) := by
    decide +kernel
  have hfresh : (updateGraph .lists 8 (new .lists linePools) ⟨"b"⟩).map Prod.fst =
      some (.ok [⟨"a"⟩, ⟨"c"⟩, ⟨"d"⟩]) := by decide +kernel
  obtain ⟨⟨r, tokens₂⟩, hsecond, rfl⟩ := Option.map_eq_some_iff.mp hcall
  obtain ⟨tokens₁, hfirst, hsecond⟩ := Option.bind_eq_some_iff.mp hsecond
  intro h
  obtain ⟨r', fresh, hrun, hsame, _⟩ := h tokens₁ _ tokens₂ tokens₂ hfirst hsecond rfl
  rw [hrun, Option.map_some, Option.some.injEq] at hfresh
  obtain rfl : r' = .ok [⟨"a"⟩, ⟨"c"⟩, ⟨"d"⟩] := hfresh
  have hd := (hsame ⟨"d"⟩).mpr (by decide)
  revert hd
  decide

end Zaciraci.Path.TokenGraph
