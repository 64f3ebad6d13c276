import Zaciraci.Dex.Estimate
import Zaciraci.Path.Preview
import Zaciraci.Simulate.Client

namespace Zaciraci.Simulate

open Lib Dex Trade

/-- One action for each hop, where the first puts in the amount and the last asks for the least
output. -/
structure Shaped (path : TokenPath) (arg : SwapArg) (actions : List SwapAction) : Prop where
  hops : List.Forall₂ (fun pair action ↦ action.poolId = pair.pool.id ∧
    pair.tokenInId = .ok action.tokenIn ∧ pair.tokenOutId = .ok action.tokenOut) path actions
  amountIn : actions.map (·.amountIn) =
    some arg.initialIn.toNat :: List.replicate (path.length - 1) none
  minAmountOut : actions.map (·.minAmountOut) =
    List.replicate (path.length - 1) 0 ++ [arg.minOut]

section Shape

variable {firstId lastId minOut : ℕ} {path : TokenPath} {amount out : U128}
  {actions : List SwapAction}

theorem hops_of_build
    (h : buildSwapActionsFrom firstId lastId minOut path amount = .ok (actions, out)) :
    List.Forall₂ (fun pair action ↦ action.poolId = pair.pool.id ∧
      pair.tokenInId = .ok action.tokenIn ∧ pair.tokenOutId = .ok action.tokenOut)
      path actions := by
  induction path generalizing amount actions with
  | nil =>
    cases h
    exact .nil
  | cons pair path ih =>
    obtain ⟨action, rest, next, rfl, hin, hout, -, -, hfrom, hid, -⟩ := buildSwapActionsFrom_cons h
    exact .cons ⟨hid, hin, hout⟩ (ih hfrom)

theorem minAmountOut_of_build
    (h : buildSwapActionsFrom firstId lastId minOut path amount = .ok (actions, out)) :
    actions.map (·.minAmountOut) =
      path.map fun pair ↦ if pair.pool.id = lastId then minOut else 0 := by
  induction path generalizing amount actions with
  | nil =>
    cases h
    rfl
  | cons pair path ih =>
    obtain ⟨action, rest, next, rfl, -, -, -, hmin, hfrom, -⟩ := buildSwapActionsFrom_cons h
    rw [List.map_cons, List.map_cons, ih hfrom, hmin]

theorem amountIn_none_iff
    (h : buildSwapActionsFrom firstId lastId minOut path amount = .ok (actions, out)) :
    actions.map (·.amountIn) = List.replicate path.length none ↔
      ∀ pair ∈ path, pair.pool.id ≠ firstId := by
  induction path generalizing amount actions with
  | nil =>
    cases h
    simp
  | cons pair path ih =>
    obtain ⟨action, rest, next, rfl, -, -, hin, -, hfrom, -⟩ := buildSwapActionsFrom_cons h
    rw [List.map_cons, List.length_cons, List.replicate_succ, List.cons.injEq, ih hfrom, hin,
      List.forall_mem_cons]
    refine and_congr_left fun _ ↦ ?_
    split_ifs with hid <;> simp [hid]

theorem mins_eq_iff (path : TokenPath) (hne : path ≠ []) (minOut : ℕ) :
    (path.map fun pair ↦ if pair.pool.id = (path.getLast hne).pool.id then minOut else 0) =
      List.replicate (path.length - 1) 0 ++ [minOut] ↔
      minOut = 0 ∨ ∀ pair ∈ path.dropLast, pair.pool.id ≠ (path.getLast hne).pool.id := by
  have hsplit := List.dropLast_append_getLast hne
  generalize path.getLast hne = last at hsplit ⊢
  rw [← List.length_dropLast]
  generalize path.dropLast = before at hsplit ⊢
  subst hsplit
  rw [List.map_append, List.map_singleton, if_pos rfl, List.append_left_inj,
    List.eq_replicate_iff, List.length_map, and_iff_right rfl, List.forall_mem_map]
  constructor
  · intro hzero
    refine or_iff_not_imp_left.2 fun hmin pair hpair hid ↦ hmin ?_
    rw [← hzero pair hpair, if_pos hid]
  · rintro (hmin | hids) pair hpair
    · rw [hmin, ite_self]
    · rw [if_neg (hids pair hpair)]

end Shape

/-- The actions have their shape just if the pool of the first hop does not come again, and that
of the last hop not before, if there is a least output to ask for. -/
theorem buildSwapActions_shaped_iff (path : TokenPath) (hne : path ≠ []) (arg : SwapArg)
    {actions : List SwapAction} {out : U128} (h : buildSwapActions path arg = .ok (actions, out)) :
    Shaped path arg actions ↔
      (∀ pair ∈ path.tail, pair.pool.id ≠ (path.head hne).pool.id) ∧
        (arg.minOut = 0 ∨ ∀ pair ∈ path.dropLast, pair.pool.id ≠ (path.getLast hne).pool.id) := by
  obtain ⟨first, path, rfl⟩ := List.exists_cons_of_ne_nil hne
  rw [buildSwapActions_cons] at h
  have hhops := hops_of_build h
  have hmins := minAmountOut_of_build h
  obtain ⟨action, rest, next, rfl, -, -, hin, -, hfrom, -⟩ := buildSwapActionsFrom_cons h
  rw [if_pos rfl] at hin
  have hfirst : (action :: rest).map (·.amountIn) =
      some arg.initialIn.toNat :: List.replicate ((first :: path).length - 1) none ↔
        ∀ pair ∈ path, pair.pool.id ≠ first.pool.id := by
    rw [List.map_cons, hin, List.cons.injEq, ← amountIn_none_iff hfrom]
    exact and_iff_right rfl
  have hlast := hmins ▸ mins_eq_iff (first :: path) hne arg.minOut
  constructor
  · intro hshaped
    exact ⟨hfirst.1 hshaped.amountIn, hlast.1 hshaped.minAmountOut⟩
  · intro hids
    exact ⟨hhops, hfirst.2 hids.1, hlast.2 hids.2⟩

theorem buildSwapActions_shaped_two_pools : ∃ actions out,
    buildSwapActions TokenPath.sampleWay ⟨100, 50⟩ = .ok (actions, out) ∧
      Shaped TokenPath.sampleWay ⟨100, 50⟩ actions := by
  have hbuild : buildSwapActions TokenPath.sampleWay ⟨100, 50⟩ =
      .ok ([⟨0, ⟨"a"⟩, some 100, ⟨"b"⟩, 0⟩, ⟨1, ⟨"b"⟩, none, ⟨"c"⟩, 50⟩], 59) := by decide +kernel
  refine ⟨_, _, hbuild, (buildSwapActions_shaped_iff _ (by decide) _ hbuild).2 ?_⟩
  exact ⟨by decide, .inr (by decide)⟩

def onePool : PoolInfoList := .new [Path.TokenGraph.twoTokenPool 0 ⟨"a"⟩ ⟨"b"⟩ 1000 3000]

/-- On the way back through the pool of the way there, the second action puts in an amount of its
own, and the first one asks for the least output. -/
theorem roundTrip_not_shaped : ∃ tokens path actions out,
    (Path.TokenGraph.new .lists onePool).updateGraph .lists 3 ⟨"a"⟩ = some (.ok [⟨"b"⟩], tokens) ∧
      tokens.getPathWithReturn ⟨"a"⟩ ⟨"b"⟩ = .ok path ∧
      buildSwapActions path ⟨100, 50⟩ = .ok (actions, out) ∧
      actions.map (·.amountIn) = [some 100, some 271] ∧
      actions.map (·.minAmountOut) = [50, 50] ∧ ¬Shaped path ⟨100, 50⟩ actions := by
  let pool := Path.TokenGraph.twoTokenPool 0 ⟨"a"⟩ ⟨"b"⟩ 1000 3000
  have hrun : ((Path.TokenGraph.new .lists onePool).updateGraph .lists 3 ⟨"a"⟩).map
      (fun r ↦ (r.1, r.2.getPathWithReturn ⟨"a"⟩ ⟨"b"⟩)) =
        some (.ok [⟨"b"⟩], .ok [⟨pool, 0, 1⟩, ⟨pool, 1, 0⟩]) := by decide +kernel
  obtain ⟨⟨r, tokens⟩, h, heq⟩ := Option.map_eq_some_iff.1 hrun
  obtain ⟨rfl, hpath⟩ := Prod.mk.inj heq
  have hbuild : buildSwapActions [⟨pool, 0, 1⟩, ⟨pool, 1, 0⟩] ⟨100, 50⟩ =
      .ok ([⟨0, ⟨"a"⟩, some 100, ⟨"b"⟩, 50⟩, ⟨0, ⟨"b"⟩, some 271, ⟨"a"⟩, 50⟩], 82) := by
    decide +kernel
  refine ⟨tokens, _, _, _, h, hpath, hbuild, rfl, rfl, fun hshaped ↦ ?_⟩
  exact absurd hshaped.amountIn (by decide)

/-- The indices of the pair are those at which its tokens are found. -/
def FirstPositions (pair : TokenPair) : Prop :=
  (∃ a, pair.tokenInId = .ok a ∧ pair.pool.tokenAccountIds.idxOf? a = some pair.tokenIn) ∧
    ∃ b, pair.tokenOutId = .ok b ∧ pair.pool.tokenAccountIds.idxOf? b = some pair.tokenOut

section Estimators

variable {pools : PoolInfoList} {firstId lastId minOut : ℕ} {path : TokenPath} {amount out : U128}
  {actions : List SwapAction}

theorem estimateSwapViaPools_cons {action : SwapAction} {pair : TokenPair} {next : U128}
    (hpool : pools.byId.get pair.pool.id = some pair.pool) (hfirst : FirstPositions pair)
    (hid : action.poolId = pair.pool.id) (hin : pair.tokenInId = .ok action.tokenIn)
    (hout : pair.tokenOutId = .ok action.tokenOut) (hnext : pair.estimateReturn amount = .ok next) :
    estimateSwapViaPools pools (action :: actions) amount =
      estimateSwapViaPools pools actions next := by
  obtain ⟨⟨a, ha, hi⟩, b, hb, hj⟩ := hfirst
  obtain rfl := Outcome.ok.inj (ha.symm.trans hin)
  obtain rfl := Outcome.ok.inj (hb.symm.trans hout)
  rw [TokenPair.estimateReturn] at hnext
  simp only [estimateSwapViaPools, PoolInfoList.get, hid, hpool, Except.toOption,
    Option.bind_eq_bind, Option.bind_some, hi, hj, hnext]

theorem estimates_of_build (hpools : ∀ pair ∈ path, pools.byId.get pair.pool.id = some pair.pool)
    (hfirst : ∀ pair ∈ path, FirstPositions pair)
    (h : buildSwapActionsFrom firstId lastId minOut path amount = .ok (actions, out)) :
    path.calcValue amount = .ok out ∧ estimateSwapViaPools pools actions amount = some out := by
  induction path generalizing amount actions with
  | nil =>
    cases h
    exact ⟨rfl, rfl⟩
  | cons pair path ih =>
    obtain ⟨hpool, hpools⟩ := List.forall_mem_cons.1 hpools
    obtain ⟨hpair, hfirst⟩ := List.forall_mem_cons.1 hfirst
    obtain ⟨action, rest, next, rfl, hin, hout, -, -, hfrom, hid, hnext⟩ :=
      buildSwapActionsFrom_cons h
    obtain ⟨hvalue, hestimate⟩ := ih hpools hfirst hfrom
    have hne : amount ≠ 0 := by
      rintro rfl
      exact absurd (PoolInfo.estimateReturn_iff.1 hnext).2.1 (by simp)
    constructor
    · rw [TokenPath.calcValue_cons hne, hnext]
      exact hvalue
    · rw [estimateSwapViaPools_cons hpool hpair hid hin hout hnext, hestimate]

end Estimators

/-- The builder of the actions, the value of the path and the simulator estimate the same output.
The actions are as connected as the path, as the simulator asserts. -/
theorem estimators_agree (srcList : List PoolInfo) (hids : (srcList.map (·.id)).Nodup)
    (path : TokenPath) (hpools : ∀ pair ∈ path, pair.pool ∈ srcList)
    (hfirst : ∀ pair ∈ path, FirstPositions pair) {start : TokenAccount}
    {tokens : List TokenAccount} (hpath : TokenPath.Along start tokens path) (arg : SwapArg) :
    (∀ actions out, buildSwapActions path arg = .ok (actions, out) →
      path.calcValue arg.initialIn = .ok out ∧ Follows start tokens actions ∧
        estimateSwapViaPools (.new srcList) actions arg.initialIn = some out) ∧
      ∀ v, path.calcValue arg.initialIn = .ok v → 0 < v →
        ∃ actions, buildSwapActions path arg = .ok (actions, v) := by
  have hget : ∀ pair ∈ path,
      (PoolInfoList.new srcList).byId.get pair.pool.id = some pair.pool := fun pair hpair ↦
    PoolInfoList.get_foldl_insert hids pair.pool (.inl (hpools pair hpair))
  cases path with
  | nil =>
    cases tokens with
    | cons token tokens => exact hpath.elim
    | nil =>
      refine ⟨fun actions out h ↦ ?_, fun v h _ ↦ ⟨[], ?_⟩⟩
      · cases h
        exact ⟨rfl, trivial, rfl⟩
      · cases h
        rfl
  | cons pair path =>
    simp only [buildSwapActions_cons]
    constructor
    · intro actions out h
      obtain ⟨hvalue, hestimate⟩ := estimates_of_build hget hfirst h
      exact ⟨hvalue, buildSwapActionsFrom_follows h hpath, hestimate⟩
    · intro v h hv
      refine buildSwapActionsFrom_ok _ _ _ (fun pair hpair ↦ ?_) h ?_
      · obtain ⟨⟨a, ha, -⟩, b, hb, -⟩ := hfirst pair hpair
        exact ⟨⟨a, ha⟩, b, hb⟩
      · rintro rfl
        exact absurd hv (BitVec.lt_irrefl 0)

theorem estimators_agree_two_hops : ∃ actions,
    buildSwapActions TokenPath.sampleWay ⟨100, 50⟩ = .ok (actions, 59) ∧
      estimateSwapViaPools (.new (TokenPath.sampleWay.map (·.pool))) actions 100 = some 59 := by
  have hfirst : ∀ pair ∈ TokenPath.sampleWay, FirstPositions pair := by
    rintro pair hpair
    rcases List.mem_cons.1 hpair with rfl | hpair
    · exact ⟨⟨⟨"a"⟩, rfl, rfl⟩, ⟨"b"⟩, rfl, rfl⟩
    · obtain rfl := List.mem_singleton.1 hpair
      exact ⟨⟨⟨"b"⟩, rfl, rfl⟩, ⟨"c"⟩, rfl, rfl⟩
  have hpath : TokenPath.Along ⟨"a"⟩ [⟨"b"⟩, ⟨"c"⟩] TokenPath.sampleWay :=
    ⟨rfl, rfl, rfl, rfl, trivial⟩
  have hagree := estimators_agree (TokenPath.sampleWay.map (·.pool)) (by decide)
    TokenPath.sampleWay (fun pair hpair ↦ List.mem_map_of_mem hpair) hfirst hpath ⟨100, 50⟩
  obtain ⟨actions, hbuild⟩ := hagree.2 59 (by decide +kernel) (by decide)
  exact ⟨actions, hbuild, (hagree.1 actions 59 hbuild).2.2⟩

end Zaciraci.Simulate
