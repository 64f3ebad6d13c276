import Zaciraci.Path.Preview
import Zaciraci.Trade.Swap

namespace Zaciraci.Arbitrage

open Lib Dex Zaciraci.Path Zaciraci.Path.Yocto Trade Storage

structure MicroNear where
  micro : Fin (2 ^ 64)
deriving DecidableEq

namespace MicroNear

def oneMicroNear : ℕ := 10 ^ 18

def of (n : ℕ) : MicroNear := ⟨Fin.ofNat (2 ^ 64) n⟩

def fromYocto (yocto : ℕ) : MicroNear := ⟨Fin.ofNat (2 ^ 64) (yocto / oneMicroNear)⟩

def toYocto (m : MicroNear) : U128 := BitVec.ofNat 128 (m.micro * oneMicroNear)

instance : Yocto MicroNear := ⟨toYocto, fun yocto ↦ fromYocto yocto.toNat⟩

instance : Zero MicroNear := ⟨⟨0⟩⟩

instance : One MicroNear := ⟨⟨1⟩⟩

instance : Add MicroNear := ⟨fun a b ↦ ⟨a.micro + b.micro⟩⟩

instance : Sub MicroNear := ⟨fun a b ↦ if a.micro < b.micro then 0 else ⟨a.micro - b.micro⟩⟩

instance : Mul MicroNear := ⟨fun a b ↦ ⟨a.micro * b.micro⟩⟩

instance : Div MicroNear := ⟨fun a b ↦ if b.micro = 0 then 0 else ⟨a.micro / b.micro⟩⟩

instance : LinearOrder MicroNear :=
  LinearOrder.lift' micro fun ⟨_⟩ ⟨_⟩ h ↦ congrArg mk h

end MicroNear

variable {M : Type}

def tokensAlong : TokenPath → Outcome Dex.Error (List TokenAccount)
  | [] => .ok []
  | pair :: path => do
    let tokenIn ← pair.tokenInId
    let tokenOut ← pair.tokenOutId
    let more ← tokensAlong path
    pure (tokenIn :: tokenOut :: more)

def withPaths (tokens : TokenGraph) (start : TokenAccount) :
    List (Preview M) → Outcome String (List (Preview M × TokenPath) × List TokenAccount)
  | [] => .ok ([], [])
  | p :: previews => do
    let path ← (tokens.getPathWithReturn start p.token).mapErr pathErrorMessage
    let along ← (tokensAlong path).mapErr Dex.Error.message
    let (rest, more) ← withPaths tokens start previews
    pure ((p, path) :: rest, along ++ more)

def intoWithPath (previews : PreviewList M) (tokens : TokenGraph) (start : TokenAccount) :
    Outcome String (List (Preview M × TokenPath) × List TokenAccount) := do
  let (prePath, along) ← withPaths tokens start previews.list
  pure (prePath, (along.insertionSort (· ≤ ·)).dedup)

theorem mem_withPaths {tokens : TokenGraph} {start : TokenAccount} {list : List (Preview M)}
    {prePath : List (Preview M × TokenPath)} {along : List TokenAccount}
    (h : withPaths tokens start list = .ok (prePath, along)) :
    ∀ entry ∈ prePath, entry.1 ∈ list ∧
      tokens.getPathWithReturn start entry.1.token = .ok entry.2 := by
  induction list generalizing prePath along with
  | nil =>
    cases h
    simp
  | cons p list ih =>
    simp only [withPaths, Outcome.bind_eq_ok, Outcome.mapErr_eq_ok] at h
    obtain ⟨path, hpath, more, -, ⟨rest, along'⟩, hrest, hdone⟩ := h
    cases hdone
    refine List.forall_mem_cons.2 ⟨⟨List.mem_cons_self, hpath⟩, fun entry hentry ↦ ?_⟩
    obtain ⟨hmem, hget⟩ := ih hrest entry hentry
    exact ⟨List.mem_cons_of_mem p hmem, hget⟩

variable [Yocto M]

def swapEach (client : Client) (wallet : Wallet) (preview : Preview M) (path : TokenPath) :
    TradeProgram Unit := do
  let arg : SwapArg :=
    ⟨toU128 preview.inputValue, preview.outputValue.toNat - preview.gain.toNat⟩
  let (actions, _) ← .ofOutcome (buildSwapActions path arg)
  let _ ← execute client ⟨wallet.signer, .swap actions, 1⟩ ""

def swapUntilSuccess (client : Client) (wallet : Wallet) :
    List (Preview M × TokenPath) → TradeProgram Unit
  | [] => pure ()
  | (preview, path) :: prePath => do
    match ← (swapEach client wallet preview path).attempt with
    | .ok () => pure ()
    | .error _ => swapUntilSuccess client wallet prePath

/-- The part of `single_loop` behind the reading of the pools and the gas price. Nothing records
inputs in the history, so their average is zero. -/
def arbitrage (setting : Setting) (steps : ℕ) (client : Client) (wallet : Wallet)
    (cfg : ConfigAccess) (pools : PoolInfoList) (startBalance : MicroNear) (gasPrice : GasPrice) :
    TradeProgram Unit :=
  match pickPreviews setting.std setting.fuel steps 0 (.new setting.std pools) setting.wnear
    startBalance gasPrice with
  | none => .panic "the path search does not return"
  | some (.panicked m, _) => .panic m
  | some (.err e, _) => .fail (pathErrorMessage e)
  | some (.ok none, _) => pure ()
  | some (.ok (some previews), tokens) => do
    let (prePath, along) ← .ofOutcome (intoWithPath previews tokens setting.wnear)
    .ofExcept (prePath.forM fun entry ↦ (TokenPath.validateLength entry.2).mapError
      Dex.Error.message)
    ensureRefStorageSetup client wallet along (keepWnearOnly setting.isMainnet)
      (maxTopUpFromConfig cfg)
    swapUntilSuccess client wallet prePath

section Gain

open Program

def Sends {α : Type} (p : TradeProgram α) (q : Trade.Request) : Prop :=
  p.Always fun τ _ ↦ ∃ answer, τ = [⟨q, answer⟩]

/-- A swap that succeeds pays at least what its last action asks for. -/
def EnforcesMinAmountOut (contract : Call → Sent → Prop) : Prop :=
  ∀ actions last id returned, contract (.swap actions) (.succeeded id (.ok returned)) →
    actions.getLast? = some last → last.minAmountOut ≤ returned

variable {tokens : TokenGraph} {std : Containers} {start : TokenAccount} {gasPrice : GasPrice}
  {amount : M} {p : Preview M}

theorem sends_swapEach {path : TokenPath} {actions : List SwapAction} {out : U128}
    (h : buildSwapActions path ⟨toU128 p.inputValue, p.outputValue.toNat - p.gain.toNat⟩ =
      .ok (actions, out)) (client : Client) (wallet : Wallet) :
    Sends (swapEach client wallet p path)
      (.chain client (.exec ⟨wallet.signer, .swap actions, 1⟩)) := by
  rw [Sends, swapEach, h]
  refine always_ask.2 fun sent ↦ ?_
  cases sent <;> exact always_done.2 ⟨_, rfl⟩

/-- The actions swap `input` of the start token, and ask in the end for as much of it and the gas
of all hops. The ids of the pools have to tell them apart. -/
structure PaysBack (pools : PoolInfoList) (start : TokenAccount) (gasPrice : GasPrice)
    (input : ℕ) (actions : List SwapAction) : Prop where
  amountIn : ∃ first, actions.head? = some first ∧ first.amountIn = some input
  amountOut : ∃ last, actions.getLast? = some last ∧ (pools.Consistent → last.tokenOut = start) ∧
    last.minAmountOut = input + (Preview.cost gasPrice actions.length).toNat

theorem paysBack_of_computed (hgraph : tokens.graph.graph = TokenGraph.tokenGraph std tokens.pools)
    (h : Computed tokens start gasPrice amount p) :
    ∃ path actions out, tokens.getPathWithReturn start p.token = .ok path ∧
      buildSwapActions path ⟨toU128 p.inputValue, p.outputValue.toNat - p.gain.toNat⟩ =
        .ok (actions, out) ∧ actions.length = path.length ∧
      PaysBack tokens.pools start gasPrice (toU128 p.inputValue).toNat actions := by
  obtain ⟨path, hpath, hvalue, hgain⟩ := h.path
  obtain ⟨hvalid, lastPair, hlast, hreturns⟩ := TokenGraph.getPathWithReturn_spec hgraph hpath
  have hpos := h.gain_pos
  have houtput := Preview.output_of_gain_pos (hgain ▸ hpos)
  rw [← hgain] at houtput
  have hout : p.outputValue ≠ 0 := by
    intro hzero
    have hpos' : 0 < p.gain.toNat := BitVec.lt_def.1 hpos
    have hzero' : p.outputValue.toNat = 0 := congrArg BitVec.toNat hzero
    omega
  obtain ⟨first, rest, rfl⟩ : ∃ first rest, path = first :: rest := by
    cases path with
    | nil => cases hlast
    | cons first rest => exact ⟨first, rest, rfl⟩
  obtain ⟨actions, hactions⟩ := buildSwapActionsFrom_ok first.pool.id lastPair.pool.id
    (p.outputValue.toNat - p.gain.toNat) hvalid hvalue hout
  have hlength := length_of_buildSwapActionsFrom hactions
  obtain ⟨last, hlastAction, hlastOut, hmin⟩ := buildSwapActionsFrom_getLast hactions hlast
  obtain ⟨action, more, -, rfl, -, -, hin, -, -⟩ := buildSwapActionsFrom_cons hactions
  rw [if_pos rfl] at hin hmin
  refine ⟨_, _, p.outputValue, hpath, ?_, hlength, ⟨action, rfl, h.inputValue ▸ hin⟩,
    last, hlastAction, ?_, ?_⟩
  · rw [List.getLast?_eq_some_getLast (List.cons_ne_nil first rest), Option.some.injEq] at hlast
    rw [buildSwapActions_cons, h.inputValue, hlast]
    exact hactions
  · exact fun hpools ↦ Outcome.ok.inj (hlastOut.symm.trans (hreturns hpools))
  · rw [hmin, houtput, h.inputValue, hlength]
    omega

/-- Every preview that is picked shows a gain at an input the total covers, and the swap sent for
it pays back the input and the gas, if the contract enforces the last minimum. -/
theorem pickPreviews_never_loses [LinearOrder M] [Zero M] [One M] [Add M] [Sub M] [Mul M] [Div M]
    {fuel steps : ℕ} {average : U128} {pools : PoolInfoList} {before : List TokenAccount}
    {tokens' : TokenGraph} {totalAmount : M} {previews : PreviewList M}
    (hbuilt : TokenGraph.history std fuel before (.new std pools) = some tokens)
    (hpick : pickPreviews std fuel steps average tokens start totalAmount gasPrice =
      some (.ok (some previews), tokens')) :
    ∀ p ∈ previews.list, 0 < p.gain ∧ toU128 p.inputValue ≤ toU128 totalAmount ∧
      ∃ path actions last, tokens'.getPathWithReturn start p.token = .ok path ∧
        (∀ client wallet, Sends (swapEach client wallet p path)
          (.chain client (.exec ⟨wallet.signer, .swap actions, 1⟩))) ∧
        actions.getLast? = some last ∧ (pools.Consistent → last.tokenOut = start) ∧
        last.minAmountOut =
          (toU128 p.inputValue).toNat + (Preview.cost gasPrice path.length).toNat ∧
        ∀ contract, EnforcesMinAmountOut contract → ∀ id returned,
          contract (.swap actions) (.succeeded id (.ok returned)) →
          (toU128 p.inputValue).toNat + (Preview.cost gasPrice path.length).toNat ≤ returned := by
  obtain ⟨hpools₀, hgraph₀⟩ := TokenGraph.frame_of_history hbuilt
  obtain ⟨hpools, hgraph, value, hvalue, hcomputed⟩ := computed_of_pickPreviews hpick
  have hpools' : tokens'.pools = pools := hpools.trans hpools₀
  have hgraph' : tokens'.graph.graph = TokenGraph.tokenGraph std tokens'.pools := by
    rw [hpools', hgraph, hgraph₀]
    rfl
  intro p hp
  have h := hcomputed p hp
  obtain ⟨path, actions, out, hpath, hactions, hlength, hpays⟩ := paysBack_of_computed hgraph' h
  obtain ⟨last, hlast, htoken, hmin⟩ := hpays.amountOut
  rw [hlength] at hmin
  rw [hpools'] at htoken
  refine ⟨h.gain_pos, h.inputValue ▸ hvalue, path, actions, last, hpath,
    sends_swapEach hactions, hlast, htoken, hmin, ?_⟩
  intro contract hcontract id returned hreturned
  rw [← hmin]
  exact hcontract actions last id returned hreturned hlast

def spreadPools : PoolInfoList :=
  .new [TokenGraph.twoTokenPool 0 ⟨"wrap.near"⟩ ⟨"usdt"⟩ (10 ^ 27) (2 * 10 ^ 27),
    TokenGraph.twoTokenPool 1 ⟨"wrap.near"⟩ ⟨"usdt"⟩ (2 * 10 ^ 27) (10 ^ 27)]

def spreadPreview : Preview MicroNear :=
  .new 100000000 (.fromYocto (10 ^ 24)) ⟨"usdt"⟩ 2 3964202783336091666326364

theorem pickPreviews_never_loses_spread : ∃ (tokens' : TokenGraph) (path : TokenPath)
    (actions : List SwapAction) (last : SwapAction),
    pickPreviews .lists 5 5 0 (.new .lists spreadPools) ⟨"wrap.near"⟩
      (.fromYocto (10 ^ 24) : MicroNear) 100000000 =
        some (.ok (PreviewList.new (.fromYocto (10 ^ 24)) [spreadPreview]), tokens') ∧
      tokens'.getPathWithReturn ⟨"wrap.near"⟩ ⟨"usdt"⟩ = .ok path ∧
      actions.getLast? = some last ∧ last.tokenOut = ⟨"wrap.near"⟩ ∧
      last.minAmountOut = 10 ^ 24 + (Preview.cost 100000000 path.length).toNat := by
  have hpick : (pickPreviews .lists 5 5 0 (.new .lists spreadPools) ⟨"wrap.near"⟩
      (.fromYocto (10 ^ 24) : MicroNear) 100000000).map Prod.fst =
        some (.ok (PreviewList.new (.fromYocto (10 ^ 24)) [spreadPreview])) := by decide +kernel
  obtain ⟨⟨picked, tokens'⟩, hpick, rfl⟩ := Option.map_eq_some_iff.1 hpick
  have hbuilt : TokenGraph.history .lists 5 [] (.new .lists spreadPools) =
      some (.new .lists spreadPools) := rfl
  have hpools : spreadPools.Consistent := PoolInfoList.consistent_new (by decide)
  obtain ⟨-, -, path, actions, last, hpath, -, hlast, htoken, hmin, -⟩ :=
    pickPreviews_never_loses hbuilt hpick spreadPreview List.mem_cons_self
  exact ⟨tokens', path, actions, last, hpick, hpath, hlast, htoken hpools, hmin⟩

end Gain

section Cycle

open Program

variable {P : List SwapAction → Prop}

/-- The swaps that were sent in the course of `τ`, with what became of each. -/
def swapsSent (τ : List TradeExchange) : List (List SwapAction × Sent) :=
  τ.filterMap fun
    | ⟨.chain _ (.exec ⟨_, .swap actions, _⟩), sent⟩ => some (actions, sent)
    | _ => none

@[simp] theorem swapsSent_append (τ υ : List TradeExchange) :
    swapsSent (τ ++ υ) = swapsSent τ ++ swapsSent υ := List.filterMap_append

/-- Swaps with the property were tried, and another one only after a failure. -/
structure Tried (P : List SwapAction → Prop) (swaps : List (List SwapAction × Sent)) : Prop where
  forall_actions : ∀ s ∈ swaps, P s.1
  failed : ∀ s ∈ swaps.dropLast, ∃ e, s.2.result "" = .error e

theorem tried_nil : Tried P [] := ⟨nofun, nofun⟩

theorem Tried.cons {actions : List SwapAction} {sent : Sent} {e : String}
    {swaps : List (List SwapAction × Sent)} (h : Tried P swaps) (hactions : P actions)
    (hsent : sent.result "" = .error e) : Tried P ((actions, sent) :: swaps) := by
  refine ⟨List.forall_mem_cons.2 ⟨hactions, h.forall_actions⟩, fun s hs ↦ ?_⟩
  cases swaps with
  | nil => cases hs
  | cons next swaps =>
    rcases List.mem_cons.1 hs with rfl | hs
    · exact ⟨e, hsent⟩
    · exact h.failed s hs

theorem always_swapUntilSuccess (client : Client) (wallet : Wallet)
    {prePath : List (Preview M × TokenPath)}
    (h : ∀ entry ∈ prePath, ∃ actions out, P actions ∧ buildSwapActions entry.2
      ⟨toU128 entry.1.inputValue, entry.1.outputValue.toNat - entry.1.gain.toNat⟩ =
        .ok (actions, out)) :
    (swapUntilSuccess client wallet prePath).Always fun τ _ ↦ Tried P (swapsSent τ) := by
  induction prePath with
  | nil => exact always_done.2 tried_nil
  | cons entry prePath ih =>
    obtain ⟨⟨actions, out, hactions, hbuild⟩, hrest⟩ := List.forall_mem_cons.1 h
    rw [swapUntilSuccess, swapEach, hbuild]
    refine always_ask.2 fun sent ↦ ?_
    cases sent with
    | succeeded id output =>
      exact always_done.2 ⟨List.forall_mem_singleton.2 hactions, nofun⟩
    | _ => exact (ih hrest).mono fun τ _ hτ ↦ hτ.cons hactions rfl

theorem always_tried_bind {α β : Type} {p : TradeProgram α} {f : α → TradeProgram β}
    (hp : p.Uses fun q ↦ ∀ answer, swapsSent [⟨q, answer⟩] = [])
    (hf : ∀ a, (f a).Always fun τ _ ↦ Tried P (swapsSent τ)) :
    (p >>= f).Always fun τ _ ↦ Tried P (swapsSent τ) := by
  have hnone : p.Always fun τ _ ↦ swapsSent τ = [] := by
    refine hp.always.mono fun τ _ hτ ↦ ?_
    induction τ with
    | nil => rfl
    | cons e τ ih =>
      rw [List.forall_mem_cons] at hτ
      rw [← List.singleton_append, swapsSent_append, hτ.1, ih hτ.2, List.append_nil]
  refine hnone.bind (fun τ a hτ ↦ (hf a).mono fun υ _ hυ ↦ ?_) (fun τ _ hτ ↦ ?_) fun τ _ hτ ↦ ?_
  · rwa [swapsSent_append, hτ, List.nil_append]
  · exact hτ ▸ tried_nil
  · exact hτ ▸ tried_nil

/-- In every cycle each swap that is sent pays back what it takes from the balance, and one that
succeeds is the last. -/
theorem arbitrage_pays_back (setting : Setting) (steps : ℕ) (client : Client) (wallet : Wallet)
    (cfg : ConfigAccess) (pools : PoolInfoList) (startBalance : MicroNear) (gasPrice : GasPrice) :
    (arbitrage setting steps client wallet cfg pools startBalance gasPrice).Always fun τ _ ↦
      Tried (fun actions ↦ ∃ input ≤ startBalance.toYocto.toNat,
        PaysBack pools setting.wnear gasPrice input actions) (swapsSent τ) := by
  rw [arbitrage]
  split
  · exact always_done.2 tried_nil
  · exact always_done.2 tried_nil
  · exact always_done.2 tried_nil
  · exact always_done.2 tried_nil
  · next previews tokens hpick =>
    obtain ⟨hpools, hgraph, value, hvalue, hcomputed⟩ := computed_of_pickPreviews hpick
    replace hpools : tokens.pools = pools := hpools
    have hgraph' : tokens.graph.graph = TokenGraph.tokenGraph setting.std tokens.pools := by
      rw [hpools]
      exact hgraph
    cases hpaths : intoWithPath previews tokens setting.wnear with
    | err e => exact always_done.2 tried_nil
    | panicked m => exact always_done.2 tried_nil
    | ok found =>
      obtain ⟨⟨prePath, along⟩, hfound, hdone⟩ := Outcome.bind_eq_ok.1 hpaths
      obtain rfl := Outcome.ok.inj hdone
      have hentries : ∀ entry ∈ prePath, ∃ actions out,
          (∃ input ≤ startBalance.toYocto.toNat,
            PaysBack pools setting.wnear gasPrice input actions) ∧ buildSwapActions entry.2
            ⟨toU128 entry.1.inputValue, entry.1.outputValue.toNat - entry.1.gain.toNat⟩ =
              .ok (actions, out) := by
        intro entry hentry
        obtain ⟨hmem, hpath⟩ := mem_withPaths hfound entry hentry
        have h := hcomputed entry.1 hmem
        obtain ⟨path, actions, out, hpath', hbuild, -, hpays⟩ := paysBack_of_computed hgraph' h
        obtain rfl := Outcome.ok.inj (hpath.symm.trans hpath')
        exact ⟨actions, out, ⟨_, h.inputValue ▸ BitVec.le_def.1 hvalue, hpools ▸ hpays⟩, hbuild⟩
      refine always_tried_bind (p := ofExcept _) (uses_ofExcept _) fun _ ↦ ?_
      refine always_tried_bind ?_ fun _ ↦ always_swapUntilSuccess client wallet hentries
      exact Uses.embed (uses_of_forall (fun q _ ↦ by cases q <;> rfl) _)

end Cycle

end Zaciraci.Arbitrage
