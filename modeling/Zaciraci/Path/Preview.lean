import Mathlib.Data.Nat.Sqrt
import Zaciraci.Path.Coherence
import Zaciraci.Path.Hops
import Zaciraci.Units

namespace Zaciraci.Path

open Zaciraci.Lib Zaciraci.Dex

/-- The amounts `M` that are searched stand for numbers of yoctoNEAR. -/
class Yocto (M : Type) where
  toU128 : M → U128
  ofU128 : U128 → M

open Yocto

namespace TokenGraph

/-- `get_path`, which panics at an edge without a pair. -/
def requirePath (tokens : TokenGraph) (start goal : TokenAccount) :
    Outcome (Failure TokenAccount) TokenPath :=
  match tokens.getPath start goal with
  | none => .panicked "should be pair id"
  | some (.error e) => .err e
  | some (.ok path) => .ok path

def getPathWithReturn (tokens : TokenGraph) (start goal : TokenAccount) :
    Outcome (Failure TokenAccount) TokenPath := do
  let path ← tokens.requirePath start goal
  let back ← tokens.requirePath goal start
  pure (path ++ back)

/-- The step of `list_estimated_values` for one goal. What cannot be estimated is left out. -/
def estimateValue (tokens : TokenGraph) (initial : U128) (start : TokenAccount)
    (withReturn : Bool) (values : SortedMap TokenAccount U128) (goal : TokenAccount) :
    Outcome (Failure TokenAccount) (SortedMap TokenAccount U128) :=
  match if withReturn then tokens.getPathWithReturn start goal
    else tokens.requirePath start goal with
  | .panicked m => .panicked m
  | .err _ => .ok values
  | .ok path =>
    match path.calcValue initial with
    | .error _ => .ok values
    | .ok value => .ok (values.insert goal value)

def listEstimatedValues (std : Containers) (tokens : TokenGraph) (initial : U128)
    (start : TokenAccount) (goals : List TokenAccount) (withReturn : Bool) :
    Outcome (Failure TokenAccount) (List (TokenAccount × U128)) := do
  let values ← goals.foldlM (tokens.estimateValue initial start withReturn) .empty
  pure ((std.iter values.entries).insertionSort fun a b ↦ a.2 ≤ b.2).reverse

def listReturns (std : Containers) (tokens : TokenGraph) (initial : U128) (start : TokenAccount)
    (goals : List TokenAccount) : Outcome (Failure TokenAccount) (List (TokenAccount × U128)) :=
  tokens.listEstimatedValues std initial start goals true

section Returns

variable {std : Containers} {tokens : TokenGraph} {initial : U128} {start goal : TokenAccount}

theorem requirePath_eq_ok {path : TokenPath} :
    tokens.requirePath start goal = .ok path ↔ tokens.getPath start goal = some (.ok path) := by
  rw [requirePath]
  split <;> simp_all

theorem getPathWithReturn_spec {path : TokenPath}
    (hgraph : tokens.graph.graph = tokenGraph std tokens.pools)
    (h : tokens.getPathWithReturn start goal = .ok path) :
    (∀ pair ∈ path, pair.Valid) ∧ ∃ last, path.getLast? = some last ∧
      (tokens.pools.Consistent → last.tokenOutId = .ok start) := by
  obtain ⟨there, hthere, h⟩ := Outcome.bind_eq_ok.1 h
  obtain ⟨back, hback, h⟩ := Outcome.bind_eq_ok.1 h
  obtain rfl := Outcome.ok.inj h
  rw [requirePath_eq_ok] at hthere hback
  obtain ⟨hne, hvalid⟩ := getPath_valid hback
  refine ⟨List.forall_mem_append.2 ⟨(getPath_valid hthere).2, hvalid⟩, back.getLast hne, ?_, ?_⟩
  · rw [List.getLast?_append_of_ne_nil there hne, List.getLast?_eq_some_getLast hne]
  · intro hpools
    obtain ⟨m, q, -, -, halong⟩ := getPath_along hpools rfl hgraph hback
    obtain ⟨last, hlast, hout⟩ := halong.getLast
    rw [List.getLast?_eq_some_getLast hne, Option.some.injEq] at hlast
    rwa [hlast]

def Estimated (tokens : TokenGraph) (initial : U128) (start goal : TokenAccount)
    (value : U128) : Prop :=
  ∃ path, tokens.getPathWithReturn start goal = .ok path ∧ path.calcValue initial = .ok value

theorem estimated_of_estimateValue {values values' : SortedMap TokenAccount U128}
    (hvalues : ∀ g v, values.get g = some v → tokens.Estimated initial start g v)
    (h : tokens.estimateValue initial start true values goal = .ok values') :
    ∀ g v, values'.get g = some v → tokens.Estimated initial start g v := by
  rw [estimateValue, if_pos rfl] at h
  split at h
  · cases h
  · cases h
    exact hvalues
  · next path hpath =>
    split at h
    · cases h
      exact hvalues
    · next value hvalue =>
      cases h
      intro g v hget
      rw [SortedMap.get_insert] at hget
      split_ifs at hget with hg
      · cases hget
        exact hg ▸ ⟨path, hpath, hvalue⟩
      · exact hvalues g v hget

theorem estimated_of_foldlM {goals : List TokenAccount}
    {values values' : SortedMap TokenAccount U128}
    (hvalues : ∀ g v, values.get g = some v → tokens.Estimated initial start g v)
    (h : goals.foldlM (tokens.estimateValue initial start true) values = .ok values') :
    ∀ g v, values'.get g = some v → tokens.Estimated initial start g v := by
  induction goals generalizing values with
  | nil =>
    cases h
    exact hvalues
  | cons goal goals ih =>
    rw [List.foldlM_cons] at h
    obtain ⟨values₁, hfirst, hrest⟩ := Outcome.bind_eq_ok.1 h
    exact ih (estimated_of_estimateValue hvalues hfirst) hrest

theorem estimated_of_listReturns {goals : List TokenAccount} {list : List (TokenAccount × U128)}
    (h : tokens.listReturns std initial start goals = .ok list) :
    ∀ e ∈ list, tokens.Estimated initial start e.1 e.2 := by
  obtain ⟨values, hvalues, hlist⟩ := Outcome.bind_eq_ok.1 h
  obtain rfl := Outcome.ok.inj hlist
  intro e he
  rw [List.mem_reverse, List.mem_insertionSort, std.mem_iter] at he
  exact estimated_of_foldlM (fun _ _ h ↦ by cases h) hvalues e.1 e.2 (SortedMap.get_eq_some.2 he)

end Returns

end TokenGraph

abbrev GasPrice := BitVec 64

structure Preview (M : Type) where
  gasPrice : GasPrice
  inputValue : M
  token : TokenAccount
  depth : ℕ
  outputValue : U128
  gain : U128
deriving DecidableEq

namespace Preview

variable {M : Type} [Yocto M]

def headGas : BitVec 64 := 2700 * 10 ^ 9

def byStepGas : BitVec 64 := 2600 * 10 ^ 9

def cost (gasPrice : GasPrice) (depth : ℕ) : U128 :=
  let gas := headGas + byStepGas * BitVec.ofNat 64 depth
  gas.setWidth 128 * gasPrice.setWidth 128

def calcGain (gasPrice : GasPrice) (depth : ℕ) (inputValue : M) (outputValue : U128) : U128 :=
  if outputValue ≤ toU128 inputValue then 0
  else
    let gain := outputValue - toU128 inputValue
    if gain ≤ cost gasPrice depth then 0 else gain - cost gasPrice depth

def new (gasPrice : GasPrice) (inputValue : M) (token : TokenAccount) (depth : ℕ)
    (outputValue : U128) : Preview M :=
  { gasPrice, inputValue, token, depth, outputValue
    gain := calcGain gasPrice depth inputValue outputValue }

theorem output_of_gain_pos {gasPrice : GasPrice} {depth : ℕ} {inputValue : M}
    {outputValue : U128} (h : 0 < calcGain gasPrice depth inputValue outputValue) :
    outputValue.toNat = (toU128 inputValue).toNat + (cost gasPrice depth).toNat +
      (calcGain gasPrice depth inputValue outputValue).toNat := by
  rw [calcGain] at h ⊢
  dsimp only at h ⊢
  split_ifs at h ⊢ with hout hgain
  · simp at h
  · simp at h
  · rw [BitVec.not_le] at hout hgain
    have hsub := BitVec.toNat_sub_of_le (BitVec.le_of_lt hout)
    rw [BitVec.toNat_sub_of_le (BitVec.le_of_lt hgain), hsub]
    rw [BitVec.lt_def] at hout hgain
    omega

end Preview

structure PreviewList (M : Type) where
  inputValue : M
  list : List (Preview M)
  totalGain : U128
deriving DecidableEq

def PreviewList.new {M : Type} (inputValue : M) (previews : List (Preview M)) :
    Option (PreviewList M) :=
  some ⟨inputValue, previews, (previews.map Preview.gain).sum⟩

section Pick

variable {M : Type} [Yocto M]

/-- The loop of `pick_by_amount`, which ends at the first goal without a gain. -/
def pickPreviewsOf (tokens : TokenGraph) (start : TokenAccount) (gasPrice : GasPrice)
    (amount : M) : List (TokenAccount × U128) → Outcome (Failure TokenAccount) (List (Preview M))
  | [] => .ok []
  | (goal, output) :: list => do
    let path ← tokens.getPathWithReturn start goal
    let preview := Preview.new gasPrice amount goal path.length output
    if 0 < preview.gain then
      let previews ← pickPreviewsOf tokens start gasPrice amount list
      pure (preview :: previews)
    else pure []

def pickByAmount (std : Containers) (tokens : TokenGraph) (start : TokenAccount)
    (goals : List TokenAccount) (gasPrice : GasPrice) (amount : M) (limit : ℕ) :
    Outcome (Failure TokenAccount) (Option (PreviewList M)) := do
  let list ← tokens.listReturns std (toU128 amount) start goals
  let previews ← pickPreviewsOf tokens start gasPrice amount (list.take limit)
  pure (PreviewList.new amount previews)

/-- A preview of `amount` that was computed on the graph and shows a gain. -/
structure Computed (tokens : TokenGraph) (start : TokenAccount) (gasPrice : GasPrice)
    (amount : M) (preview : Preview M) : Prop where
  inputValue : preview.inputValue = amount
  gain_pos : 0 < preview.gain
  path : ∃ path, tokens.getPathWithReturn start preview.token = .ok path ∧
    path.calcValue (toU128 amount) = .ok preview.outputValue ∧
    preview.gain = Preview.calcGain gasPrice path.length amount preview.outputValue

variable {std : Containers} {tokens : TokenGraph} {start : TokenAccount} {gasPrice : GasPrice}
  {amount : M}

theorem computed_of_pickPreviewsOf {list : List (TokenAccount × U128)}
    {previews : List (Preview M)}
    (hlist : ∀ e ∈ list, tokens.Estimated (toU128 amount) start e.1 e.2)
    (h : pickPreviewsOf tokens start gasPrice amount list = .ok previews) :
    ∀ p ∈ previews, Computed tokens start gasPrice amount p := by
  induction list generalizing previews with
  | nil =>
    cases h
    simp
  | cons e list ih =>
    obtain ⟨⟨path, hpath, hvalue⟩, hlist⟩ := List.forall_mem_cons.1 hlist
    obtain ⟨path', hpath', h⟩ := Outcome.bind_eq_ok.1 h
    obtain rfl := Outcome.ok.inj (hpath.symm.trans hpath')
    dsimp only at h
    split_ifs at h with hgain
    · obtain ⟨rest, hrest, h⟩ := Outcome.bind_eq_ok.1 h
      cases h
      exact List.forall_mem_cons.2 ⟨⟨rfl, hgain, path, hpath, hvalue, rfl⟩, ih hlist hrest⟩
    · cases h
      simp

theorem computed_of_pickByAmount {goals : List TokenAccount} {limit : ℕ}
    {previews : PreviewList M}
    (h : pickByAmount std tokens start goals gasPrice amount limit = .ok (some previews)) :
    ∀ p ∈ previews.list, Computed tokens start gasPrice amount p := by
  obtain ⟨list, hlist, h⟩ := Outcome.bind_eq_ok.1 h
  obtain ⟨picked, hpicked, h⟩ := Outcome.bind_eq_ok.1 h
  cases h
  refine computed_of_pickPreviewsOf (fun e he ↦ ?_) hpicked
  exact TokenGraph.estimated_of_listReturns hlist e (List.mem_of_mem_take he)

end Pick

section Search

variable {A ε M : Type} [LinearOrder M] [Zero M]

def evaluate (calcRes : M → Outcome ε (Option A)) (gain : A → M)
    (cache : SortedMap M (Option A)) (input : M) : Outcome ε (M × SortedMap M (Option A)) :=
  match cache.get input with
  | some found => .ok (found.elim 0 gain, cache)
  | none => do
    let result ← calcRes input
    pure (result.elim 0 gain, cache.insert input result)

variable {calcRes : M → Outcome ε (Option A)} {gain : A → M} {cache cache' : SortedMap M (Option A)}

def Cached (calcRes : M → Outcome ε (Option A)) (cache : SortedMap M (Option A)) : Prop :=
  ∀ x r, cache.get x = some r → calcRes x = .ok r

theorem cached_of_evaluate {input value : M} (hcache : Cached calcRes cache)
    (h : evaluate calcRes gain cache input = .ok (value, cache')) : Cached calcRes cache' := by
  rw [evaluate] at h
  split at h
  · cases h
    exact hcache
  · obtain ⟨result, hresult, h⟩ := Outcome.bind_eq_ok.1 h
    cases h
    intro x r hget
    rw [SortedMap.get_insert] at hget
    split_ifs at hget with hx
    · cases hget
      exact hx ▸ hresult
    · exact hcache x r hget

variable [Add M] [Sub M] [Mul M] [Div M] [Yocto M]

/-- The three inputs `in_a`, `in_b`, `in_c`. -/
structure Bracket (M : Type) where
  a : M
  b : M
  c : M

/-- The next three inputs after those of `p` were valued at `a`, `b` and `c`, none if all are
worth nothing. -/
def Bracket.next (min max : M) (p : Bracket M) (a b c : M) : Option (Bracket M) :=
  let m2 : M := ofU128 2
  if a = b ∧ b = c ∧ a = 0 then none
  else if b ≤ a ∧ c ≤ a then
    let step := (p.b - p.a) / m2
    if min < p.a then some ⟨Max.max min (p.a - step), p.a, p.a + step⟩
    else some ⟨p.a, p.a + step, p.a + m2 * step⟩
  else if a ≤ b ∧ c ≤ b then
    some ⟨p.b - (p.b - p.a) / m2, p.b, p.b + (p.c - p.b) / m2⟩
  else
    let step := (p.c - p.b) / m2
    if p.c < max then some ⟨p.c - step, p.c, Min.min max (p.c + step)⟩
    else some ⟨p.c - m2 * step, p.c - step, p.c⟩

/-- The loop of `search_best_path`. It need not end: then no fuel is enough. -/
def searchFrom (calcRes : M → Outcome ε (Option A)) (gain : A → M) (min max : M) :
    ℕ → SortedMap M (Option A) → Bracket M → Option (Outcome ε (Option A))
  | 0, _, _ => none
  | fuel + 1, cache, p =>
    if p.a < p.c then
      let evaluated : Outcome ε (Option (Bracket M) × SortedMap M (Option A)) := do
        let (a, cache) ← evaluate calcRes gain cache p.a
        let (b, cache) ← evaluate calcRes gain cache p.b
        let (c, cache) ← evaluate calcRes gain cache p.c
        pure (p.next min max a b c, cache)
      match evaluated with
      | .err e => some (.err e)
      | .panicked m => some (.panicked m)
      | .ok (none, _) => some (.ok none)
      | .ok (some p, cache) => searchFrom calcRes gain min max fuel cache p
    else some (.ok ((cache.get p.a).getD none))

def searchBestPath (fuel : ℕ) (min average max : M) (calcRes : M → Outcome ε (Option A))
    (getGain : A → U128) : Option (Outcome ε (Option A)) :=
  searchFrom calcRes (fun a ↦ ofU128 (getGain a)) min max fuel .empty ⟨min, average, max⟩

theorem calcRes_of_searchFrom {min max : M} {fuel : ℕ} {p : Bracket M} {found : A}
    (hcache : Cached calcRes cache)
    (h : searchFrom calcRes gain min max fuel cache p = some (.ok (some found))) :
    ∃ x, calcRes x = .ok (some found) := by
  induction fuel generalizing cache p with
  | zero => cases h
  | succ fuel ih =>
    rw [searchFrom] at h
    split_ifs at h with hlt
    · dsimp only at h
      split at h
      · cases h
      · cases h
      · cases h
      · next p' cache' hevaluated =>
        obtain ⟨⟨a, cache₁⟩, ha, hevaluated⟩ := Outcome.bind_eq_ok.1 hevaluated
        obtain ⟨⟨b, cache₂⟩, hb, hevaluated⟩ := Outcome.bind_eq_ok.1 hevaluated
        obtain ⟨⟨c, cache₃⟩, hc, hevaluated⟩ := Outcome.bind_eq_ok.1 hevaluated
        obtain ⟨-, rfl⟩ := Prod.mk.inj (Outcome.ok.inj hevaluated)
        exact ih (cached_of_evaluate (cached_of_evaluate (cached_of_evaluate hcache ha) hb) hc) h
    · have hget : (cache.get p.a).getD none = some found := Outcome.ok.inj (Option.some.inj h)
      cases hp : cache.get p.a with
      | none =>
        rw [hp] at hget
        cases hget
      | some r =>
        rw [hp, Option.getD_some] at hget
        exact ⟨p.a, hget ▸ hcache p.a r hp⟩

theorem calcRes_of_searchBestPath {fuel : ℕ} {min average max : M} {getGain : A → U128}
    {found : A}
    (h : searchBestPath fuel min average max calcRes getGain = some (.ok (some found))) :
    ∃ x, calcRes x = .ok (some found) :=
  calcRes_of_searchFrom (fun _ _ h ↦ by cases h) h

end Search

section Previews

variable {M : Type} [LinearOrder M] [Zero M] [Yocto M]

/-- `do_pick`: how often `value` fits into the total is the most goals that are tried. -/
def doPick (std : Containers) (tokens : TokenGraph) (start : TokenAccount)
    (goals : List TokenAccount) (gasPrice : GasPrice) (totalAmount value : M) :
    Outcome (Failure TokenAccount) (Option (PreviewList M)) :=
  if value = 0 then .ok none
  else if toU128 value = 0 then .panicked "attempt to divide by zero"
  else
    let limit := (toU128 totalAmount / toU128 value).toNat % 2 ^ 64
    if 0 < limit then pickByAmount std tokens start goals gasPrice value limit else .ok none

variable {std : Containers} {fuel steps : ℕ} {average : U128} {tokens tokens' : TokenGraph}
  {start : TokenAccount} {totalAmount : M} {gasPrice : GasPrice}

theorem computed_of_doPick {goals : List TokenAccount} {value : M} {previews : PreviewList M}
    (h : doPick std tokens start goals gasPrice totalAmount value = .ok (some previews)) :
    toU128 value ≤ toU128 totalAmount ∧
      ∀ p ∈ previews.list, Computed tokens start gasPrice value p := by
  rw [doPick] at h
  split_ifs at h with hzero hdiv
  · cases h
  · dsimp only at h
    split_ifs at h with hlimit
    · refine ⟨?_, computed_of_pickByAmount h⟩
      have hpos : 0 < (toU128 totalAmount / toU128 value).toNat :=
        hlimit.trans_le (Nat.mod_le _ _)
      rw [BitVec.toNat_udiv] at hpos
      exact BitVec.le_def.2 (Nat.div_pos_iff.1 hpos).2
    · cases h

variable [One M] [Add M] [Sub M] [Mul M] [Div M]

def rateAverage {ε : Type} (min max : M) : Outcome ε U128 :=
  if toU128 min = 0 then .panicked "attempt to divide by zero"
  else .ok (BitVec.ofNat 128 (toU128 max / toU128 min).toNat.sqrt * toU128 min)

/-- `average` is that of the inputs in the history. -/
def pickPreviews (std : Containers) (fuel steps : ℕ) (average : U128) (tokens : TokenGraph)
    (start : TokenAccount) (totalAmount : M) (gasPrice : GasPrice) :
    Option (Outcome (Failure TokenAccount) (Option (PreviewList M)) × TokenGraph) :=
  let aveInput : Outcome (Failure TokenAccount) U128 :=
    if average = 0 then rateAverage 1 totalAmount else .ok average
  match aveInput with
  | .err e => some (.err e, tokens)
  | .panicked m => some (.panicked m, tokens)
  | .ok aveInput => do
    let (goals, tokens) ← tokens.updateGraph std fuel start
    match goals with
    | .error e => some (.err e, tokens)
    | .ok goals =>
      let result ← searchBestPath steps 1 (ofU128 aveInput) totalAmount
        (doPick std tokens start goals gasPrice totalAmount) PreviewList.totalGain
      some (result, tokens)

/-- Whatever amount the search settles on, its previews were computed on the graph that is left
behind, at an amount that the total covers. -/
theorem computed_of_pickPreviews {previews : PreviewList M}
    (h : pickPreviews std fuel steps average tokens start totalAmount gasPrice =
      some (.ok (some previews), tokens')) :
    tokens'.pools = tokens.pools ∧ tokens'.graph.graph = tokens.graph.graph ∧
      ∃ value : M, toU128 value ≤ toU128 totalAmount ∧
        ∀ p ∈ previews.list, Computed tokens' start gasPrice value p := by
  rw [pickPreviews] at h
  dsimp only at h
  split at h
  · cases h
  · cases h
  · obtain ⟨⟨goals, tokens₁⟩, hupdate, h⟩ := Option.bind_eq_some_iff.1 h
    obtain ⟨hpools, hgraph⟩ := TokenGraph.frame_of_updateGraph hupdate
    cases goals with
    | error e => cases h
    | ok goals =>
      obtain ⟨result, hsearch, h⟩ := Option.bind_eq_some_iff.1 h
      obtain ⟨rfl, rfl⟩ := Prod.mk.inj (Option.some.inj h)
      obtain ⟨value, hvalue⟩ := calcRes_of_searchBestPath hsearch
      exact ⟨hpools, hgraph, value, computed_of_doPick hvalue⟩

end Previews

end Zaciraci.Path
