import Mathlib.Data.List.Sort
import Zaciraci.Lib.Decimal
import Zaciraci.Lib.SortedMap
import Zaciraci.Types

namespace Zaciraci.Dex

open Zaciraci.Lib

inductive Error where
  | tokenNotFound (name : String)
  | swapSameToken
  | zeroAmount
  | overflow
  | outOfIndexOfPools (id : ℕ)
  | outOfIndexOfTokens (index : ℕ)
  | differentLengthOfTokens (tokens amounts : ℕ)
  | pathTooLong (hops max : ℕ)
deriving DecidableEq, Repr

def Error.message : Error → String
  | tokenNotFound name => s!"Cannot find token account: {name}"
  | swapSameToken => "Cannot swap the same token"
  | zeroAmount => "Cannot handle zero amount"
  | overflow => "Overflow"
  | outOfIndexOfPools id => s!"Out of index of pools: {id}"
  | outOfIndexOfTokens index => s!"Out of index of tokens: {index}"
  | differentLengthOfTokens tokens amounts =>
    s!"Different length of tokens: {tokens} and {amounts}"
  | pathTooLong hops max => s!"Path too long: {hops} hops exceeds maximum of {max}"

def poolKindSimple : String := "SIMPLE_POOL"

def feeDivisor : UInt32 := 10000

structure PoolInfo where
  id : ℕ
  poolKind : String
  tokenAccountIds : List TokenAccount
  amounts : List (BitVec 128)
  totalFee : UInt32
deriving DecidableEq, Repr

structure TokenPair where
  pool : PoolInfo
  tokenIn : ℕ
  tokenOut : ℕ
deriving DecidableEq, Repr

structure TokenPairId where
  poolId : ℕ
  tokenIn : ℕ
  tokenOut : ℕ
deriving DecidableEq, Repr

def toU128 (q : ℚ) : Option (BitVec 128) :=
  if 0 ≤ ⌊q⌋ ∧ ⌊q⌋ < 2 ^ 128 then some (BitVec.ofNat 128 ⌊q⌋.toNat) else none

namespace PoolInfo

def isSimple (pool : PoolInfo) : Bool := pool.poolKind = poolKindSimple

def len (pool : PoolInfo) : ℕ := pool.tokenAccountIds.length

def getPair (pool : PoolInfo) (tokenIn tokenOut : ℕ) : Except Error TokenPair :=
  if tokenIn = tokenOut then .error .swapSameToken
  else if pool.len ≤ tokenIn ∨ pool.len ≤ tokenOut then
    .error (.outOfIndexOfTokens (max tokenIn tokenOut))
  else if pool.amounts.length ≤ tokenIn ∨ pool.amounts.length ≤ tokenOut then
    .error (.differentLengthOfTokens pool.tokenAccountIds.length pool.amounts.length)
  else .ok ⟨pool, tokenIn, tokenOut⟩

def amount (pool : PoolInfo) (index : ℕ) : Except Error (BitVec 128) :=
  match pool.amounts[index]? with
  | some v => .ok v
  | none => .error (.outOfIndexOfTokens index)

/-- The factor by which the fee is taken off; the subtraction of a release build wraps around. -/
def feeFactor (pool : PoolInfo) : ℕ := (feeDivisor - pool.totalFee).toNat

def estimateReturn (pool : PoolInfo) (tokenIn : ℕ) (amountIn : BitVec 128) (tokenOut : ℕ) :
    Except Error (BitVec 128) :=
  if tokenIn = tokenOut then .error .swapSameToken
  else do
    let inBalance ← pool.amount tokenIn
    let outBalance ← pool.amount tokenOut
    if inBalance = 0 ∨ outBalance = 0 ∨ amountIn = 0 then .error .zeroAmount
    else
      let amountWithFee := amountIn.toNat * pool.feeFactor
      let result := decimalDiv (amountWithFee * outBalance.toNat)
        (feeDivisor.toNat * inBalance.toNat + amountWithFee)
      match toU128 result with
      | some value => .ok value
      | none => .error .overflow

variable {pool : PoolInfo}

theorem getPair_ok {i j : ℕ} {pair : TokenPair} :
    pool.getPair i j = .ok pair ↔ i ≠ j ∧ i < pool.len ∧ j < pool.len ∧ i < pool.amounts.length ∧
      j < pool.amounts.length ∧ pair = ⟨pool, i, j⟩ := by
  rw [getPair]
  split_ifs with h₁ h₂ h₃
  · simp [h₁]
  · simp only [false_iff]
    omega
  · simp only [false_iff]
    omega
  · rw [Except.ok.injEq]
    constructor
    · rintro rfl
      exact ⟨h₁, by omega, by omega, by omega, by omega, rfl⟩
    · rintro ⟨_, _, _, _, _, rfl⟩
      rfl

theorem amount_ok {i : ℕ} {v : BitVec 128} :
    pool.amount i = .ok v ↔ pool.amounts[i]? = some v := by
  rw [amount]
  split <;> simp_all

theorem feeFactor_lt (pool : PoolInfo) : pool.feeFactor < 2 ^ 32 := UInt32.toNat_lt _

def swapOut (pool : PoolInfo) (x a y : ℕ) : ℕ :=
  a * pool.feeFactor * y / (10000 * x + a * pool.feeFactor)

theorem swapOut_lt (pool : PoolInfo) {x y : ℕ} (a : ℕ) (hx : 0 < x) (hy : 0 < y) :
    pool.swapOut x a y < y := by
  rw [swapOut, Nat.div_lt_iff_lt_mul (by omega), Nat.mul_comm y]
  exact Nat.mul_lt_mul_of_pos_right (by omega) hy

theorem feeDivisor_toNat : feeDivisor.toNat = 10000 := rfl

theorem floor_swap (pool : PoolInfo) (x a y : BitVec 128) (hx : 0 < x.toNat) :
    ⌊decimalDiv (a.toNat * pool.feeFactor * y.toNat)
      (10000 * x.toNat + a.toNat * pool.feeFactor)⌋ = pool.swapOut x.toNat a.toNat y.toNat := by
  have hx' := x.isLt
  have hfee : a.toNat * pool.feeFactor < 2 ^ 128 * 2 ^ 32 :=
    Nat.mul_lt_mul'' a.isLt pool.feeFactor_lt
  have hb : 10000 * x.toNat + a.toNat * pool.feeFactor ≤ 10 ^ 60 := by omega
  refine floor_decimalDiv (m := 39) (by omega) hb ?_ (by norm_num)
  rw [Nat.mul_comm]
  exact Nat.mul_lt_mul'' (lt_of_lt_of_le y.isLt (by norm_num)) (by omega)

theorem toU128_swap (pool : PoolInfo) (x a y : BitVec 128) (hx : 0 < x.toNat) (hy : 0 < y.toNat) :
    toU128 (decimalDiv (a.toNat * pool.feeFactor * y.toNat)
      (feeDivisor.toNat * x.toNat + a.toNat * pool.feeFactor)) =
      some (BitVec.ofNat 128 (pool.swapOut x.toNat a.toNat y.toNat)) := by
  have hlt := pool.swapOut_lt a.toNat hx hy
  have hy' := y.isLt
  rw [toU128, feeDivisor_toNat, floor_swap pool x a y hx, if_pos ⟨by omega, by omega⟩,
    Int.toNat_natCast]

theorem estimateReturn_eq {i j : ℕ} {x a y : BitVec 128} (hij : i ≠ j) (hx : pool.amount i = .ok x)
    (hy : pool.amount j = .ok y) (hx' : 0 < x.toNat) (ha' : 0 < a.toNat) (hy' : 0 < y.toNat) :
    pool.estimateReturn i a j = .ok (BitVec.ofNat 128 (pool.swapOut x.toNat a.toNat y.toNat)) := by
  have hne : ∀ {v : BitVec 128}, 0 < v.toNat → v ≠ 0 := by
    rintro v hv rfl
    simp at hv
  have hnot : ¬(x = 0 ∨ y = 0 ∨ a = 0) := by
    rintro (h | h | h)
    · exact hne hx' h
    · exact hne hy' h
    · exact hne ha' h
  rw [estimateReturn, if_neg hij, hx, hy]
  change (if x = 0 ∨ y = 0 ∨ a = 0 then _ else _) = _
  rw [if_neg hnot, toU128_swap pool x a y hx' hy']

theorem estimateReturn_ok {i j : ℕ} {a r : BitVec 128} (h : pool.estimateReturn i a j = .ok r) :
    ∃ x y, pool.amount i = .ok x ∧ pool.amount j = .ok y ∧ i ≠ j ∧ 0 < x.toNat ∧ 0 < a.toNat ∧
      0 < y.toNat ∧ r.toNat < y.toNat := by
  rw [estimateReturn] at h
  split_ifs at h with hij
  cases hx : pool.amount i with
  | error e => rw [hx] at h; cases h
  | ok x =>
    cases hy : pool.amount j with
    | error e => rw [hx, hy] at h; cases h
    | ok y =>
      rw [hx, hy] at h
      change (if x = 0 ∨ y = 0 ∨ a = 0 then _ else _) = _ at h
      split_ifs at h with h₀
      have hpos : ∀ {v : BitVec 128}, v ≠ 0 → 0 < v.toNat := by
        intro v hv
        refine Nat.pos_of_ne_zero fun h ↦ hv ?_
        exact BitVec.eq_of_toNat_eq (by simpa using h)
      rw [not_or, not_or] at h₀
      have hx' := hpos h₀.1
      have hy' := hpos h₀.2.1
      rw [toU128_swap pool x a y hx' hy', Except.ok.injEq] at h
      refine ⟨x, y, rfl, rfl, hij, hx', hpos h₀.2.2, hy', ?_⟩
      have hlt := pool.swapOut_lt a.toNat hx' hy'
      have hy'' := y.isLt
      rw [← h, BitVec.toNat_ofNat, Nat.mod_eq_of_lt (by omega)]
      exact hlt

end PoolInfo

namespace TokenPair

def pairId (pair : TokenPair) : TokenPairId := ⟨pair.pool.id, pair.tokenIn, pair.tokenOut⟩

/-- The swap of half the pool's balance: what goes in and what comes out. -/
def estimateNormalReturn (pair : TokenPair) : Except Error (BitVec 128 × BitVec 128) := do
  let balanceIn ← pair.pool.amount pair.tokenIn
  if balanceIn = 0 then .error .zeroAmount
  else
    let inValue := balanceIn / 2
    let outValue ← pair.pool.estimateReturn pair.tokenIn inValue pair.tokenOut
    pure (inValue, outValue)

theorem estimateNormalReturn_ok {pair : TokenPair} {v r : BitVec 128}
    (h : pair.estimateNormalReturn = .ok (v, r)) :
    ∃ x, pair.pool.amount pair.tokenIn = .ok x ∧ v = x / 2 ∧
      pair.pool.estimateReturn pair.tokenIn v pair.tokenOut = .ok r := by
  rw [estimateNormalReturn] at h
  cases hx : pair.pool.amount pair.tokenIn with
  | error e => rw [hx] at h; cases h
  | ok x =>
    rw [hx] at h
    change (if x = 0 then _ else _) = _ at h
    split_ifs at h with h₀
    cases hr : pair.pool.estimateReturn pair.tokenIn (x / 2) pair.tokenOut with
    | error e => rw [hr] at h; cases h
    | ok r' =>
      rw [hr] at h
      obtain ⟨rfl, rfl⟩ := Prod.mk.inj (Except.ok.inj h)
      exact ⟨x, rfl, rfl, hr⟩

theorem estimateNormalReturn_reverse {pool : PoolInfo} {i j : ℕ} {v r : BitVec 128}
    (h : (⟨pool, i, j⟩ : TokenPair).estimateNormalReturn = .ok (v, r)) (hr : 0 < r.toNat) :
    ∃ w, (⟨pool, j, i⟩ : TokenPair).estimateNormalReturn = .ok w := by
  obtain ⟨_, _, _, hest⟩ := estimateNormalReturn_ok h
  obtain ⟨x, y, hx, hy, hij, hx', _, hy', hlt⟩ := PoolInfo.estimateReturn_ok hest
  have hhalf : 0 < (y / 2).toNat := by
    have hdiv : (y / 2).toNat = y.toNat / 2 := BitVec.toNat_udiv
    omega
  have hne : y ≠ 0 := by
    rintro rfl
    simp at hy'
  refine ⟨(y / 2, .ofNat 128 (pool.swapOut y.toNat (y / 2).toNat x.toNat)), ?_⟩
  dsimp only at hx hy hij
  simp only [estimateNormalReturn, hy]
  change (if y = 0 then _ else _) = _
  rw [if_neg hne, PoolInfo.estimateReturn_eq hij.symm hy hx hy' hhalf hx']
  rfl

end TokenPair

structure PoolInfoList where
  list : List PoolInfo
  byId : SortedMap ℕ PoolInfo

namespace PoolInfoList

def new (srcList : List PoolInfo) : PoolInfoList where
  list := srcList.insertionSort fun a b ↦ a.id ≤ b.id
  byId := srcList.foldl (fun m pool ↦ m.insert pool.id pool) .empty

def get (pools : PoolInfoList) (index : ℕ) : Except Error PoolInfo :=
  match pools.byId.get index with
  | some pool => .ok pool
  | none => .error (.outOfIndexOfPools index)

def getPair (pools : PoolInfoList) (pairId : TokenPairId) : Except Error TokenPair := do
  let pool ← pools.get pairId.poolId
  pool.getPair pairId.tokenIn pairId.tokenOut

/-- Every listed pool is the one that is found under its id. -/
def Consistent (pools : PoolInfoList) : Prop :=
  ∀ pool ∈ pools.list, pools.byId.get pool.id = some pool

theorem get_foldl_insert {l : List PoolInfo} {m : SortedMap ℕ PoolInfo}
    (hl : (l.map (·.id)).Nodup) (pool : PoolInfo) (h : pool ∈ l ∨
      m.get pool.id = some pool ∧ pool.id ∉ l.map (·.id)) :
    (l.foldl (fun m pool ↦ m.insert pool.id pool) m).get pool.id = some pool := by
  induction l generalizing m with
  | nil => exact h.elim nofun And.left
  | cons p l ih =>
    rw [List.map_cons, List.nodup_cons] at hl
    apply ih hl.2
    rcases h with hmem | ⟨hget, hnot⟩
    · rcases List.mem_cons.1 hmem with rfl | hmem
      · exact .inr ⟨SortedMap.get_insert_self _ _ _, hl.1⟩
      · exact .inl hmem
    · rw [List.map_cons, List.mem_cons, not_or] at hnot
      exact .inr ⟨by rw [SortedMap.get_insert_of_ne hnot.1, hget], hnot.2⟩

theorem consistent_new {l : List PoolInfo} (h : (l.map (·.id)).Nodup) :
    (new l).Consistent := fun pool hpool ↦
  get_foldl_insert h pool (.inl ((List.mem_insertionSort _).1 hpool))

end PoolInfoList

end Zaciraci.Dex
