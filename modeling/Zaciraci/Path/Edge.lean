import Zaciraci.Dex.PoolInfo
import Zaciraci.Lib.Containers

namespace Zaciraci.Path

open Zaciraci.Lib Zaciraci.Dex

/-- A rate counts as negative, so that the better of two edges has the smaller weight. -/
structure EdgeWeight where
  pairId : Option TokenPairId
  estimatedRate : ℚ
deriving DecidableEq, Repr

namespace EdgeWeight

def calcRate (inputValue estimatedReturn : ℕ) : ℚ :=
  if inputValue = 0 then 0 else -(estimatedReturn / inputValue)

def new (pairId : TokenPairId) (inputValue estimatedReturn : ℕ) : EdgeWeight :=
  ⟨some pairId, calcRate inputValue estimatedReturn⟩

instance : Inhabited EdgeWeight := ⟨⟨none, 1⟩⟩

/-- Weights are accumulated by multiplying rates. -/
instance : Add EdgeWeight := ⟨fun a b ↦ ⟨none, a.estimatedRate * b.estimatedRate⟩⟩

instance : LT EdgeWeight := ⟨fun a b ↦ a.estimatedRate < b.estimatedRate⟩

instance : DecidableLT EdgeWeight := fun a b ↦
  inferInstanceAs (Decidable (a.estimatedRate < b.estimatedRate))

theorem lt_iff {a b : EdgeWeight} : a < b ↔ a.estimatedRate < b.estimatedRate := Iff.rfl

theorem add_eq (a b : EdgeWeight) : a + b = ⟨none, a.estimatedRate * b.estimatedRate⟩ := rfl

theorem calcRate_nonpos (v r : ℕ) : calcRate v r ≤ 0 := by
  rw [calcRate]
  split_ifs
  · rfl
  · exact neg_nonpos.mpr (by positivity)

end EdgeWeight

structure Edge where
  pair : TokenPair
  inputValue : BitVec 128
  estimatedReturn : BitVec 128
deriving DecidableEq, Repr

namespace Edge

def weight (edge : Edge) : EdgeWeight :=
  .new edge.pair.pairId edge.inputValue.toNat edge.estimatedReturn.toNat

def returnsLess (a b : Edge) : Bool := a.estimatedReturn < b.estimatedReturn

end Edge

inductive Failure (N : Type) where
  | dex (error : Dex.Error)
  | tokenNotInPool (token : N)
  | startTokenNotFound (start goal : N)
  | goalTokenNotFound (start goal : N)
  | invalidEdge (tokenIn tokenOut : N)
deriving DecidableEq, Repr

/-- `CachedEdges`, the edges of one pool. -/
def getTokenId (pool : PoolInfo) (token : TokenAccount) : Option ℕ :=
  pool.tokenAccountIds.idxOf? token

def getByIds (pool : PoolInfo) (tokenIn tokenOut : TokenAccount) :
    Except (Failure TokenAccount) Edge :=
  match getTokenId pool tokenIn, getTokenId pool tokenOut with
  | none, _ => .error (.tokenNotInPool tokenIn)
  | _, none => .error (.tokenNotInPool tokenOut)
  | some i, some j =>
    match pool.getPair i j with
    | .error e => .error (.dex e)
    | .ok pair =>
      match pair.estimateNormalReturn with
      | .error e => .error (.dex e)
      | .ok (inputValue, estimatedReturn) => .ok ⟨pair, inputValue, estimatedReturn⟩

variable {pool : PoolInfo}

theorem getTokenId_spec {token : TokenAccount} {i : ℕ} (h : getTokenId pool token = some i) :
    pool.tokenAccountIds[i]? = some token := by
  obtain ⟨hi, ht, _⟩ := List.idxOf?_eq_some_iff.mp h
  exact List.getElem?_eq_some_iff.mpr ⟨hi, ht⟩

theorem getByIds_ok {a b : TokenAccount} {edge : Edge} :
    getByIds pool a b = .ok edge ↔ ∃ i j, getTokenId pool a = some i ∧ getTokenId pool b = some j ∧
      pool.getPair i j = .ok edge.pair ∧
      edge.pair.estimateNormalReturn = .ok (edge.inputValue, edge.estimatedReturn) := by
  rw [getByIds]
  constructor
  · intro h
    split at h
    · cases h
    · cases h
    · next i j hi hj =>
      split at h
      · cases h
      · next pair hpair =>
        split at h
        · cases h
        · next v r hest =>
          cases h
          exact ⟨i, j, hi, hj, hpair, hest⟩
  · rintro ⟨i, j, hi, hj, hpair, hest⟩
    simp only [hi, hj, hpair, hest]

theorem getByIds_tokens {a b : TokenAccount} {edge : Edge} (h : getByIds pool a b = .ok edge) :
    edge.pair.pool.tokenAccountIds[edge.pair.tokenIn]? = some a ∧
      edge.pair.pool.tokenAccountIds[edge.pair.tokenOut]? = some b := by
  obtain ⟨i, j, hi, hj, hpair, _⟩ := getByIds_ok.mp h
  obtain ⟨_, _, _, _, _, heq⟩ := PoolInfo.getPair_ok.mp hpair
  rw [heq]
  exact ⟨getTokenId_spec hi, getTokenId_spec hj⟩

theorem getByIds_reverse {a b : TokenAccount} {edge : Edge} (h : getByIds pool a b = .ok edge)
    (hr : 0 < edge.estimatedReturn.toNat) :
    ∃ edge', getByIds pool b a = .ok edge' := by
  obtain ⟨i, j, hi, hj, hpair, hest⟩ := getByIds_ok.mp h
  obtain ⟨hij, hi₁, hj₁, hi₂, hj₂, heq⟩ := PoolInfo.getPair_ok.mp hpair
  rw [heq] at hest
  obtain ⟨⟨v, r⟩, hw⟩ := TokenPair.estimateNormalReturn_reverse hest hr
  refine ⟨⟨⟨pool, j, i⟩, v, r⟩, getByIds_ok.mpr ⟨j, i, hj, hi, ?_, hw⟩⟩
  exact PoolInfo.getPair_ok.mpr ⟨hij.symm, hj₁, hi₁, hj₂, hi₂, rfl⟩

theorem Edge.return_pos {edge : Edge} (h : 0 < -edge.weight.estimatedRate) :
    0 < edge.estimatedReturn.toNat := by
  refine Nat.pos_of_ne_zero fun h₀ ↦ ?_
  simp [Edge.weight, EdgeWeight.new, EdgeWeight.calcRate, h₀] at h

end Zaciraci.Path
