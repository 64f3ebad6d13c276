import Zaciraci.Dex.PoolInfo
import Zaciraci.Lib.RustStd

namespace Zaciraci.Dex

open Lib

namespace TokenPair

def tokenInId (pair : TokenPair) : Outcome Error TokenAccount :=
  .expect "should be valid index" pair.pool.tokenAccountIds[pair.tokenIn]?

def tokenOutId (pair : TokenPair) : Outcome Error TokenAccount :=
  .expect "should be valid index" pair.pool.tokenAccountIds[pair.tokenOut]?

def estimateReturn (pair : TokenPair) (amountIn : BitVec 128) : Except Error (BitVec 128) :=
  pair.pool.estimateReturn pair.tokenIn amountIn pair.tokenOut

def Valid (pair : TokenPair) : Prop :=
  (∃ a, pair.tokenInId = .ok a) ∧ ∃ b, pair.tokenOutId = .ok b

theorem valid_of_getPair {pool : PoolInfo} {i j : ℕ} {pair : TokenPair}
    (h : pool.getPair i j = .ok pair) : pair.Valid := by
  obtain ⟨-, hi, hj, -, -, rfl⟩ := PoolInfo.getPair_ok.1 h
  rw [PoolInfo.len] at hi hj
  rw [Valid, tokenInId, tokenOutId]
  simp only [List.getElem?_eq_getElem hi, List.getElem?_eq_getElem hj]
  exact ⟨⟨_, rfl⟩, ⟨_, rfl⟩⟩

end TokenPair

abbrev TokenPath := List TokenPair

def maxHops : ℕ := 10

namespace TokenPath

def validateLength (path : TokenPath) : Except Error Unit :=
  if maxHops < path.length then .error (.pathTooLong path.length maxHops) else .ok ()

def addUnseen (seen : List TokenAccount) (token : TokenAccount) : List TokenAccount :=
  if token ∈ seen then seen else seen ++ [token]

def allTokensFrom : List TokenAccount → TokenPath → Outcome Error (List TokenAccount)
  | seen, [] => .ok seen
  | seen, pair :: path => do
    let tokenIn ← pair.tokenInId
    let tokenOut ← pair.tokenOutId
    allTokensFrom (addUnseen (addUnseen seen tokenIn) tokenOut) path

def allTokens (path : TokenPath) : Outcome Error (List TokenAccount) := allTokensFrom [] path

def calcValue : TokenPath → BitVec 128 → Except Error (BitVec 128)
  | [], value => .ok value
  | pair :: path, value =>
    if value = 0 then .ok 0 else do calcValue path (← pair.estimateReturn value)

/-- The hops of the path lead from `a` through the tokens of the list, one after the other. -/
def Along : TokenAccount → List TokenAccount → TokenPath → Prop
  | _, [], [] => True
  | a, b :: tokens, pair :: path =>
    pair.tokenInId = .ok a ∧ pair.tokenOutId = .ok b ∧ Along b tokens path
  | _, _, _ => False

theorem Along.getLast {a b : TokenAccount} {tokens : List TokenAccount} {path : TokenPath}
    (h : Along a (tokens ++ [b]) path) :
    ∃ last, path.getLast? = some last ∧ last.tokenOutId = .ok b := by
  induction tokens generalizing a path with
  | nil =>
    cases path with
    | nil => exact h.elim
    | cons pair path =>
      obtain ⟨-, hout, hrest⟩ := h
      cases path with
      | nil => exact ⟨pair, rfl, hout⟩
      | cons _ _ => exact hrest.elim
  | cons token tokens ih =>
    cases path with
    | nil => exact h.elim
    | cons pair path =>
      obtain ⟨last, hlast, hout⟩ := ih h.2.2
      refine ⟨last, ?_, hout⟩
      rw [List.getLast?_cons, hlast]
      rfl

end TokenPath

end Zaciraci.Dex
