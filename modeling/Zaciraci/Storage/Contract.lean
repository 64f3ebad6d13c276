import Zaciraci.Storage.Ensure
import Mathlib.Logic.Function.Basic

namespace Zaciraci.Storage

open Lib Program

/-- The storage prices of the exchange contract: what an account costs, and what each
registered token adds to it. -/
structure Terms where
  accountCost : ℕ
  tokenCost : ℕ

/-- An account as the contract stores it. The balances of its registered tokens are what
`get_deposits` shows. -/
structure Account where
  nearAmount : ℕ
  tokens : Deposits
deriving DecidableEq

namespace Account

variable (terms : Terms)

def usage (a : Account) : ℕ := terms.accountCost + terms.tokenCost * a.tokens.size

/-- `storage_available`: what is left of the deposit, or zero when it does not suffice. -/
def available (a : Account) : ℕ := a.nearAmount - a.usage terms

def balance (a : Account) : StorageBalance := ⟨a.nearAmount, a.available terms⟩

end Account

abbrev Accounts := AccountId → Option Account

namespace Contract

variable (terms : Terms)

def storageDeposit (registrationOnly : Bool) (amount : ℕ) : Option Account → Except String Account
  | some a => .ok (if registrationOnly then a else { a with nearAmount := a.nearAmount + amount })
  | none =>
    if amount < terms.accountCost then .error "attached deposit is less than the minimum balance"
    else .ok ⟨if registrationOnly then terms.accountCost else amount, .empty⟩

def addTokens (tokenIds : List TokenAccount) (tokens : Deposits) : Deposits :=
  tokenIds.foldl (fun tokens t ↦ tokens.add t 0) tokens

def registerTokens (tokenIds : List TokenAccount) : Option Account → Except String Account
  | none => .error "account is not registered"
  | some a =>
    let a' := { a with tokens := addTokens tokenIds a.tokens }
    if a'.nearAmount < a'.usage terms then .error "insufficient storage deposit" else .ok a'

def removeTokens (tokenIds : List TokenAccount) (tokens : Deposits) : Deposits :=
  tokenIds.foldl (fun tokens t ↦ tokens.erase t) tokens

def unregisterTokens (tokenIds : List TokenAccount) : Option Account → Except String Account
  | none => .error "account is not registered"
  | some a =>
    if ∃ t ∈ tokenIds, (a.tokens.get t).getD 0 ≠ 0 then .error "token balance is not zero"
    else .ok { a with tokens := removeTokens tokenIds a.tokens }

def requireOneYocto (deposit : ℕ) (result : Except String Account) : Except String Account :=
  if deposit = 1 then result else .error "requires attached deposit of exactly 1 yoctoNEAR"

/-- What a transaction makes of the account that signed it. -/
def apply (tx : Transaction) (account : Option Account) : Except String Account :=
  match tx.method with
  | .storageDeposit registrationOnly => storageDeposit terms registrationOnly tx.deposit account
  | .registerTokens tokenIds => requireOneYocto tx.deposit (registerTokens terms tokenIds account)
  | .unregisterTokens tokenIds => requireOneYocto tx.deposit (unregisterTokens tokenIds account)

def deposits (s : Accounts) (account : AccountId) : Deposits :=
  ((s account).map Account.tokens).getD .empty

/-- The honest contract: views show the present state, and a transaction that fails
changes nothing. -/
def respond : (q : Request) → Accounts → Answer q × Accounts
  | .storageBalanceOf account, s => (.ok ((s account).map (Account.balance terms)), s)
  | .storageBalanceBounds, s => (.ok ⟨terms.accountCost, none⟩, s)
  | .getDeposits account, s => (.ok (deposits s account), s)
  | .exec tx, s =>
    match apply terms tx (s tx.signer) with
    | .ok a => (.ok (), Function.update s tx.signer (some a))
    | .error m => (.error m, s)

variable {tokenIds : List TokenAccount}

theorem mem_keys_addTokens {tokens : Deposits} {t : TokenAccount} :
    t ∈ (addTokens tokenIds tokens).keys ↔ t ∈ tokenIds ∨ t ∈ tokens.keys := by
  induction tokenIds generalizing tokens with
  | nil => simp [addTokens]
  | cons x l ih =>
    rw [addTokens, List.foldl_cons, ← addTokens, ih, SortedMap.mem_keys_add, List.mem_cons]
    tauto

theorem size_addTokens_le (tokenIds : List TokenAccount) (tokens : Deposits) :
    (addTokens tokenIds tokens).size ≤ tokens.size + tokenIds.length := by
  induction tokenIds generalizing tokens with
  | nil => exact le_rfl
  | cons x l ih =>
    have h := ih (tokens.add x 0)
    have hadd : (tokens.add x 0).size ≤ tokens.size + 1 := by
      by_cases hx : x ∈ tokens.keys
      · rw [SortedMap.add_of_mem hx]
        exact Nat.le_succ _
      · exact (SortedMap.size_add hx).le
    rw [addTokens, List.foldl_cons, ← addTokens, List.length_cons]
    omega

theorem mem_keys_removeTokens {tokens : Deposits} {t : TokenAccount} :
    t ∈ (removeTokens tokenIds tokens).keys ↔ t ∉ tokenIds ∧ t ∈ tokens.keys := by
  induction tokenIds generalizing tokens with
  | nil => simp [removeTokens]
  | cons x l ih =>
    rw [removeTokens, List.foldl_cons, ← removeTokens, ih, SortedMap.mem_keys_erase,
      List.mem_cons, not_or]
    tauto

theorem size_removeTokens_le (tokenIds : List TokenAccount) (tokens : Deposits) :
    (removeTokens tokenIds tokens).size ≤ tokens.size := by
  induction tokenIds generalizing tokens with
  | nil => exact le_rfl
  | cons x l ih => exact (ih _).trans (SortedMap.size_erase_le tokens x)

theorem get_removeTokens {tokens : Deposits} {t : TokenAccount} :
    (removeTokens tokenIds tokens).get t = if t ∈ tokenIds then none else tokens.get t := by
  induction tokenIds generalizing tokens with
  | nil => simp [removeTokens]
  | cons x l ih =>
    rw [removeTokens, List.foldl_cons, ← removeTokens, ih]
    by_cases hx : t = x
    · subst hx
      simp [SortedMap.get_erase_self]
    · simp [hx, SortedMap.get_erase_of_ne hx]

theorem apply_tokens {terms : Terms} {tx : Transaction} {account : Option Account} {acc : Account}
    (h : apply terms tx account = .ok acc) :
    (∃ b, tx.method = .storageDeposit b ∧ acc.tokens = (account.map Account.tokens).getD .empty) ∨
    (∃ ids a, tx.method = .registerTokens ids ∧ account = some a ∧
      acc.tokens = addTokens ids a.tokens) ∨
    ∃ ids a, tx.method = .unregisterTokens ids ∧ account = some a ∧
      acc.tokens = removeTokens ids a.tokens := by
  obtain ⟨signer, method, amount⟩ := tx
  cases method with
  | storageDeposit b =>
    refine .inl ⟨b, rfl, ?_⟩
    cases account with
    | none =>
      simp only [apply, storageDeposit] at h
      split_ifs at h
      all_goals
        cases h
        rfl
    | some a =>
      cases h
      cases b <;> rfl
  | registerTokens ids =>
    simp only [apply, requireOneYocto] at h
    split_ifs at h
    cases account with
    | none => cases h
    | some a =>
      simp only [registerTokens] at h
      split_ifs at h
      cases h
      exact .inr (.inl ⟨ids, a, rfl, rfl, rfl⟩)
  | unregisterTokens ids =>
    simp only [apply, requireOneYocto] at h
    split_ifs at h
    cases account with
    | none => cases h
    | some a =>
      simp only [unregisterTokens] at h
      split_ifs at h
      cases h
      exact .inr (.inr ⟨ids, a, rfl, rfl, rfl⟩)

end Contract

end Zaciraci.Storage
