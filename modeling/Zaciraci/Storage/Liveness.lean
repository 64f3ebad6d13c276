import Zaciraci.Storage.Contract
import Zaciraci.Storage.Unregister

namespace Zaciraci.Storage

open Lib Program Contract

def honest (terms : Terms) : Environment Request Answer Accounts := deterministic (respond terms)

def Request.IsView : Request → Prop
  | .exec _ => False
  | _ => True

section Calls

variable (terms : Terms) (s : Accounts)

theorem ends_balanceOf (account : AccountId) : (balanceOf account).Ends (honest terms)
    Request.IsView s (.ok ((s account).map (Account.balance terms))) s :=
  ends_request (q := .storageBalanceOf account) rfl trivial

theorem ends_checkBounds :
    checkBounds.Ends (honest terms) Request.IsView s (.ok ⟨terms.accountCost, none⟩) s :=
  ends_request (q := .storageBalanceBounds) rfl trivial

theorem ends_getDeposits (account : AccountId) : (getDeposits account).Ends (honest terms)
    Request.IsView s (.ok (deposits s account)) s :=
  ends_request (q := .getDeposits account) rfl trivial

variable {terms s} {wallet : Wallet} {a : Account} {maxTopUp : ℕ}

theorem ends_exec {tx : Transaction} (h : apply terms tx (s tx.signer) = .ok a) :
    (request (.exec tx)).Ends (honest terms) (fun _ ↦ True) s (.ok ())
      (Function.update s tx.signer (some a)) :=
  ends_request (by simp only [honest, deterministic, respond, h]) trivial

theorem ends_exec_error {tx : Transaction} {m : String}
    (h : apply terms tx (s tx.signer) = .error m) :
    (request (.exec tx)).Ends (honest terms) (fun _ ↦ True) s (.err (.rpc m)) s :=
  ends_request_error (by simp only [honest, deterministic, respond, h]) trivial

theorem ends_initialRegistration_known (h : s wallet.accountId = some a) :
    (initialRegistration wallet maxTopUp).Ends (honest terms) Request.IsView s (.ok 0) s := by
  have h₁ := ends_balanceOf terms s wallet.accountId
  rw [h] at h₁
  exact h₁.bind ends_done

def snapshotOf (terms : Terms) (a : Account) : StorageSnapshot :=
  ⟨a.balance terms, a.tokens, ⟨terms.accountCost, none⟩⟩

theorem ends_takeSnapshot (h : s wallet.accountId = some a) :
    (takeSnapshot wallet).Ends (honest terms) Request.IsView s (.ok (snapshotOf terms a)) s := by
  have h₁ := ends_balanceOf terms s wallet.accountId
  have h₂ := ends_getDeposits terms s wallet.accountId
  have hdep : deposits s wallet.accountId = a.tokens := by simp [deposits, h]
  rw [h] at h₁
  rw [hdep] at h₂
  exact h₁.bind (h₂.bind ((ends_checkBounds terms s).bind ends_done))

theorem ends_planAndExecute {P : Request → Prop} {neededTokens keep : List TokenAccount}
    {initialDeposit : ℕ} {p : Plan} {o : Outcome StorageError Unit} {s' : Accounts}
    (h : s wallet.accountId = some a) (hP : ∀ q, q.IsView → P q)
    (hplan : plan (snapshotOf terms a) neededTokens keep = .ok p)
    (hexec : (executePlan wallet keep maxTopUp initialDeposit p).Ends (honest terms) P s o s') :
    (planAndExecute wallet neededTokens keep maxTopUp initialDeposit).Ends (honest terms) P s o
      s' := by
  refine ((ends_takeSnapshot h).mono hP).bind ?_
  rw [hplan]
  exact hexec

theorem ends_initialRegistration_fresh (h : s wallet.accountId = none)
    (hcap : terms.accountCost ≤ maxTopUp) :
    (initialRegistration wallet maxTopUp).Ends (honest terms) (fun _ ↦ True) s
      (.ok terms.accountCost)
      (Function.update s wallet.accountId (some ⟨terms.accountCost, .empty⟩)) := by
  have h₁ := ends_balanceOf terms s wallet.accountId
  rw [h] at h₁
  have happly : apply terms ⟨wallet.signer, .storageDeposit true, terms.accountCost⟩
      (s wallet.signer) = .ok ⟨terms.accountCost, .empty⟩ := by
    rw [show s wallet.signer = none from h]
    simp [apply, storageDeposit]
  refine (h₁.mono fun _ _ ↦ trivial).bind ?_
  refine ((ends_checkBounds terms s).mono fun _ _ ↦ trivial).bind ?_
  change Ends _ _ (if maxTopUp < terms.accountCost then _ else _) _ _ _
  rw [if_neg hcap.not_gt]
  exact (ends_exec happly).bind ends_done

end Calls

section Fresh

variable {terms : Terms} {wallet : Wallet} {s : Accounts} {neededTokens : List TokenAccount}
  (keep : List TokenAccount) {maxTopUp : ℕ}

/-- The account a registration-only deposit creates: paid for itself, with nothing to spare. -/
def bareAccount (terms : Terms) : Account := ⟨terms.accountCost, .empty⟩

theorem registerTokens_bareAccount (hc : 0 < terms.tokenCost) (hne : neededTokens ≠ []) :
    ∃ m, Contract.registerTokens terms neededTokens (some (bareAccount terms)) = .error m := by
  obtain ⟨t, ht⟩ := List.exists_mem_of_ne_nil _ hne
  have hmem : t ∈ (addTokens neededTokens SortedMap.empty).keys :=
    mem_keys_addTokens.mpr (.inl ht)
  have hsize : 0 < (addTokens neededTokens SortedMap.empty).size := by
    rw [SortedMap.keys] at hmem
    have := List.length_pos_of_mem hmem
    rwa [List.length_map] at this
  have hpos : 0 < terms.tokenCost * (addTokens neededTokens SortedMap.empty).size :=
    Nat.mul_pos hc hsize
  refine ⟨_, if_pos ?_⟩
  simp only [bareAccount, Account.usage]
  omega

/-- With no deposit there is nothing to measure a token by, so the plan is to register
right away, and the contract refuses. -/
theorem ends_planAndExecute_bare (hc : 0 < terms.tokenCost) (hne : neededTokens ≠ [])
    (hlen : neededTokens.length ≤ maxRegisterPerCycle)
    (hs : s wallet.accountId = some (bareAccount terms)) (initialDeposit : ℕ) :
    ∃ e, (planAndExecute wallet neededTokens keep maxTopUp initialDeposit).Ends (honest terms)
      (fun _ ↦ True) s (.err e) s := by
  obtain ⟨m, hm⟩ := registerTokens_bareAccount hc hne
  have hplan : plan (snapshotOf terms (bareAccount terms)) neededTokens keep =
      .ok (.initialRegister neededTokens) := by
    rw [plan_of_empty rfl, if_neg hlen.not_gt]
  have happly : apply terms ⟨wallet.signer, .registerTokens neededTokens, 1⟩
      (s wallet.signer) = .error m := by
    rw [show s wallet.signer = some (bareAccount terms) from hs]
    exact hm
  refine ⟨.rpc m, ends_planAndExecute hs (fun _ _ ↦ trivial) hplan ?_⟩
  rw [executePlan, handleInitialRegister, registerMissing, if_neg hne]
  exact ends_exec_error happly

theorem ends_ensure_bare (hc : 0 < terms.tokenCost) (hne : neededTokens ≠ [])
    (hlen : neededTokens.length ≤ maxRegisterPerCycle)
    (hs : s wallet.accountId = some (bareAccount terms)) :
    ∃ e, (ensureRefStorageSetup wallet neededTokens keep maxTopUp).Ends (honest terms)
      (fun _ ↦ True) s (.err e) s := by
  obtain ⟨e, he⟩ := ends_planAndExecute_bare keep hc hne hlen hs 0
  rw [ensureRefStorageSetup, if_neg hlen.not_gt]
  exact ⟨e, ((ends_initialRegistration_known hs).mono fun _ _ ↦ trivial).bind he⟩

theorem ends_ensure_fresh (hc : 0 < terms.tokenCost) (hne : neededTokens ≠ [])
    (hlen : neededTokens.length ≤ maxRegisterPerCycle) (hcap : terms.accountCost ≤ maxTopUp)
    (hs : s wallet.accountId = none) :
    ∃ e, (ensureRefStorageSetup wallet neededTokens keep maxTopUp).Ends (honest terms)
      (fun _ ↦ True) s (.err e)
      (Function.update s wallet.accountId (some (bareAccount terms))) := by
  have hself : Function.update s wallet.accountId (some (bareAccount terms)) wallet.accountId =
      some (bareAccount terms) := Function.update_self ..
  obtain ⟨e, he⟩ := ends_planAndExecute_bare keep hc hne hlen hself terms.accountCost
  rw [ensureRefStorageSetup, if_neg hlen.not_gt]
  exact ⟨e, (ends_initialRegistration_fresh hs hcap).bind he⟩

def stateAfter (terms : Terms) (call : StorageProgram Unit) (s : Accounts) : ℕ → Accounts
  | 0 => s
  | k + 1 => (run (respond terms) call (stateAfter terms call s k)).state

theorem stateAfter_fresh (hc : 0 < terms.tokenCost) (hne : neededTokens ≠ [])
    (hlen : neededTokens.length ≤ maxRegisterPerCycle) (hcap : terms.accountCost ≤ maxTopUp)
    (hs : s wallet.accountId = none) (k : ℕ) :
    stateAfter terms (ensureRefStorageSetup wallet neededTokens keep maxTopUp) s k
        wallet.accountId = none ∨
      stateAfter terms (ensureRefStorageSetup wallet neededTokens keep maxTopUp) s k
        wallet.accountId = some (bareAccount terms) := by
  induction k with
  | zero => exact .inl hs
  | succ k ih =>
    rw [stateAfter]
    rcases ih with h | h
    · obtain ⟨e, he⟩ := ends_ensure_fresh keep hc hne hlen hcap h
      rw [(run_of_ends he).2.1, Function.update_self]
      exact .inr rfl
    · obtain ⟨e, he⟩ := ends_ensure_bare keep hc hne hlen h
      rw [(run_of_ends he).2.1]
      exact .inr h

theorem stuck_of_fresh (hc : 0 < terms.tokenCost) (hne : neededTokens ≠ [])
    (hlen : neededTokens.length ≤ maxRegisterPerCycle) (hcap : terms.accountCost ≤ maxTopUp)
    (hs : s wallet.accountId = none) (k : ℕ) :
    let call := ensureRefStorageSetup wallet neededTokens keep maxTopUp
    (run (respond terms) call (stateAfter terms call s k)).outcome ≠ .ok () ∧
      deposits (stateAfter terms call s k) wallet.accountId = .empty := by
  intro call
  rcases stateAfter_fresh keep hc hne hlen hcap hs k with h | h
  · obtain ⟨e, he⟩ := ends_ensure_fresh keep hc hne hlen hcap h
    rw [(run_of_ends he).1]
    exact ⟨by simp, by simp [deposits, call, h]⟩
  · obtain ⟨e, he⟩ := ends_ensure_bare keep hc hne hlen h
    rw [(run_of_ends he).1]
    exact ⟨by simp, by simp [deposits, call, h, bareAccount]⟩

end Fresh

theorem freshAccount_never_set_up (terms : Terms) (hc : 0 < terms.tokenCost) (wallet : Wallet)
    (s : Accounts) (hs : s wallet.accountId = none) (neededTokens keep : List TokenAccount)
    (hne : neededTokens ≠ []) (hlen : neededTokens.length ≤ 100) (maxTopUp : ℕ)
    (hcap : terms.accountCost +
      (11 * max terms.accountCost terms.tokenCost * neededTokens.length) ⌈/⌉ 10 ≤ maxTopUp) :
    let call := ensureRefStorageSetup wallet neededTokens keep maxTopUp
    ∀ k, (run (respond terms) call (stateAfter terms call s k)).outcome ≠ .ok () ∧
      ∀ t ∈ neededTokens, t ∉ (deposits (stateAfter terms call s k) wallet.accountId).keys := by
  intro call k
  have hle : terms.accountCost ≤ maxTopUp := by omega
  obtain ⟨hok, hdep⟩ := stuck_of_fresh keep hc hne hlen hle hs k
  refine ⟨hok, fun t _ ↦ ?_⟩
  rw [hdep]
  exact List.not_mem_nil

theorem freshAccount_never_set_up_one_token :
    let call := ensureRefStorageSetup ⟨"alice.near"⟩ [⟨"usdt.near"⟩] [⟨"wrap.near"⟩] 3
    ∀ k, (run (respond ⟨1, 1⟩) call (stateAfter ⟨1, 1⟩ call (fun _ ↦ none) k)).outcome ≠ .ok () ∧
      ∀ t ∈ [(⟨"usdt.near"⟩ : TokenAccount)],
        t ∉ (deposits (stateAfter ⟨1, 1⟩ call (fun _ ↦ none) k) "alice.near").keys :=
  freshAccount_never_set_up ⟨1, 1⟩ (by decide) ⟨"alice.near"⟩ (fun _ ↦ none) rfl
    [⟨"usdt.near"⟩] [⟨"wrap.near"⟩] (by decide) (by decide) 3 (by decide)

/-- One needed token, both costs one yoctoNEAR and a cap of three: no call ever returns `Ok`. -/
theorem freshAccount_self_healing_fails :
    1 + (11 * max 1 1 * 1) ⌈/⌉ 10 ≤ 3 ∧
    ¬ ∃ k, (run (respond ⟨1, 1⟩) (ensureRefStorageSetup ⟨"alice.near"⟩ [⟨"usdt.near"⟩] [] 3)
      (stateAfter ⟨1, 1⟩ (ensureRefStorageSetup ⟨"alice.near"⟩ [⟨"usdt.near"⟩] [] 3)
        (fun _ ↦ none) k)).outcome = .ok () := by
  refine ⟨by decide, fun ⟨k, hk⟩ ↦ ?_⟩
  have hc : 0 < (⟨1, 1⟩ : Terms).tokenCost := by decide
  exact (stuck_of_fresh [] hc (by decide) (by decide) (by decide) rfl k).1 hk

end Zaciraci.Storage
