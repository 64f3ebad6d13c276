import Zaciraci.Storage.Ensure

namespace Zaciraci.Storage

open Lib Program

def Request.unregistered : Request → List (List TokenAccount)
  | .exec ⟨_, .unregisterTokens tokenIds, _⟩ => [tokenIds]
  | _ => []

/-- The token lists of the `unregister_tokens` transactions, in the order they were sent. -/
def unregistered (τ : List StorageExchange) : List (List TokenAccount) :=
  τ.flatMap fun e ↦ e.request.unregistered

def readDeposits : StorageExchange → List Deposits
  | ⟨.getDeposits _, .ok deposits⟩ => [deposits]
  | _ => []

def depositsRead (τ : List StorageExchange) : List Deposits := τ.flatMap readDeposits

def Request.Silent : Request → Prop
  | .getDeposits _ => False
  | .exec ⟨_, .unregisterTokens _, _⟩ => False
  | _ => True

section Traces

variable {e : StorageExchange} {τ υ : List StorageExchange}

@[simp] theorem unregistered_nil : unregistered [] = [] := rfl

@[simp] theorem unregistered_cons :
    unregistered (e :: τ) = e.request.unregistered ++ unregistered τ := rfl

@[simp] theorem unregistered_append :
    unregistered (τ ++ υ) = unregistered τ ++ unregistered υ := by simp [unregistered]

@[simp] theorem depositsRead_nil : depositsRead [] = [] := rfl

@[simp] theorem depositsRead_cons :
    depositsRead (e :: τ) = readDeposits e ++ depositsRead τ := rfl

@[simp] theorem depositsRead_append :
    depositsRead (τ ++ υ) = depositsRead τ ++ depositsRead υ := by simp [depositsRead]

theorem Request.Silent.quiet {q : Request} (h : q.Silent) (a : Answer q) :
    q.unregistered = [] ∧ readDeposits ⟨q, a⟩ = [] := by
  cases q with
  | getDeposits account => exact h.elim
  | storageBalanceOf account => exact ⟨rfl, rfl⟩
  | storageBalanceBounds => exact ⟨rfl, rfl⟩
  | exec tx =>
    obtain ⟨signer, method, deposit⟩ := tx
    cases method with
    | unregisterTokens ids => exact h.elim
    | storageDeposit b => exact ⟨rfl, rfl⟩
    | registerTokens ids => exact ⟨rfl, rfl⟩

theorem quiet_of_silent (h : ∀ e ∈ τ, e.request.Silent) :
    unregistered τ = [] ∧ depositsRead τ = [] := by
  induction τ with
  | nil => exact ⟨rfl, rfl⟩
  | cons e τ ih =>
    obtain ⟨he, hτ⟩ := List.forall_mem_cons.mp h
    obtain ⟨h₁, h₂⟩ := he.quiet e.answer
    obtain ⟨h₃, h₄⟩ := ih hτ
    exact ⟨by simp [h₁, h₃], by simp [h₂, h₄]⟩

end Traces

section Calls

variable {wallet : Wallet}

theorem always_takeSnapshot : (takeSnapshot wallet).Always fun τ o ↦
    unregistered τ = [] ∧ ∀ s, o = .ok s → depositsRead τ = [s.deposits] := by
  refine always_request_bind.mpr ⟨fun m ↦ ⟨rfl, by simp⟩, fun balance ↦ ?_⟩
  cases balance with
  | none => exact always_fail.mpr ⟨rfl, by simp⟩
  | some balance =>
    refine always_request_bind.mpr ⟨fun m ↦ ⟨rfl, by simp⟩, fun deposits ↦ ?_⟩
    refine always_request_bind.mpr ⟨fun m ↦ ⟨rfl, by simp⟩, fun bounds ↦ ?_⟩
    refine always_pure.mpr ⟨rfl, ?_⟩
    rintro s ⟨⟩
    rfl

theorem always_unregisterChunks (l : List (List TokenAccount)) :
    (unregisterChunks wallet l).Always fun τ _ ↦ unregistered τ = l ∧ depositsRead τ = [] := by
  induction l with
  | nil => exact always_pure.mpr ⟨rfl, rfl⟩
  | cons chunk rest ih =>
    refine always_perform.mpr fun a ↦ ih.mono fun τ o h ↦ ⟨?_, ?_⟩
    · rw [unregistered_cons, h.1]
      rfl
    · rw [depositsRead_cons, h.2]
      rfl

theorem always_unregisterStale (keep toUnregister : List TokenAccount) :
    (unregisterStale wallet keep toUnregister).Always fun τ _ ↦ unregistered τ = [] ∨
      ∃ fresh υ, τ = ⟨.getDeposits wallet.accountId, .ok fresh⟩ :: υ ∧ depositsRead υ = [] ∧
        unregistered υ = chunks chunkSize (verified fresh keep toUnregister) := by
  rw [unregisterStale]
  split_ifs with h
  · exact always_pure.mpr (.inl rfl)
  · refine always_request_bind.mpr ⟨fun m ↦ .inl rfl, fun fresh ↦ ?_⟩
    exact (always_unregisterChunks _).mono fun υ o hυ ↦ .inr ⟨fresh, υ, rfl, hυ.2, hυ.1⟩

end Calls

/-- The token was planned for and empty in the deposits the plan was made from, and it was
empty again in the one later read, which all `unregister_tokens` transactions follow. -/
def EmptyInBothReads (account : AccountId) (neededTokens keep : List TokenAccount)
    (τ : List StorageExchange) (t : TokenAccount) : Prop :=
  ∃ snapshot fresh u r n before after,
    τ = before ++ ⟨.getDeposits account, .ok fresh⟩ :: after ∧ unregistered before = [] ∧
    depositsRead before = [snapshot.deposits] ∧ depositsRead after = [] ∧
    plan snapshot neededTokens keep = .ok (.normal u r n) ∧ t ∈ u ∧
    snapshot.deposits.get t = some 0 ∧ fresh.get t = some 0

structure UnregistersSafely (account : AccountId) (neededTokens keep : List TokenAccount)
    (τ : List StorageExchange) : Prop where
  chunk_length : ∀ ids ∈ unregistered τ, 1 ≤ ids.length ∧ ids.length ≤ 10
  once : (unregistered τ).flatten.Nodup
  unwanted : ∀ t ∈ (unregistered τ).flatten, t ∉ keep ∧ t ∉ neededTokens
  empty : ∀ t ∈ (unregistered τ).flatten, EmptyInBothReads account neededTokens keep τ t

section Safety

variable {wallet : Wallet} {neededTokens keep : List TokenAccount} {τ : List StorageExchange}

theorem unregistersSafely_of_quiet (h : unregistered τ = []) :
    UnregistersSafely wallet.accountId neededTokens keep τ :=
  ⟨by simp [h], by simp [h], by simp [h], by simp [h]⟩

theorem unregistersSafely_of_plan {snapshot : StorageSnapshot} {fresh : Deposits}
    {u r : List TokenAccount} {n : ℕ} {before after : List StorageExchange}
    (hplan : plan snapshot neededTokens keep = .ok (.normal u r n))
    (hbefore : unregistered before = []) (hread : depositsRead before = [snapshot.deposits])
    (hafter : unregistered after = chunks chunkSize (verified fresh keep u))
    (hread' : depositsRead after = []) :
    UnregistersSafely wallet.accountId neededTokens keep
      (before ++ ⟨.getDeposits wallet.accountId, .ok fresh⟩ :: after) := by
  have hsent : unregistered (before ++ ⟨.getDeposits wallet.accountId, .ok fresh⟩ :: after) =
      chunks chunkSize (verified fresh keep u) := by
    rw [unregistered_append, unregistered_cons, hbefore, hafter]
    rfl
  have hflat := flatten_chunks (show 0 < chunkSize by decide) (verified fresh keep u)
  have hsub : u.Sublist (unregisterCandidates snapshot.deposits neededTokens keep) :=
    (plan_eq_normal hplan).1 ▸ toUnregister_sublist
  refine ⟨fun ids hids ↦ ?_, ?_, fun t ht ↦ ?_, fun t ht ↦ ?_⟩
  · rw [hsent] at hids
    exact length_chunk (by decide) hids
  · rw [hsent, hflat]
    exact ((unregisterCandidates_nodup _).sublist hsub).filter _
  · rw [hsent, hflat] at ht
    exact (plan_normal_unwanted hplan (List.mem_of_mem_filter ht)).2
  · rw [hsent, hflat] at ht
    have hu : t ∈ u := List.mem_of_mem_filter ht
    have hfresh : fresh.get t = some 0 := (of_decide_eq_true (List.mem_filter.mp ht).2).1
    exact ⟨snapshot, fresh, u, r, n, before, after, rfl, hbefore, hread, hread', hplan, hu,
      (plan_normal_unwanted hplan hu).1, hfresh⟩

theorem always_executePlan_safe {maxTopUp initialDeposit : ℕ} {snapshot : StorageSnapshot}
    {p : Plan} (hplan : plan snapshot neededTokens keep = .ok p)
    (hτ : unregistered τ = []) (hread : depositsRead τ = [snapshot.deposits]) :
    (executePlan wallet keep maxTopUp initialDeposit p).Always fun υ _ ↦
      UnregistersSafely wallet.accountId neededTokens keep (τ ++ υ) := by
  cases p with
  | initialRegister tokens =>
    have hsilent : (registerMissing wallet tokens).Uses Request.Silent :=
      uses_registerMissing (fun _ ↦ trivial) tokens
    refine hsilent.always.mono fun υ _ hυ ↦ ?_
    exact unregistersSafely_of_quiet (by simp [hτ, (quiet_of_silent hυ).1])
  | normal u r n =>
    refine (always_unregisterStale keep u).bind (fun υ _ hυ ↦ ?_) (fun υ e hυ ↦ ?_)
      (fun υ m hυ ↦ ?_)
    · refine (uses_topUpAndRegister (P := Request.Silent) trivial (fun _ ↦ trivial)
        (fun _ ↦ trivial) _).always.mono fun ω _ hω ↦ ?_
      obtain ⟨hω, hωread⟩ := quiet_of_silent hω
      rcases hυ with hυ | ⟨fresh, txs, rfl, htread, htxs⟩
      · exact unregistersSafely_of_quiet (by simp [hτ, hυ, hω])
      · exact unregistersSafely_of_plan hplan hτ hread (by simp [hω, htxs])
          (by simp [htread, hωread])
    all_goals
      rcases hυ with hυ | ⟨fresh, txs, rfl, htread, htxs⟩
      · exact unregistersSafely_of_quiet (by simp [hτ, hυ])
      · exact unregistersSafely_of_plan hplan hτ hread htxs htread

theorem always_lockedSetup_safe (maxTopUp : ℕ) :
    (lockedSetup wallet neededTokens keep maxTopUp).Always fun τ _ ↦
      UnregistersSafely wallet.accountId neededTokens keep τ := by
  refine (uses_initialRegistration (P := Request.Silent) trivial trivial (fun _ ↦ trivial)
    maxTopUp).always.bind (fun τ d hτ ↦ ?_)
    (fun τ e hτ ↦ unregistersSafely_of_quiet (quiet_of_silent hτ).1)
    (fun τ m hτ ↦ unregistersSafely_of_quiet (quiet_of_silent hτ).1)
  obtain ⟨hτ, hread⟩ := quiet_of_silent hτ
  refine always_takeSnapshot.bind (fun υ snapshot hυ ↦ ?_)
    (fun υ e hυ ↦ unregistersSafely_of_quiet (by simp [hτ, hυ.1]))
    (fun υ m hυ ↦ unregistersSafely_of_quiet (by simp [hτ, hυ.1]))
  cases hp : plan snapshot neededTokens keep with
  | ok p =>
    have h : (executePlan wallet keep maxTopUp d p).Always fun ω _ ↦
        UnregistersSafely wallet.accountId neededTokens keep (τ ++ υ ++ ω) :=
      always_executePlan_safe hp (by simp [hτ, hυ.1]) (by simp [hread, hυ.2 snapshot rfl])
    simp only [List.append_assoc] at h
    exact h
  | err e => exact always_done.mpr (unregistersSafely_of_quiet (by simp [hτ, hυ.1]))
  | panicked m => exact always_done.mpr (unregistersSafely_of_quiet (by simp [hτ, hυ.1]))

end Safety

/-- Whatever the client answers, a call only unregisters tokens nobody wants, each of them
empty in both reads and sent in one transaction of at most ten. -/
theorem ensureRefStorageSetup_unregister_safety (wallet : Wallet)
    (neededTokens keep : List TokenAccount) (maxTopUp : ℕ) :
    (ensureRefStorageSetup wallet neededTokens keep maxTopUp).Always fun τ _ ↦
      UnregistersSafely wallet.accountId neededTokens keep τ := by
  rw [ensureRefStorageSetup]
  split_ifs
  · exact always_fail.mpr (unregistersSafely_of_quiet rfl)
  · exact always_lockedSetup_safe maxTopUp

end Zaciraci.Storage
