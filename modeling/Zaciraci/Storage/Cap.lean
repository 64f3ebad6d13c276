import Zaciraci.Storage.Ensure

namespace Zaciraci.Storage

open Lib Program

def Request.storageDeposit : Request → ℕ
  | .exec ⟨_, .storageDeposit _, value⟩ => value
  | _ => 0

def Request.RegistersWithOneYocto : Request → Prop
  | .exec ⟨_, .registerTokens _, value⟩ => value = 1
  | _ => True

def spent (τ : List StorageExchange) : ℕ := (τ.map fun e ↦ e.request.storageDeposit).sum

@[simp] theorem spent_nil : spent [] = 0 := rfl

@[simp] theorem spent_cons (e : StorageExchange) (τ : List StorageExchange) :
    spent (e :: τ) = e.request.storageDeposit + spent τ := List.sum_cons

@[simp] theorem spent_append (τ υ : List StorageExchange) : spent (τ ++ υ) = spent τ + spent υ := by
  simp [spent]

/-- The exchanges of a call that deposits at most `cap` and does not panic. -/
structure Capped {α : Type} (cap : ℕ) (τ : List StorageExchange)
    (o : Outcome StorageError α) : Prop where
  spent_le : spent τ ≤ cap
  not_panicked : ∀ m, o ≠ .panicked m
  one_yocto : ∀ e ∈ τ, e.request.RegistersWithOneYocto

variable {α β : Type} {a b c : ℕ}

variable {o : Outcome StorageError α}

theorem capped_nil (ho : ∀ m, o ≠ .panicked m) : Capped c [] o :=
  ⟨Nat.zero_le _, ho, by simp⟩

variable {τ : List StorageExchange}

theorem Capped.cons {e : StorageExchange} (h : Capped b τ o) (he : e.request.RegistersWithOneYocto)
    (hab : e.request.storageDeposit + b ≤ c) : Capped c (e :: τ) o := by
  refine ⟨?_, h.not_panicked, ?_⟩
  · have := h.spent_le
    rw [spent_cons]
    omega
  · exact List.forall_mem_cons.mpr ⟨he, h.one_yocto⟩

theorem Capped.append {o' : Outcome StorageError β} {τ υ : List StorageExchange} (h : Capped a τ o)
    (h' : Capped b υ o') (hab : a + b ≤ c) :
    Capped c (τ ++ υ) o' := by
  refine ⟨?_, h'.not_panicked, ?_⟩
  · have h₁ := h.spent_le
    have h₂ := h'.spent_le
    rw [spent_append]
    omega
  · exact List.forall_mem_append.mpr ⟨h.one_yocto, h'.one_yocto⟩

theorem Capped.mono (h : Capped a τ o) (hab : a ≤ b) :
    Capped b τ o := ⟨h.spent_le.trans hab, h.not_panicked, h.one_yocto⟩

theorem Capped.of_outcome {o' : Outcome StorageError β} (h : Capped a τ o)
    (ho : ∀ m, o' ≠ .panicked m) : Capped a τ o' :=
  ⟨h.spent_le, ho, h.one_yocto⟩

theorem always_capped_request (q : Request) (hq : q.RegistersWithOneYocto)
    (hc : q.storageDeposit ≤ c) : (request q).Always (Capped c) := by
  refine always_request.mpr ⟨fun m ↦ ?_, fun r ↦ ?_⟩
  · exact (capped_nil (c := 0) (by simp)).cons hq hc
  · exact (capped_nil (c := 0) (by simp)).cons hq hc

theorem always_capped_bind {p : StorageProgram α} {f : α → StorageProgram β}
    (hp : p.Always (Capped a)) (hf : ∀ x, (f x).Always (Capped b)) (hab : a + b ≤ c) :
    (p >>= f).Always (Capped c) := by
  have hle : a ≤ c := by omega
  refine hp.bind (fun τ x h ↦ ?_) (fun τ e h ↦ ?_) (fun τ m h ↦ ?_)
  · exact (hf x).mono fun υ o h' ↦ h.append h' hab
  · exact (h.mono hle).of_outcome (by simp)
  · exact absurd rfl (h.not_panicked m)

theorem always_capped_pure (x : α) : (pure x : StorageProgram α).Always (Capped c) :=
  always_pure.mpr (capped_nil (by simp))

theorem always_capped_fail (e : StorageError) : (fail e : StorageProgram α).Always (Capped c) :=
  always_fail.mpr (capped_nil (by simp))

section Calls

variable {wallet : Wallet}

theorem always_capped_balanceOf (account : AccountId) : (balanceOf account).Always (Capped 0) :=
  always_capped_request (.storageBalanceOf account) trivial le_rfl

theorem always_capped_getDeposits (account : AccountId) :
    (getDeposits account).Always (Capped 0) :=
  always_capped_request (.getDeposits account) trivial le_rfl

theorem always_capped_checkBounds : checkBounds.Always (Capped 0) :=
  always_capped_request .storageBalanceBounds trivial le_rfl

theorem always_capped_deposit {value : ℕ} {mode : DepositMode} (h : value ≤ c) :
    (deposit wallet value mode).Always (Capped c) :=
  always_capped_request (.exec ⟨_, .storageDeposit _, value⟩) trivial h

theorem always_capped_registerTokens (tokens : List TokenAccount) :
    (registerTokens wallet tokens).Always (Capped 0) :=
  always_capped_request (.exec ⟨_, .registerTokens tokens, 1⟩) rfl le_rfl

theorem always_capped_unregisterChunks (l : List (List TokenAccount)) :
    (unregisterChunks wallet l).Always (Capped 0) := by
  induction l with
  | nil => exact always_capped_pure ()
  | cons chunk rest ih =>
    refine always_perform.mpr fun a ↦ ih.mono fun τ o h ↦ ?_
    exact h.cons (by trivial) le_rfl

theorem always_capped_unregisterStale (keep toUnregister : List TokenAccount) :
    (unregisterStale wallet keep toUnregister).Always (Capped 0) := by
  rw [unregisterStale]
  split_ifs with h
  · exact always_capped_pure ()
  · exact always_capped_bind (always_capped_getDeposits _)
      (fun _ ↦ always_capped_unregisterChunks _) le_rfl

theorem always_capped_registerMissing (tokens : List TokenAccount) :
    (registerMissing wallet tokens).Always (Capped 0) := by
  rw [registerMissing]
  split_ifs
  · exact always_capped_pure ()
  · exact always_capped_registerTokens tokens

theorem always_capped_topUp {value : ℕ} (h : value ≤ c) :
    (topUp wallet value).Always (Capped c) := by
  rw [topUp]
  split_ifs
  · exact always_capped_pure ()
  · exact always_capped_deposit h

theorem always_capped_topUpAndRegister {args : NormalPlanArgs}
    (h : args.initialDeposit ≤ args.maxTopUp) :
    (topUpAndRegister wallet args).Always (Capped (args.maxTopUp - args.initialDeposit)) := by
  refine always_capped_bind (always_capped_balanceOf _) (fun balance ↦ ?_) (Nat.zero_add _).le
  cases balance with
  | none => exact always_capped_fail _
  | some balance =>
    simp only [checkedSub_of_le h, Outcome.expect_some]
    change Always _ (if _ then _ else _)
    split_ifs with hcap
    · exact always_capped_fail _
    · exact always_capped_bind (always_capped_topUp (not_lt.mp hcap))
        (fun _ ↦ always_capped_registerMissing _) le_rfl

theorem always_capped_executePlan {keep : List TokenAccount} {maxTopUp initialDeposit : ℕ}
    (h : initialDeposit ≤ maxTopUp) (plan : Plan) :
    (executePlan wallet keep maxTopUp initialDeposit plan).Always
      (Capped (maxTopUp - initialDeposit)) := by
  cases plan with
  | initialRegister tokens =>
    exact (always_capped_registerMissing tokens).mono fun _ _ h ↦ h.mono (Nat.zero_le _)
  | normal u r n =>
    exact always_capped_bind (always_capped_unregisterStale _ _)
      (fun _ ↦ always_capped_topUpAndRegister h) (Nat.zero_add _).le

theorem always_capped_takeSnapshot : (takeSnapshot wallet).Always (Capped 0) := by
  refine always_capped_bind (b := 0) (always_capped_balanceOf _) (fun balance ↦ ?_) le_rfl
  cases balance with
  | none => exact always_capped_fail _
  | some balance =>
    refine always_capped_bind (b := 0) (always_capped_getDeposits _) (fun deposits ↦ ?_) le_rfl
    exact always_capped_bind always_capped_checkBounds
      (fun _ ↦ always_capped_pure (c := 0) _) le_rfl

theorem always_initialRegistration (maxTopUp : ℕ) :
    (initialRegistration wallet maxTopUp).Always fun τ o ↦
      Capped maxTopUp τ o ∧ ∀ d, o = .ok d → spent τ = d ∧ d ≤ maxTopUp := by
  have view : ∀ {τ : List StorageExchange} {o : Outcome StorageError ℕ} {e : StorageExchange},
      e.request.RegistersWithOneYocto → e.request.storageDeposit = 0 →
      (Capped maxTopUp τ o ∧ ∀ d, o = .ok d → spent τ = d ∧ d ≤ maxTopUp) →
      Capped maxTopUp (e :: τ) o ∧ ∀ d, o = .ok d → spent (e :: τ) = d ∧ d ≤ maxTopUp := by
    intro τ o e hr he h
    refine ⟨h.1.cons hr (by omega), fun d hd ↦ ?_⟩
    rw [spent_cons, he, Nat.zero_add]
    exact h.2 d hd
  have none_spent : ∀ {e : StorageError}, Capped maxTopUp [] (.err e : Outcome _ ℕ) ∧
      ∀ d, (.err e : Outcome _ ℕ) = .ok d → spent [] = d ∧ d ≤ maxTopUp :=
    ⟨capped_nil (by simp), by simp⟩
  refine always_request_bind.mpr ⟨fun m ↦ view trivial rfl none_spent, fun balance ↦ ?_⟩
  cases balance with
  | some balance =>
    refine always_pure.mpr (view trivial rfl ⟨capped_nil (by simp), ?_⟩)
    rintro d ⟨⟩
    exact ⟨rfl, Nat.zero_le _⟩
  | none =>
    refine always_request_bind.mpr ⟨fun m ↦ ?_, fun bounds ↦ ?_⟩
    · exact view trivial rfl (view trivial rfl none_spent)
    change Always _ (if maxTopUp < bounds.min then _ else _)
    split_ifs with hcap
    · exact always_fail.mpr (view trivial rfl (view trivial rfl none_spent))
    · have hle : bounds.min ≤ maxTopUp := not_lt.mp hcap
      refine always_request_bind.mpr ⟨fun m ↦ ?_, fun _ ↦ always_pure.mpr ?_⟩
      · exact view trivial rfl (view trivial rfl
          ⟨(capped_nil (c := 0) (by simp)).cons trivial hle, by simp⟩)
      · refine view trivial rfl (view trivial rfl
          ⟨(capped_nil (c := 0) (by simp)).cons trivial hle, ?_⟩)
        rintro d ⟨⟩
        exact ⟨rfl, hle⟩

theorem always_capped_lockedSetup (neededTokens keep : List TokenAccount) (maxTopUp : ℕ) :
    (lockedSetup wallet neededTokens keep maxTopUp).Always (Capped maxTopUp) := by
  refine (always_initialRegistration maxTopUp).bind (fun τ d h ↦ ?_) (fun τ e h ↦ ?_)
    (fun τ m h ↦ ?_)
  · obtain ⟨hspent, hle⟩ := h.2 d rfl
    have hτ : Capped d τ (.ok d) := ⟨hspent.le, by simp, h.1.one_yocto⟩
    refine Always.mono (Φ := Capped (maxTopUp - d)) ?_ fun υ o h' ↦ hτ.append h' (by omega)
    refine always_capped_bind always_capped_takeSnapshot (fun snapshot ↦ ?_) (Nat.zero_add _).le
    cases hp : plan snapshot neededTokens keep with
    | ok p => exact always_capped_executePlan hle p
    | err e => exact always_capped_fail _
    | panicked m => exact absurd hp (plan_not_panicked m)
  · exact h.1.of_outcome (by simp)
  · exact absurd rfl (h.1.not_panicked m)

theorem always_capped_ensureRefStorageSetup (neededTokens keep : List TokenAccount)
    (maxTopUp : ℕ) :
    (ensureRefStorageSetup wallet neededTokens keep maxTopUp).Always (Capped maxTopUp) := by
  rw [ensureRefStorageSetup]
  split_ifs
  · exact always_capped_fail _
  · exact always_capped_lockedSetup neededTokens keep maxTopUp

end Calls

theorem maxTopUpFromConfig_le (src : Config.Sources) :
    maxTopUpFromConfig src ≤ 5 * 10 ^ 24 := Nat.min_le_right _ _

/-- One call never attaches more NEAR to its `storage_deposit` transactions than its cap, and
under the configured cap never more than 5 NEAR, whatever the client answers. -/
theorem ensureRefStorageSetup_spending_cap (wallet : Wallet)
    (neededTokens keep : List TokenAccount) :
    (∀ maxTopUp, (ensureRefStorageSetup wallet neededTokens keep maxTopUp).Always fun τ o ↦
      spent τ ≤ maxTopUp ∧ (∀ m, o ≠ .panicked m) ∧
        ∀ e ∈ τ, e.request.RegistersWithOneYocto) ∧
    ∀ src, (ensureRefStorageSetup wallet neededTokens keep (maxTopUpFromConfig src)).Always
      fun τ _ ↦ spent τ ≤ 5 * 10 ^ 24 := by
  refine ⟨fun maxTopUp ↦ ?_, fun src ↦ ?_⟩
  · exact (always_capped_ensureRefStorageSetup neededTokens keep maxTopUp).mono
      fun τ o h ↦ ⟨h.spent_le, h.not_panicked, h.one_yocto⟩
  · exact (always_capped_ensureRefStorageSetup neededTokens keep _).mono
      fun τ o h ↦ h.spent_le.trans (maxTopUpFromConfig_le src)

end Zaciraci.Storage
