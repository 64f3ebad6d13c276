import Zaciraci.Lib.Program
import Zaciraci.Config
import Zaciraci.Storage.Planner

namespace Zaciraci.Storage

open Lib

structure Wallet where
  accountId : AccountId
deriving DecidableEq

def Wallet.signer (wallet : Wallet) : AccountId := wallet.accountId

inductive DepositMode
  | registrationOnly
  | depositWithRegistration
deriving DecidableEq

def DepositMode.isRegistrationOnly : DepositMode → Bool
  | .registrationOnly => true
  | .depositWithRegistration => false

/-- The calls to the exchange contract that storage set-up makes, with their arguments. -/
inductive Method
  | storageDeposit (registrationOnly : Bool)
  | registerTokens (tokenIds : List TokenAccount)
  | unregisterTokens (tokenIds : List TokenAccount)
deriving DecidableEq

structure Transaction where
  signer : AccountId
  method : Method
  deposit : ℕ
deriving DecidableEq

/-- What storage set-up asks of the client. `exec` stands for sending a transaction and
waiting for its success. -/
inductive Request
  | storageBalanceOf (account : AccountId)
  | storageBalanceBounds
  | getDeposits (account : AccountId)
  | exec (tx : Transaction)
deriving DecidableEq

@[reducible] def Reply : Request → Type
  | .storageBalanceOf _ => Option StorageBalance
  | .storageBalanceBounds => StorageBalanceBounds
  | .getDeposits _ => Deposits
  | .exec _ => Unit

/-- Every request may fail with an error of the client. -/
abbrev Answer (q : Request) := Except String (Reply q)

inductive StorageError
  | rpc (message : String)
  | tooManyNeeded (count : ℕ)
  | initialDepositExceedsCap (amount cap : ℕ)
  | balanceDisappeared (stage : String)
  | topUpExceedsCap (actualTopUp remainingCap maxTopUp initialDeposit : ℕ)
  | plan (e : PlanError)
deriving DecidableEq

def StorageError.message : StorageError → String
  | .rpc message => message
  | .tooManyNeeded count =>
    s!"needed_tokens ({count}) exceeds MAX_REGISTER_PER_CYCLE ({maxRegisterPerCycle})"
  | .initialDepositExceedsCap amount cap =>
    s!"initial storage deposit {amount} yocto exceeds cap {cap} yocto"
  | .balanceDisappeared stage => s!"storage balance disappeared after {stage}"
  | .topUpExceedsCap actualTopUp remainingCap maxTopUp initialDeposit =>
    s!"ref storage top-up {actualTopUp} yocto exceeds remaining cap {remainingCap} yocto " ++
      s!"(max_top_up={maxTopUp}, initial_deposit={initialDeposit})"
  | .plan e => e.message

abbrev StorageProgram := Program Request Answer StorageError

abbrev StorageExchange := Exchange Request Answer

def request (q : Request) : StorageProgram (Reply q) := do
  .ofExcept ((← .perform q).mapError .rpc)

theorem always_request_bind {α : Type} {Φ : List StorageExchange → Outcome StorageError α → Prop}
    {q : Request} {f : Reply q → StorageProgram α} :
    (request q >>= f).Always Φ ↔ (∀ m, Φ [⟨q, .error m⟩] (.err (.rpc m))) ∧
      ∀ r, (f r).Always fun τ ↦ Φ (⟨q, .ok r⟩ :: τ) := by
  refine Program.always_ask.trans ⟨fun h ↦ ⟨fun m ↦ ?_, fun r ↦ h (.ok r)⟩, fun h a ↦ ?_⟩
  · exact Program.always_done.mp (h (.error m))
  · cases a with
    | error m => exact Program.always_done.mpr (h.1 m)
    | ok r => exact h.2 r

theorem always_request {q : Request}
    {Φ : List StorageExchange → Outcome StorageError (Reply q) → Prop} :
    (request q).Always Φ ↔ (∀ m, Φ [⟨q, .error m⟩] (.err (.rpc m))) ∧
      ∀ r, Φ [⟨q, .ok r⟩] (.ok r) := by
  refine Program.always_ask.trans ⟨fun h ↦ ⟨fun m ↦ ?_, fun r ↦ ?_⟩, fun h a ↦ ?_⟩
  · exact Program.always_done.mp (h (.error m))
  · exact Program.always_done.mp (h (.ok r))
  · cases a with
    | error m => exact Program.always_done.mpr (h.1 m)
    | ok r => exact Program.always_done.mpr (h.2 r)

theorem runs_request_bind {α σ : Type} {env : Program.Environment Request Answer σ} {q : Request}
    {f : Reply q → StorageProgram α} {s s' : σ} {τ : List StorageExchange}
    {o : Outcome StorageError α} (h : (request q >>= f).Runs env s τ o s') :
    (∃ m, env q s (.error m) s') ∨ ∃ r s₁ υ, env q s (.ok r) s₁ ∧ (f r).Runs env s₁ υ o s' := by
  cases h with
  | @ask _ _ _ s₁ _ a υ _ henv h =>
    cases a with
    | error m =>
      cases h
      exact .inl ⟨m, henv⟩
    | ok r => exact .inr ⟨r, s₁, υ, henv, h⟩

theorem uses_request {P : Request → Prop} {q : Request} (hq : P q) : (request q).Uses P :=
  (Program.uses_perform hq).bind fun _ ↦ Program.uses_ofExcept _

section Ends

variable {σ : Type} {env : Program.Environment Request Answer σ} {P : Request → Prop}
  {q : Request} {s s' : σ}

theorem ends_request {r : Reply q} (h : env q s (.ok r) s') (hq : P q) :
    (request q).Ends env P s (.ok r) s' := Program.ends_ask h hq Program.ends_done

theorem ends_request_error {m : String} (h : env q s (.error m) s') (hq : P q) :
    (request q).Ends env P s (.err (.rpc m)) s' := Program.ends_ask h hq Program.ends_done

end Ends

def checkBounds : StorageProgram StorageBalanceBounds := request .storageBalanceBounds

def balanceOf (account : AccountId) : StorageProgram (Option StorageBalance) :=
  request (.storageBalanceOf account)

def getDeposits (account : AccountId) : StorageProgram Deposits := request (.getDeposits account)

def deposit (wallet : Wallet) (value : ℕ) (mode : DepositMode) : StorageProgram Unit :=
  request (.exec ⟨wallet.signer, .storageDeposit mode.isRegistrationOnly, value⟩)

def registerTokens (wallet : Wallet) (tokens : List TokenAccount) : StorageProgram Unit :=
  request (.exec ⟨wallet.signer, .registerTokens tokens, 1⟩)

def unregisterTokens (wallet : Wallet) (tokens : List TokenAccount) :
    StorageProgram (Except String Unit) :=
  .perform (Request.exec ⟨wallet.signer, .unregisterTokens tokens, 1⟩)

/-- The loop over the chunks to unregister. The result of a chunk is only logged. -/
def unregisterChunks (wallet : Wallet) : List (List TokenAccount) → StorageProgram Unit
  | [] => pure ()
  | chunk :: rest => do
    let _ ← unregisterTokens wallet chunk
    unregisterChunks wallet rest

def chunkSize : ℕ := 10

def registerMissing (wallet : Wallet) (toRegister : List TokenAccount) : StorageProgram Unit :=
  if toRegister = [] then pure () else registerTokens wallet toRegister

def handleInitialRegister (wallet : Wallet) (toRegister : List TokenAccount) :
    StorageProgram Unit := registerMissing wallet toRegister

def topUp (wallet : Wallet) (actualTopUp : ℕ) : StorageProgram Unit :=
  if actualTopUp = 0 then pure () else deposit wallet actualTopUp .depositWithRegistration

structure NormalPlanArgs where
  keep : List TokenAccount
  maxTopUp : ℕ
  initialDeposit : ℕ
  toUnregister : List TokenAccount
  toRegister : List TokenAccount
  preUnregisterEstimate : ℕ

/-- The tokens of the plan that still have an empty deposit and are not to be kept. -/
def verified (freshDeposits : Deposits) (keep toUnregister : List TokenAccount) :
    List TokenAccount :=
  toUnregister.filter fun token ↦ freshDeposits.get token = some 0 ∧ token ∉ keep

/-- Step 3 of the set-up: the deposits are read again before anything is unregistered. -/
def unregisterStale (wallet : Wallet) (keep toUnregister : List TokenAccount) :
    StorageProgram Unit :=
  if toUnregister = [] then pure () else do
    let freshDeposits ← getDeposits wallet.accountId
    unregisterChunks wallet (chunks chunkSize (verified freshDeposits keep toUnregister))

/-- Steps 4 to 7: the top-up is computed from the balance as it is now. -/
def topUpAndRegister (wallet : Wallet) (args : NormalPlanArgs) : StorageProgram Unit := do
  match ← balanceOf wallet.accountId with
  | none => .fail (.balanceDisappeared "unregister")
  | some postUnregisterBalance =>
    let actualTopUp := args.preUnregisterEstimate - postUnregisterBalance.available
    let remainingCap ← .ofOutcome (.expect
      "initial_deposit ≤ max_top_up: enforced by initial-deposit cap guard in step 1"
      (checkedSub args.maxTopUp args.initialDeposit))
    if remainingCap < actualTopUp then
      .fail (.topUpExceedsCap actualTopUp remainingCap args.maxTopUp args.initialDeposit)
    else do
      topUp wallet actualTopUp
      registerMissing wallet args.toRegister

def handleNormalPlan (wallet : Wallet) (args : NormalPlanArgs) : StorageProgram Unit := do
  unregisterStale wallet args.keep args.toUnregister
  topUpAndRegister wallet args

/-- Step 1: an account the contract does not know is registered with the minimal amount,
which is returned. -/
def initialRegistration (wallet : Wallet) (maxTopUp : ℕ) : StorageProgram ℕ := do
  match ← balanceOf wallet.accountId with
  | some _ => pure 0
  | none =>
    let bounds ← checkBounds
    let amount := bounds.min
    if maxTopUp < amount then
      .fail (.initialDepositExceedsCap amount maxTopUp)
    else do
      deposit wallet amount .registrationOnly
      pure amount

def takeSnapshot (wallet : Wallet) : StorageProgram StorageSnapshot := do
  match ← balanceOf wallet.accountId with
  | none => .fail (.balanceDisappeared "initial deposit")
  | some balance =>
    let deposits ← getDeposits wallet.accountId
    let bounds ← checkBounds
    pure ⟨balance, deposits, bounds⟩

def executePlan (wallet : Wallet) (keep : List TokenAccount)
    (maxTopUp initialDeposit : ℕ) : Plan → StorageProgram Unit
  | .initialRegister toRegister => handleInitialRegister wallet toRegister
  | .normal toUnregister toRegister preUnregisterEstimate =>
    handleNormalPlan wallet
      ⟨keep, maxTopUp, initialDeposit, toUnregister, toRegister, preUnregisterEstimate⟩

/-- Steps 2 to 7. -/
def planAndExecute (wallet : Wallet) (neededTokens keep : List TokenAccount)
    (maxTopUp initialDeposit : ℕ) : StorageProgram Unit := do
  let snapshot ← takeSnapshot wallet
  let plan ← .ofOutcome ((plan snapshot neededTokens keep).mapErr .plan)
  executePlan wallet keep maxTopUp initialDeposit plan

/-- What `ensure_ref_storage_setup` does while it holds the lock of the account. -/
def lockedSetup (wallet : Wallet) (neededTokens keep : List TokenAccount)
    (maxTopUp : ℕ) : StorageProgram Unit := do
  let initialDeposit ← initialRegistration wallet maxTopUp
  planAndExecute wallet neededTokens keep maxTopUp initialDeposit

def ensureRefStorageSetup (wallet : Wallet) (neededTokens keep : List TokenAccount)
    (maxTopUp : ℕ) : StorageProgram Unit :=
  if maxRegisterPerCycle < neededTokens.length then
    .fail (.tooManyNeeded neededTokens.length)
  else lockedSetup wallet neededTokens keep maxTopUp

section Uses

open Program

variable {P : Request → Prop} {wallet : Wallet}

theorem uses_initialRegistration (hbalance : P (.storageBalanceOf wallet.accountId))
    (hbounds : P .storageBalanceBounds)
    (hinitial : ∀ value, P (.exec ⟨wallet.signer, .storageDeposit true, value⟩)) (maxTopUp : ℕ) :
    (initialRegistration wallet maxTopUp).Uses P := by
  refine Uses.bind (uses_request hbalance) fun balance ↦ ?_
  cases balance with
  | some balance => trivial
  | none =>
    refine Uses.bind (uses_request hbounds) fun bounds ↦ ?_
    change Uses _ (if maxTopUp < bounds.min then _ else _)
    split_ifs
    · trivial
    · exact Uses.bind (uses_request (hinitial _)) fun _ ↦ trivial

theorem uses_registerMissing
    (hregister : ∀ ids, P (.exec ⟨wallet.signer, .registerTokens ids, 1⟩))
    (tokens : List TokenAccount) : (registerMissing wallet tokens).Uses P := by
  rw [registerMissing]
  split_ifs
  · trivial
  · exact uses_request (hregister tokens)

theorem uses_topUp (htopUp : ∀ value, P (.exec ⟨wallet.signer, .storageDeposit false, value⟩))
    (value : ℕ) : (topUp wallet value).Uses P := by
  rw [topUp]
  split_ifs
  · trivial
  · exact uses_request (htopUp value)

theorem uses_topUpAndRegister (hbalance : P (.storageBalanceOf wallet.accountId))
    (htopUp : ∀ value, P (.exec ⟨wallet.signer, .storageDeposit false, value⟩))
    (hregister : ∀ ids, P (.exec ⟨wallet.signer, .registerTokens ids, 1⟩))
    (args : NormalPlanArgs) : (topUpAndRegister wallet args).Uses P := by
  refine Uses.bind (uses_request hbalance) fun balance ↦ ?_
  cases balance with
  | none => trivial
  | some balance =>
    refine Uses.bind trivial fun remainingCap ↦ ?_
    split_ifs
    · trivial
    · exact (uses_topUp htopUp _).bind fun _ ↦ uses_registerMissing hregister _

theorem uses_unregisterChunks {l : List (List TokenAccount)}
    (hunregister : ∀ ids ∈ l, P (.exec ⟨wallet.signer, .unregisterTokens ids, 1⟩)) :
    (unregisterChunks wallet l).Uses P := by
  induction l with
  | nil => trivial
  | cons chunk rest ih =>
    obtain ⟨hchunk, hrest⟩ := List.forall_mem_cons.mp hunregister
    exact (uses_perform hchunk).bind fun _ ↦ ih hrest

theorem uses_unregisterStale {keep toUnregister : List TokenAccount}
    (hdeposits : P (.getDeposits wallet.accountId))
    (hunregister : ∀ ids ⊆ toUnregister, P (.exec ⟨wallet.signer, .unregisterTokens ids, 1⟩)) :
    (unregisterStale wallet keep toUnregister).Uses P := by
  rw [unregisterStale]
  split_ifs
  · trivial
  · refine Uses.bind (uses_request hdeposits) fun fresh ↦ uses_unregisterChunks fun ids hids ↦ ?_
    refine hunregister ids fun t ht ↦ ?_
    have hflat : t ∈ (chunks chunkSize (verified fresh keep toUnregister)).flatten :=
      List.mem_flatten_of_mem hids ht
    rw [flatten_chunks (by decide)] at hflat
    exact List.mem_of_mem_filter hflat

theorem uses_takeSnapshot (hbalance : P (.storageBalanceOf wallet.accountId))
    (hdeposits : P (.getDeposits wallet.accountId)) (hbounds : P .storageBalanceBounds) :
    (takeSnapshot wallet).Uses P := by
  refine Uses.bind (uses_request hbalance) fun balance ↦ ?_
  cases balance with
  | none => trivial
  | some balance =>
    refine Uses.bind (uses_request hdeposits) fun deposits ↦ ?_
    exact Uses.bind (uses_request hbounds) fun bounds ↦ trivial

theorem uses_planAndExecute {neededTokens keep : List TokenAccount}
    (hbalance : P (.storageBalanceOf wallet.accountId))
    (hdeposits : P (.getDeposits wallet.accountId)) (hbounds : P .storageBalanceBounds)
    (htopUp : ∀ value, P (.exec ⟨wallet.signer, .storageDeposit false, value⟩))
    (hregister : ∀ ids, P (.exec ⟨wallet.signer, .registerTokens ids, 1⟩))
    (hunregister : ∀ ids, (∀ t ∈ ids, t ∉ keep ∧ t ∉ neededTokens) →
      P (.exec ⟨wallet.signer, .unregisterTokens ids, 1⟩)) (maxTopUp initialDeposit : ℕ) :
    (planAndExecute wallet neededTokens keep maxTopUp initialDeposit).Uses P := by
  refine (uses_takeSnapshot hbalance hdeposits hbounds).bind fun snapshot ↦ ?_
  cases hp : plan snapshot neededTokens keep with
  | err e => trivial
  | panicked m => trivial
  | ok p =>
    cases p with
    | initialRegister tokens => exact uses_registerMissing hregister tokens
    | normal u r n =>
      have hstale : (unregisterStale wallet keep u).Uses P :=
        uses_unregisterStale hdeposits fun ids hids ↦
          hunregister ids fun t ht ↦ (plan_normal_unwanted hp (hids ht)).2
      exact hstale.bind fun _ ↦ uses_topUpAndRegister hbalance htopUp hregister _

end Uses

def keepWnearOnly (isMainnet : Bool) : List TokenAccount := [wnearToken isMainnet]

def keepWithPortfolio (isMainnet : Bool) (tokens : List TokenAccount) : List TokenAccount :=
  if wnearToken isMainnet ∈ tokens then tokens else tokens ++ [wnearToken isMainnet]

def maxTopUpFromConfig (src : Config.Sources) : ℕ :=
  min (Config.refStorageMaxTopUpYoctonear src) Config.refStorageMaxTopUpAbsoluteCeiling

end Zaciraci.Storage
