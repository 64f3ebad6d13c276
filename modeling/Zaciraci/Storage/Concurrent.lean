import Zaciraci.Lib.Locking
import Zaciraci.Storage.Cap
import Zaciraci.Storage.Contract
import Mathlib.Algebra.BigOperators.Fin
import Mathlib.Algebra.Order.BigOperators.Group.Finset

namespace Zaciraci.Storage

open Lib Program

/-- The accounts of the contract together with the transactions it has accepted so far. -/
structure Chain where
  accounts : Accounts
  applied : List Transaction

namespace Chain

def accept (c : Chain) (tx : Transaction) (a : Account) : Chain :=
  ⟨Function.update c.accounts tx.signer (some a), c.applied ++ [tx]⟩

def respond (terms : Terms) : (q : Request) → Chain → Answer q × Chain
  | .exec tx, c =>
    match Contract.apply terms tx (c.accounts tx.signer) with
    | .ok a => (.ok (), c.accept tx a)
    | .error m => (.error m, c)
  | .storageBalanceOf account, c =>
    ((Contract.respond terms (.storageBalanceOf account) c.accounts).1, c)
  | .storageBalanceBounds, c => ((Contract.respond terms .storageBalanceBounds c.accounts).1, c)
  | .getDeposits account, c => ((Contract.respond terms (.getDeposits account) c.accounts).1, c)

end Chain

/-- The honest contract behind a client that may fail: an answer is what the contract says,
or an error, and a transaction reported as failed may or may not have been carried out. -/
def unreliable (terms : Terms) : Environment Request Answer Chain := fun q c a c' ↦
  Chain.respond terms q c = (a, c') ∨
    ∃ m, a = .error m ∧ (c' = c ∨ c' = (Chain.respond terms q c).2)

section Unreliable

variable {terms : Terms} {c c' : Chain}

theorem unreliable_exec {tx : Transaction} {a : Except String Unit}
    (h : unreliable terms (.exec tx) c a c') :
    (c' = c ∧ a ≠ .ok ()) ∨
      ∃ acc, Contract.apply terms tx (c.accounts tx.signer) = .ok acc ∧ c' = c.accept tx acc := by
  cases happly : Contract.apply terms tx (c.accounts tx.signer) with
  | ok acc =>
    simp only [unreliable, Chain.respond, happly, Prod.mk.injEq] at h
    rcases h with ⟨-, rfl⟩ | ⟨m, rfl, rfl | rfl⟩
    · exact .inr ⟨acc, rfl, rfl⟩
    · exact .inl ⟨rfl, by simp⟩
    · exact .inr ⟨acc, rfl, rfl⟩
  | error m =>
    simp only [unreliable, Chain.respond, happly, Prod.mk.injEq] at h
    rcases h with ⟨rfl, rfl⟩ | ⟨m', rfl, rfl | rfl⟩
    all_goals exact .inl ⟨rfl, by simp⟩

theorem unreliable_balanceOf {account : AccountId} {a : Answer (.storageBalanceOf account)}
    (h : unreliable terms (.storageBalanceOf account) c a c') :
    c' = c ∧ ∀ b, a = .ok b → b = (c.accounts account).map (Account.balance terms) := by
  simp only [unreliable, Chain.respond, Contract.respond, Prod.mk.injEq, or_self] at h
  rcases h with ⟨rfl, rfl⟩ | ⟨m, rfl, rfl⟩
  · exact ⟨rfl, fun b hb ↦ by simpa using hb.symm⟩
  · exact ⟨rfl, by simp⟩

theorem unreliable_bounds {a : Answer .storageBalanceBounds}
    (h : unreliable terms .storageBalanceBounds c a c') :
    c' = c ∧ ∀ b, a = .ok b → b = ⟨terms.accountCost, none⟩ := by
  simp only [unreliable, Chain.respond, Contract.respond, Prod.mk.injEq, or_self] at h
  rcases h with ⟨rfl, rfl⟩ | ⟨m, rfl, rfl⟩
  · exact ⟨rfl, fun b hb ↦ by simpa using hb.symm⟩
  · exact ⟨rfl, by simp⟩

theorem unreliable_getDeposits {account : AccountId} {a : Answer (.getDeposits account)}
    (h : unreliable terms (.getDeposits account) c a c') :
    c' = c ∧ ∀ d, a = .ok d → d = Contract.deposits c.accounts account := by
  simp only [unreliable, Chain.respond, Contract.respond, Prod.mk.injEq, or_self] at h
  rcases h with ⟨rfl, rfl⟩ | ⟨m, rfl, rfl⟩
  · exact ⟨rfl, fun b hb ↦ by simpa using hb.symm⟩
  · exact ⟨rfl, by simp⟩

theorem unreliable_total (q : Request) (c : Chain) : ∃ a c', unreliable terms q c a c' :=
  ⟨.error "", c, .inr ⟨"", rfl, .inl rfl⟩⟩

end Unreliable

section Registration

variable {terms : Terms} {wallet : Wallet} {c c' : Chain}

def Request.IsRegistration : Request → Prop
  | .exec ⟨_, .storageDeposit true, _⟩ => True
  | _ => False

def Chain.registrations (c : Chain) : ℕ :=
  c.applied.countP fun tx ↦ tx.method = .storageDeposit true

theorem registrations_le {q : Request} {a : Answer q} (h : unreliable terms q c a c') :
    c.registrations ≤ c'.registrations := by
  cases q with
  | exec tx =>
    obtain ⟨rfl, -⟩ | ⟨acc, -, rfl⟩ := unreliable_exec h
    · exact le_rfl
    · simp [Chain.registrations, Chain.accept]
  | storageBalanceOf account => rw [(unreliable_balanceOf h).1]
  | storageBalanceBounds => rw [(unreliable_bounds h).1]
  | getDeposits account => rw [(unreliable_getDeposits h).1]

theorem registrations_eq {q : Request} {a : Answer q} (hq : ¬ q.IsRegistration)
    (h : unreliable terms q c a c') : c'.registrations = c.registrations := by
  cases q with
  | exec tx =>
    obtain ⟨rfl, -⟩ | ⟨acc, -, rfl⟩ := unreliable_exec h
    · rfl
    · have hm : tx.method ≠ .storageDeposit true := by
        rintro hm
        obtain ⟨signer, method, amount⟩ := tx
        subst hm
        exact hq trivial
      simp [Chain.registrations, Chain.accept, hm]
  | storageBalanceOf account => rw [(unreliable_balanceOf h).1]
  | storageBalanceBounds => rw [(unreliable_bounds h).1]
  | getDeposits account => rw [(unreliable_getDeposits h).1]

theorem isSome_of_unreliable {q : Request} {a : Answer q} {account : AccountId}
    (h : unreliable terms q c a c') (hc : (c.accounts account).isSome) :
    (c'.accounts account).isSome := by
  cases q with
  | exec tx =>
    obtain ⟨rfl, -⟩ | ⟨acc, -, rfl⟩ := unreliable_exec h
    · exact hc
    · by_cases hs : account = tx.signer
      · simp [Chain.accept, hs]
      · simpa [Chain.accept, hs] using hc
  | storageBalanceOf account => rwa [(unreliable_balanceOf h).1]
  | storageBalanceBounds => rwa [(unreliable_bounds h).1]
  | getDeposits account => rwa [(unreliable_getDeposits h).1]

/-- At most one initial registration was accepted, and if one was the account is known. -/
def RegisteredOnce (account : AccountId) (c : Chain) : Prop :=
  c.registrations = 0 ∨ c.registrations = 1 ∧ (c.accounts account).isSome

theorem RegisteredOnce.of_other {q : Request} {a : Answer q} {account : AccountId}
    (hq : ¬ q.IsRegistration) (h : unreliable terms q c a c') (hc : RegisteredOnce account c) :
    RegisteredOnce account c' := by
  rw [RegisteredOnce, registrations_eq hq h]
  exact hc.imp_right fun hc ↦ ⟨hc.1, isSome_of_unreliable h hc.2⟩

variable {τ : List StorageExchange}

/-- A call registers the account only after it has seen that the contract does not know it. -/
theorem registeredOnce_initialRegistration {maxTopUp : ℕ} {o : Outcome StorageError ℕ}
    (h : (initialRegistration wallet maxTopUp).Runs (unreliable terms) c τ o c')
    (hc : RegisteredOnce wallet.accountId c) : RegisteredOnce wallet.accountId c' := by
  rcases runs_request_bind h with ⟨m, henv⟩ | ⟨balance, c₁, υ, henv, h⟩
  · exact hc.of_other id henv
  obtain ⟨rfl, hbalance⟩ := unreliable_balanceOf henv
  have hbalance := hbalance balance rfl
  cases balance with
  | some balance =>
    cases h
    exact hc
  | none =>
    have hnone : c₁.accounts wallet.accountId = none := by simpa using hbalance.symm
    have hzero : c₁.registrations = 0 := by
      rcases hc with hc | hc
      · exact hc
      · simp [hnone] at hc
    rcases runs_request_bind h with ⟨m, henv⟩ | ⟨bounds, c₂, υ, henv, hrest⟩
    · exact hc.of_other id henv
    obtain ⟨rfl, -⟩ := unreliable_bounds henv
    have hdeposit : ∀ {a}, unreliable terms
        (.exec ⟨wallet.signer, .storageDeposit true, bounds.min⟩) c₂ a c' →
        RegisteredOnce wallet.accountId c' := by
      intro a henv
      obtain ⟨rfl, -⟩ | ⟨acc, -, rfl⟩ := unreliable_exec henv
      · exact .inl hzero
      · refine .inr ⟨?_, ?_⟩
        · rw [Chain.registrations] at hzero ⊢
          simp [Chain.accept, hzero]
        · simp [Chain.accept, Wallet.signer]
    change Runs _ (if maxTopUp < bounds.min then _ else _) _ _ _ _ at hrest
    split_ifs at hrest
    · cases hrest
      exact .inl hzero
    · rcases runs_request_bind hrest with ⟨m, henv⟩ | ⟨_, c₃, υ, henv, hdone⟩
      · exact hdeposit henv
      · cases hdone
        exact hdeposit henv

theorem registeredOnce_lockedSetup {neededTokens keep : List TokenAccount} {maxTopUp : ℕ}
    {o : Outcome StorageError Unit}
    (h : (lockedSetup wallet neededTokens keep maxTopUp).Runs (unreliable terms) c τ o c')
    (hc : RegisteredOnce wallet.accountId c) : RegisteredOnce wallet.accountId c' := by
  rcases h.of_bind with ⟨d, τ₁, τ₂, c₁, h₁, h₂, -⟩ | ⟨e, h₁, -⟩ | ⟨m, h₁, -⟩
  · have hc₁ := registeredOnce_initialRegistration h₁ hc
    have huses : (planAndExecute wallet neededTokens keep maxTopUp d).Uses
        fun q ↦ ¬ q.IsRegistration :=
      uses_planAndExecute id id id (fun _ ↦ id) (fun _ ↦ id) (fun _ _ ↦ id) _ _
    exact h₂.preserves huses (fun q s a s' hq henv ↦ RegisteredOnce.of_other hq henv) hc₁
  · exact registeredOnce_initialRegistration h₁ hc
  · exact registeredOnce_initialRegistration h₁ hc

theorem registrations_le_of_runs {p : StorageProgram Unit} {o : Outcome StorageError Unit}
    (h : p.Runs (unreliable terms) c τ o c') :
    c.registrations ≤ c'.registrations := by
  induction h with
  | done o s => exact le_rfl
  | ask henv _ ih => exact (registrations_le henv).trans ih

end Registration

structure SetupCall where
  neededTokens : List TokenAccount
  keep : List TokenAccount
  maxTopUp : ℕ

/-- The call as a task: the guard on the number of tokens comes before the lock. -/
def SetupCall.task (wallet : Wallet) (call : SetupCall) :
    Task AccountId Request Answer StorageError Unit where
  key := wallet.accountId
  early :=
    if maxRegisterPerCycle < call.neededTokens.length then
      some (.err (.tooManyNeeded call.neededTokens.length))
    else none
  body := lockedSetup wallet call.neededTokens call.keep call.maxTopUp

theorem SetupCall.program_task (wallet : Wallet) (call : SetupCall) :
    (call.task wallet).program =
      ensureRefStorageSetup wallet call.neededTokens call.keep call.maxTopUp := by
  rw [Task.program, task, ensureRefStorageSetup]
  split_ifs <;> rfl

section Serial

variable {ι : Type} {terms : Terms} {wallet : Wallet} {calls : ι → SetupCall} {c c' : Chain}
  {done : List (ι × Outcome StorageError Unit)} {log : List (ι × StorageExchange)}

theorem spent_of_runs {call : SetupCall} {τ : List StorageExchange}
    {o : Outcome StorageError Unit}
    (h : (ensureRefStorageSetup wallet call.neededTokens call.keep call.maxTopUp).Runs
      (unreliable terms) c τ o c') : spent τ ≤ call.maxTopUp :=
  (always_capped_ensureRefStorageSetup _ _ _ τ o h.exec).spent_le

theorem registeredOnce_of_runs {call : SetupCall} {τ : List StorageExchange}
    {o : Outcome StorageError Unit}
    (h : (ensureRefStorageSetup wallet call.neededTokens call.keep call.maxTopUp).Runs
      (unreliable terms) c τ o c') (hc : RegisteredOnce wallet.accountId c) :
    RegisteredOnce wallet.accountId c' := by
  rw [ensureRefStorageSetup] at h
  split_ifs at h
  · cases h
    exact hc
  · exact registeredOnce_lockedSetup h hc

theorem serial_bounds
    (h : System.Serial (fun i ↦ (calls i).task wallet) (unreliable terms) c done log c')
    (hc : RegisteredOnce wallet.accountId c) :
    spent (log.map Prod.snd) ≤ (done.map fun d ↦ (calls d.1).maxTopUp).sum ∧
      RegisteredOnce wallet.accountId c' := by
  induction h with
  | nil => exact ⟨le_rfl, hc⟩
  | @snoc done log c₁ c₂ i τ o _ hrun ih =>
    rw [SetupCall.program_task] at hrun
    have hspent := spent_of_runs hrun
    refine ⟨?_, registeredOnce_of_runs hrun ih.2⟩
    simp only [List.map_append, spent_append, List.map_map, Function.comp_def, List.map_id',
      List.map_singleton, List.sum_append, List.sum_singleton]
    omega

theorem sum_map_le [Fintype ι] [DecidableEq ι] {l : List ι} (hl : l.Nodup) (f : ι → ℕ) :
    (l.map f).sum ≤ ∑ i, f i := by
  rw [← List.sum_toFinset f hl]
  exact Finset.sum_le_univ_sum_of_nonneg fun _ ↦ Nat.zero_le _

open System in
/-- The same bounds in any state of an interleaving: the call under way is counted with the
whole of its cap. -/
theorem serialised_bounds [Fintype ι] [DecidableEq ι]
    {x : System AccountId ι Request Answer StorageError Unit Chain}
    (h : Serialised (fun i ↦ (calls i).task wallet) (unreliable terms) c x done log c')
    (hc : RegisteredOnce wallet.accountId c) :
    spent (x.log.map Prod.snd) ≤ ∑ i, (calls i).maxTopUp ∧ x.state.registrations ≤ 1 := by
  have bound : ∀ {c : Chain}, RegisteredOnce wallet.accountId c → c.registrations ≤ 1 := by
    rintro c (hc | hc) <;> omega
  obtain ⟨hspent, honce⟩ := serial_bounds h.serial hc
  have hsum := sum_map_le h.once fun i ↦ (calls i).maxTopUp
  rw [List.map_map, Function.comp_def] at hsum
  cases h.pending with
  | nobody _ hlog hstate =>
    rw [hlog, hstate]
    exact ⟨hspent.trans hsum, bound honce⟩
  | one i l p τ hi hearly hgo hlog =>
    -- the rest of the call can only add to what it has done so far
    obtain ⟨υ, o, c'', hrest⟩ := exists_runs unreliable_total p x.state
    have hrun : (calls i).task wallet |>.program.Runs (unreliable terms) c' (τ ++ υ) o c'' := by
      rw [Task.program, hearly]
      exact hgo υ o c'' hrest
    rw [SetupCall.program_task] at hrun
    refine ⟨?_, (registrations_le_of_runs hrest).trans (bound (registeredOnce_of_runs hrun honce))⟩
    have hτ := spent_of_runs hrun
    rw [spent_append] at hτ
    have hfresh : i ∉ done.map Prod.fst := h.not_mem (by simp [hi])
    have hall := sum_map_le (List.nodup_cons.mpr ⟨hfresh, h.once⟩) fun i ↦ (calls i).maxTopUp
    rw [List.map_cons, List.sum_cons, List.map_map, Function.comp_def] at hall
    rw [hlog, List.map_append, spent_append, List.map_map, Function.comp_def, List.map_id']
    omega

end Serial

open System in
/-- Concurrent calls for one account, interleaved in any way and with any transactions
failing, do what the same calls do one after the other. The account is registered at most
once, and the deposits stay within the sum of the caps. -/
theorem concurrent_setup_serialised {ι : Type} [Fintype ι] [DecidableEq ι] (terms : Terms)
    (wallet : Wallet) (calls : ι → SetupCall) (locks : LockMap AccountId) (accounts : Accounts)
    (x : System AccountId ι Request Answer StorageError Unit Chain)
    (h : Reachable (fun i ↦ (calls i).task wallet) (unreliable terms) (fun _ _ _ _ ↦ False)
      (start locks ⟨accounts, []⟩) x) :
    (∃ done log c, Serialised (fun i ↦ (calls i).task wallet) (unreliable terms)
      ⟨accounts, []⟩ x done log c) ∧
    ((∀ i, ∃ o, x.phase i = .returned o) → ∃ done,
      Serial (fun i ↦ (calls i).task wallet) (unreliable terms) ⟨accounts, []⟩ done x.log x.state ∧
      (done.map Prod.fst).Nodup ∧ ∀ i o, (i, o) ∈ done ↔ x.phase i = .returned o) ∧
    x.state.registrations ≤ 1 ∧
    spent (x.log.map Prod.snd) ≤ ∑ i, (calls i).maxTopUp := by
  have hkey : ∀ i, ((calls i).task wallet).key = wallet.accountId := fun _ ↦ rfl
  obtain ⟨-, done, log, c, hs⟩ := history_of_reachable hkey h
  obtain ⟨hspent, hreg⟩ := serialised_bounds hs (.inl rfl)
  refine ⟨⟨done, log, c, hs⟩, fun hall ↦ ⟨done, ?_, hs.once, hs.returned⟩, hreg, hspent⟩
  cases hs.pending with
  | nobody _ hlog hstate =>
    rw [hlog, hstate]
    exact hs.serial
  | one i l p τ hi _ _ _ =>
    obtain ⟨o, ho⟩ := hall i
    rw [ho] at hi
    cases hi

def Request.attached : Request → ℕ
  | .exec tx => tx.deposit
  | _ => 0

def spareCall : SetupCall := ⟨[⟨"usdt.near"⟩], [⟨"wrap.near"⟩], 0⟩

def spareChain : Chain := ⟨fun _ ↦ some ⟨100, ⟨[(⟨"wrap.near"⟩, 5)], by decide⟩⟩, []⟩

open System in
theorem spareCall_reachable : ∃ x : System AccountId (Fin 1) Request Answer StorageError Unit Chain,
    Reachable (fun _ ↦ spareCall.task ⟨"alice.near"⟩) (unreliable ⟨10, 7⟩) (fun _ _ _ _ ↦ False)
      (start ⟨fun _ ↦ none, 0⟩ spareChain) x ∧ x.phase 0 = .returned (.ok ()) ∧
      (x.log.map fun e ↦ e.2.request.attached).sum = 1 := by
  let body := (spareCall.task ⟨"alice.near"⟩).body
  let report := run (Chain.respond ⟨10, 7⟩) body spareChain
  have hrun : body.Runs (unreliable ⟨10, 7⟩) spareChain report.trace report.outcome report.state :=
    (runs_run (Chain.respond ⟨10, 7⟩) body spareChain).mono fun q s a s' h ↦ .inl h
  have hok : report.outcome = .ok () := by decide
  have hsum : (report.trace.map fun e ↦ e.request.attached).sum = 1 := by decide
  let tasks : Fin 1 → Task AccountId Request Answer StorageError Unit :=
    fun _ ↦ spareCall.task ⟨"alice.near"⟩
  have hreach : Reachable tasks (unreliable ⟨10, 7⟩) (fun _ _ _ _ ↦ False)
      (start ⟨fun _ ↦ none, 0⟩ spareChain) _ := reachable_call 0 rfl rfl rfl hrun
  refine ⟨_, hreach, by simp [hok], ?_⟩
  simp only [start, List.nil_append, List.map_map]
  exact hsum

def freshCalls : Fin 2 → SetupCall :=
  ![⟨[⟨"usdt.near"⟩], [⟨"wrap.near"⟩], 50⟩, ⟨[⟨"usdt.near"⟩, ⟨"aurora"⟩], [], 20⟩]

open System in
/-- The second call asks for the lock while the first one is under way, and runs when the first
one has failed. -/
theorem concurrent_setup_serialised_twoCalls :
    let tasks := fun i ↦ (freshCalls i).task ⟨"alice.near"⟩
    ∃ (x y : System AccountId (Fin 2) Request Answer StorageError Unit Chain) (l : ℕ)
        (p : StorageProgram Unit),
      Reachable tasks (unreliable ⟨10, 7⟩) (fun _ _ _ _ ↦ False)
        (start ⟨fun _ ↦ none, 0⟩ ⟨fun _ ↦ none, []⟩) x ∧
      (x.log.length = 1 ∧ x.phase 0 = .running l p ∧ x.phase 1 = .waiting l) ∧
      Reachable tasks (unreliable ⟨10, 7⟩) (fun _ _ _ _ ↦ False) x y ∧
      (∃ done, Serial tasks (unreliable ⟨10, 7⟩) ⟨fun _ ↦ none, []⟩ done y.log y.state ∧
        (done.map Prod.fst).Perm [0, 1]) ∧
      y.state.registrations = 1 ∧ spent (y.log.map Prod.snd) ≤ 50 + 20 := by
  intro tasks
  have hexec (p : StorageProgram Unit) (c : Chain) :
      p.Runs (unreliable ⟨10, 7⟩) c (run (Chain.respond ⟨10, 7⟩) p c).trace
        (run (Chain.respond ⟨10, 7⟩) p c).outcome (run (Chain.respond ⟨10, 7⟩) p c).state :=
    (runs_run (Chain.respond ⟨10, 7⟩) p c).mono fun q s a s' h ↦ .inl h
  obtain ⟨x, y, l, hx, ⟨hlog, hfirst, hsecond⟩, hy, hstate, -, hdone, hdone'⟩ :=
    reachable_behind tasks (fun _ _ _ _ ↦ False) (i := 0) (j := 1) (by decide) rfl rfl rfl
      ⟨fun _ ↦ none, 0⟩ rfl (.inl rfl) (hexec _ ⟨fun _ ↦ none, []⟩) (hexec _ _)
  obtain ⟨-, hall, -, hspent⟩ := concurrent_setup_serialised ⟨10, 7⟩ ⟨"alice.near"⟩ freshCalls
    ⟨fun _ ↦ none, 0⟩ (fun _ ↦ none) y (hx.trans hy)
  have hreturned : ∀ i, ∃ o, y.phase i = .returned o :=
    Fin.forall_fin_two.2 ⟨⟨_, hdone⟩, ⟨_, hdone'⟩⟩
  obtain ⟨done, hserial, hnodup, hmem⟩ := hall hreturned
  refine ⟨x, y, l, _, hx, ⟨by rw [hlog]; rfl, hfirst, hsecond⟩, hy, ⟨done, hserial, ?_⟩, ?_, ?_⟩
  · refine (List.perm_ext_iff_of_nodup hnodup (by decide)).2 fun i ↦ iff_of_true ?_ ?_
    · obtain ⟨o, ho⟩ := hreturned i
      exact List.mem_map_of_mem ((hmem i o).2 ho)
    · revert i
      decide
  · rw [hstate]
    decide
  · exact hspent

/-- The yoctoNEAR that `register_tokens` requires is attached on top of the caps. -/
theorem concurrent_setup_attached_exceeds_caps :
    ∃ x : System AccountId (Fin 1) Request Answer StorageError Unit Chain,
      System.Reachable (fun _ ↦ spareCall.task ⟨"alice.near"⟩) (unreliable ⟨10, 7⟩)
        (fun _ _ _ _ ↦ False) (System.start ⟨fun _ ↦ none, 0⟩ spareChain) x ∧
      x.phase 0 = .returned (.ok ()) ∧
      ∑ _i : Fin 1, spareCall.maxTopUp < (x.log.map fun e ↦ e.2.request.attached).sum := by
  obtain ⟨x, hx, hphase, hsum⟩ := spareCall_reachable
  exact ⟨x, hx, hphase, by rw [hsum]; decide⟩

end Zaciraci.Storage
