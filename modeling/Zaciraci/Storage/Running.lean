import Zaciraci.Storage.Liveness

namespace Zaciraci.Storage

open Lib Program Contract

section Steps

variable {terms : Terms} {wallet : Wallet} {s : Accounts} {a : Account}

def Leaves (terms : Terms) (wallet : Wallet) (p : StorageProgram Unit) (s : Accounts)
    (a' : Account) : Prop :=
  ∃ s', p.Ends (honest terms) (fun _ ↦ True) s (.ok ()) s' ∧ s' wallet.accountId = some a'

theorem leaves_pure (hs : s wallet.accountId = some a) : Leaves terms wallet (pure ()) s a :=
  ⟨s, ends_done, hs⟩

theorem leaves_exec {a' : Account} {method : Method} {amount : ℕ}
    (hs : s wallet.accountId = some a)
    (h : apply terms ⟨wallet.signer, method, amount⟩ (some a) = .ok a') :
    Leaves terms wallet (request (.exec ⟨wallet.signer, method, amount⟩)) s a' := by
  rw [← hs] at h
  exact ⟨_, ends_exec h, Function.update_self ..⟩

theorem leaves_bind {p q : StorageProgram Unit} {a' a'' : Account}
    (hp : Leaves terms wallet p s a')
    (hq : ∀ s', s' wallet.accountId = some a' → Leaves terms wallet q s' a'') :
    Leaves terms wallet (p >>= fun _ ↦ q) s a'' := by
  obtain ⟨s', hp, hs'⟩ := hp
  obtain ⟨s'', hq, hs''⟩ := hq s' hs'
  exact ⟨s'', hp.bind hq, hs''⟩

theorem apply_unregisterTokens {tokenIds : List TokenAccount}
    (hzero : ∀ t ∈ tokenIds, (a.tokens.get t).getD 0 = 0) :
    apply terms ⟨wallet.signer, .unregisterTokens tokenIds, 1⟩ (some a) =
      .ok { a with tokens := removeTokens tokenIds a.tokens } := by
  have h : ¬ ∃ t ∈ tokenIds, (a.tokens.get t).getD 0 ≠ 0 := by
    simpa using hzero
  simp only [apply, requireOneYocto, if_true, Contract.unregisterTokens, if_neg h]

theorem leaves_unregisterChunks {l : List (List TokenAccount)}
    (hs : s wallet.accountId = some a)
    (hzero : ∀ t ∈ l.flatten, (a.tokens.get t).getD 0 = 0) (terms : Terms) :
    Leaves terms wallet (unregisterChunks wallet l) s
      { a with tokens := removeTokens l.flatten a.tokens } := by
  induction l generalizing s a with
  | nil => exact leaves_pure hs
  | cons chunk rest ih =>
    have happly : apply terms ⟨wallet.signer, .unregisterTokens chunk, 1⟩ (some a) =
        .ok { a with tokens := removeTokens chunk a.tokens } :=
      apply_unregisterTokens fun t ht ↦ hzero t (by simp [ht])
    have henv : honest terms (.exec ⟨wallet.signer, .unregisterTokens chunk, 1⟩) s (.ok ())
        (Function.update s wallet.signer
          (some { a with tokens := removeTokens chunk a.tokens })) := by
      simp only [honest, deterministic, respond, show s wallet.signer = some a from hs, happly]
    obtain ⟨s', hrest, hs'⟩ := ih (s := Function.update s wallet.signer
        (some { a with tokens := removeTokens chunk a.tokens })) (Function.update_self ..)
      fun t ht ↦ by
        have h := hzero t (by simp [ht])
        simp only [get_removeTokens]
        split_ifs
        · rfl
        · exact h
    refine ⟨s', ends_ask henv trivial hrest, ?_⟩
    rw [hs', List.flatten_cons, removeTokens, removeTokens, removeTokens, List.foldl_append]

theorem leaves_unregisterStale {keep toUnregister : List TokenAccount}
    (hs : s wallet.accountId = some a) :
    Leaves terms wallet (unregisterStale wallet keep toUnregister) s
      { a with tokens := removeTokens (verified a.tokens keep toUnregister) a.tokens } := by
  rw [unregisterStale]
  split_ifs with h
  · subst h
    exact leaves_pure hs
  · have hview := ends_getDeposits terms s wallet.accountId
    have hdep : deposits s wallet.accountId = a.tokens := by simp [deposits, hs]
    rw [hdep] at hview
    have hflat := flatten_chunks (show 0 < chunkSize by decide)
      (verified a.tokens keep toUnregister)
    have hchunks : Leaves terms wallet (unregisterChunks wallet
        (chunks chunkSize (verified a.tokens keep toUnregister))) s
        { a with tokens := removeTokens (verified a.tokens keep toUnregister) a.tokens } := by
      have hzero : ∀ t ∈ (chunks chunkSize (verified a.tokens keep toUnregister)).flatten,
          (a.tokens.get t).getD 0 = 0 := by
        intro t ht
        rw [hflat] at ht
        have hget : a.tokens.get t = some 0 := (of_decide_eq_true (List.mem_filter.mp ht).2).1
        rw [hget]
        rfl
      have h := leaves_unregisterChunks hs hzero terms
      rwa [hflat] at h
    obtain ⟨s', hends, hs'⟩ := hchunks
    exact ⟨s', (hview.mono fun _ _ ↦ trivial).bind hends, hs'⟩

theorem leaves_topUp (value : ℕ) (hs : s wallet.accountId = some a) :
    Leaves terms wallet (topUp wallet value) s { a with nearAmount := a.nearAmount + value } := by
  rw [topUp]
  split_ifs with h
  · subst h
    exact leaves_pure hs
  · exact leaves_exec hs rfl

theorem leaves_registerMissing {tokens : List TokenAccount} (hs : s wallet.accountId = some a)
    (hfunded : a.usage terms + terms.tokenCost * tokens.length ≤ a.nearAmount) :
    Leaves terms wallet (registerMissing wallet tokens) s
      { a with tokens := addTokens tokens a.tokens } := by
  rw [registerMissing]
  split_ifs with h
  · subst h
    exact leaves_pure hs
  · refine leaves_exec hs ?_
    have hsize : terms.tokenCost * (addTokens tokens a.tokens).size ≤
        terms.tokenCost * (a.tokens.size + tokens.length) :=
      Nat.mul_le_mul_left _ (size_addTokens_le tokens a.tokens)
    rw [Nat.mul_add] at hsize
    refine if_neg (not_lt.mpr ?_)
    simp only [Account.usage] at hfunded ⊢
    omega

theorem leaves_topUpAndRegister {args : NormalPlanArgs} (hs : s wallet.accountId = some a)
    (hfunded : a.usage terms ≤ a.nearAmount) (hinit : args.initialDeposit = 0)
    (hcap : args.preUnregisterEstimate ≤ args.maxTopUp)
    (hcost : terms.tokenCost * args.toRegister.length ≤ args.preUnregisterEstimate) :
    Leaves terms wallet (topUpAndRegister wallet args) s
      ⟨a.nearAmount + (args.preUnregisterEstimate - a.available terms),
        addTokens args.toRegister a.tokens⟩ := by
  have hview := ends_balanceOf terms s wallet.accountId
  rw [hs] at hview
  have hrest : Leaves terms wallet (do
      topUp wallet (args.preUnregisterEstimate - a.available terms)
      registerMissing wallet args.toRegister) s
      ⟨a.nearAmount + (args.preUnregisterEstimate - a.available terms),
        addTokens args.toRegister a.tokens⟩ := by
    refine leaves_bind (leaves_topUp _ hs) fun s' hs' ↦ leaves_registerMissing hs' ?_
    simp only [Account.usage, Account.available] at hfunded ⊢
    omega
  obtain ⟨s', hends, hs'⟩ := hrest
  refine ⟨s', (hview.mono fun _ _ ↦ trivial).bind ?_, hs'⟩
  have hsub : checkedSub args.maxTopUp args.initialDeposit = some args.maxTopUp := by
    rw [hinit]
    exact checkedSub_of_le (Nat.zero_le _)
  simp only [Option.map_some, hsub, Outcome.expect_some]
  change Ends _ _ (if args.maxTopUp < args.preUnregisterEstimate - a.available terms then _ else _)
    _ _ _
  rw [if_neg (by omega)]
  exact hends

end Steps

section Planning

variable {terms : Terms} {a : Account} {neededTokens keep : List TokenAccount}

theorem perToken_snapshotOf (hsize : a.tokens.size ≠ 0) (hfunded : a.usage terms ≤ a.nearAmount) :
    perToken (snapshotOf terms a) = max terms.accountCost terms.tokenCost := by
  have hused : a.nearAmount - a.available terms - terms.accountCost =
      a.tokens.size • terms.tokenCost := by
    rw [smul_eq_mul, Nat.mul_comm]
    simp only [Account.available, Account.usage] at hfunded ⊢
    omega
  change max ((a.nearAmount - a.available terms - terms.accountCost) ⌈/⌉ a.tokens.size)
    terms.accountCost = _
  rw [hused, smul_ceilDiv (Nat.pos_of_ne_zero hsize), max_comm]

theorem snapshotOf_consistent (a : Account) :
    ¬ (snapshotOf terms a).balance.total < (snapshotOf terms a).balance.available :=
  not_lt.mpr (Nat.sub_le _ _)

theorem plan_snapshotOf (hsize : a.tokens.size ≠ 0) (hfunded : a.usage terms ≤ a.nearAmount)
    (hlen : neededTokens.length ≤ maxRegisterPerCycle) {n : ℕ}
    (hn : n = (toRegister a.tokens neededTokens).length)
    (hfit : 11 * max terms.accountCost terms.tokenCost * n < u128Bound) :
    plan (snapshotOf terms a) neededTokens keep =
      .ok (.normal (toUnregister (snapshotOf terms a) neededTokens keep
          (estimate (max terms.accountCost terms.tokenCost) n))
        (toRegister a.tokens neededTokens)
        (estimate (max terms.accountCost terms.tokenCost) n)) := by
  have hle : n ≤ maxRegisterPerCycle := by
    rw [hn]
    exact (List.length_filter_le _ _).trans hlen
  have hfit' : max terms.accountCost terms.tokenCost * n * safetyMarginNumerator < u128Bound := by
    calc max terms.accountCost terms.tokenCost * n * safetyMarginNumerator
        = 11 * max terms.accountCost terms.tokenCost * n := by
          rw [safetyMarginNumerator, Nat.mul_comm, Nat.mul_assoc]
      _ < u128Bound := hfit
  rw [plan_of_nonempty hsize, perToken_snapshotOf hsize hfunded,
    show (snapshotOf terms a).deposits = a.tokens from rfl, ← hn,
    if_neg (snapshotOf_consistent a), if_neg (not_lt.mpr hle), if_neg (not_le.mpr hfit')]

theorem cost_le_estimate (p n : ℕ) : p * n ≤ estimate p n := by
  have h : p * n * safetyMarginNumerator ≤ safetyMarginDenominator • estimate p n :=
    le_smul_ceilDiv (by decide)
  simp only [safetyMarginNumerator, safetyMarginDenominator, smul_eq_mul] at h
  omega

theorem estimate_eq (p n : ℕ) : estimate p n = (11 * p * n) ⌈/⌉ 10 := by
  rw [estimate, safetyMarginNumerator, safetyMarginDenominator, Nat.mul_comm, Nat.mul_assoc]

end Planning

section Running

variable {terms : Terms} {wallet : Wallet} {s : Accounts} {a : Account}
  {neededTokens keep : List TokenAccount} {maxTopUp : ℕ}

theorem size_ne_zero_of_mem {tokens : Deposits} {t : TokenAccount} (h : t ∈ tokens.keys) :
    tokens.size ≠ 0 := by
  have hpos := List.length_pos_of_mem h
  rw [SortedMap.keys, List.length_map] at hpos
  exact hpos.ne'

def plannedTokens (terms : Terms) (a : Account) (neededTokens keep : List TokenAccount) (e : ℕ) :
    Deposits :=
  addTokens (toRegister a.tokens neededTokens)
    (removeTokens (verified a.tokens keep
      (toUnregister (snapshotOf terms a) neededTokens keep e)) a.tokens)

theorem mem_plannedTokens {e : ℕ} {t : TokenAccount} (ht : t ∈ neededTokens) :
    t ∈ (plannedTokens terms a neededTokens keep e).keys := by
  rw [plannedTokens, mem_keys_addTokens, mem_keys_removeTokens]
  by_cases hmem : t ∈ a.tokens.keys
  · refine .inr ⟨fun hv ↦ ?_, hmem⟩
    have hu := toUnregister_sublist.mem (List.mem_of_mem_filter hv)
    exact (mem_unregisterCandidates.mp hu).2.2 ht
  · exact .inl (by simpa [toRegister_eq_filter] using ⟨ht, hmem⟩)

theorem size_plannedTokens {n p : ℕ} (hsize : a.tokens.size ≠ 0)
    (hn : n = (toRegister a.tokens neededTokens).length) :
    (plannedTokens terms a neededTokens keep (estimate p n)).size ≠ 0 := by
  by_cases hreg : toRegister a.tokens neededTokens = []
  · have he : estimate p n = 0 := by simp [hn, hreg, estimate]
    have hu : toUnregister (snapshotOf terms a) neededTokens keep (estimate p n) = [] := by
      rw [toUnregister, he, if_pos (Nat.zero_le _)]
    rw [plannedTokens, hu, hreg]
    exact hsize
  · obtain ⟨t, ht⟩ := List.exists_mem_of_ne_nil _ hreg
    exact size_ne_zero_of_mem (mem_plannedTokens (List.mem_of_mem_filter ht))

theorem leaves_executePlan (u : List TokenAccount) {r : List TokenAccount} {e : ℕ}
    (hs : s wallet.accountId = some a)
    (hfunded : a.usage terms ≤ a.nearAmount) (hcap : e ≤ maxTopUp)
    (hcost : terms.tokenCost * r.length ≤ e) :
    ∃ nearAmount, Leaves terms wallet (executePlan wallet keep maxTopUp 0 (.normal u r e)) s
      ⟨nearAmount, addTokens r (removeTokens (verified a.tokens keep u) a.tokens)⟩ := by
  have hless : terms.tokenCost * (removeTokens (verified a.tokens keep u) a.tokens).size ≤
      terms.tokenCost * a.tokens.size := Nat.mul_le_mul_left _ (size_removeTokens_le _ _)
  refine ⟨_, leaves_bind (leaves_unregisterStale hs) fun s' hs' ↦
    leaves_topUpAndRegister hs' ?_ rfl hcap hcost⟩
  simp only [Account.usage] at hfunded ⊢
  omega

theorem leaves_ensure (hs : s wallet.accountId = some a) (hsize : a.tokens.size ≠ 0)
    (hfunded : a.usage terms ≤ a.nearAmount) (hlen : neededTokens.length ≤ maxRegisterPerCycle)
    {n : ℕ} (hn : n = (toRegister a.tokens neededTokens).length)
    (hfit : 11 * max terms.accountCost terms.tokenCost * n < u128Bound)
    (hcap : estimate (max terms.accountCost terms.tokenCost) n ≤ maxTopUp) :
    ∃ a', Leaves terms wallet (ensureRefStorageSetup wallet neededTokens keep maxTopUp) s a' ∧
      (∀ t ∈ neededTokens, t ∈ a'.tokens.keys) ∧ a'.tokens.size ≠ 0 := by
  have hcost : terms.tokenCost * (toRegister a.tokens neededTokens).length ≤
      estimate (max terms.accountCost terms.tokenCost) n := by
    rw [← hn]
    exact (Nat.mul_le_mul_right n (le_max_right _ _)).trans (cost_le_estimate _ n)
  obtain ⟨nearAmount, s', hends, hs'⟩ := leaves_executePlan
    (toUnregister (snapshotOf terms a) neededTokens keep
      (estimate (max terms.accountCost terms.tokenCost) n)) hs hfunded hcap hcost
  refine ⟨⟨nearAmount, plannedTokens terms a neededTokens keep _⟩, ⟨s', ?_, hs'⟩,
    fun t ht ↦ mem_plannedTokens ht, size_plannedTokens hsize hn⟩
  rw [ensureRefStorageSetup, if_neg hlen.not_gt]
  refine ((ends_initialRegistration_known hs).mono fun _ _ ↦ trivial).bind ?_
  exact ends_planAndExecute hs (fun _ _ ↦ trivial)
    (plan_snapshotOf hsize hfunded hlen hn hfit) hends

theorem ends_ensure_idle (hs : s wallet.accountId = some a) (hsize : a.tokens.size ≠ 0)
    (hlen : neededTokens.length ≤ maxRegisterPerCycle)
    (hall : ∀ t ∈ neededTokens, t ∈ a.tokens.keys) :
    (ensureRefStorageSetup wallet neededTokens keep maxTopUp).Ends (honest terms) Request.IsView s
      (.ok ()) s := by
  have hreg : toRegister a.tokens neededTokens = [] := by
    rw [toRegister_eq_filter, List.filter_eq_nil_iff]
    simpa using hall
  have hplan : plan (snapshotOf terms a) neededTokens keep = .ok (.normal [] [] 0) := by
    have hzero : ∀ p, estimate p 0 = 0 := fun p ↦ by simp [estimate]
    rw [plan_of_nonempty hsize, show (snapshotOf terms a).deposits = a.tokens from rfl, hreg,
      if_neg (snapshotOf_consistent a)]
    simp [hzero, toUnregister, u128Bound]
  have hview := ends_balanceOf terms s wallet.accountId
  rw [hs] at hview
  rw [ensureRefStorageSetup, if_neg hlen.not_gt]
  refine (ends_initialRegistration_known hs).bind ?_
  refine ends_planAndExecute hs (fun _ h ↦ h) hplan ?_
  refine ends_done.bind (hview.bind ?_)
  simp only [Nat.zero_sub, checkedSub_of_le (Nat.zero_le _)]
  exact ends_done

end Running

/-- A funded account with some token registered: one call makes every needed token
registered, and the next call with the same arguments sends nothing. -/
theorem runningAccount_set_up (terms : Terms) (wallet : Wallet) (s : Accounts) (a : Account)
    (hs : s wallet.accountId = some a) (hsize : a.tokens.size ≠ 0)
    (hfunded : terms.accountCost + terms.tokenCost * a.tokens.size ≤ a.nearAmount)
    (neededTokens keep : List TokenAccount) (hlen : neededTokens.length ≤ 100) (n : ℕ)
    (hn : n = (neededTokens.filter fun t ↦ t ∉ a.tokens.keys).length)
    (hfit : 11 * max terms.accountCost terms.tokenCost * n < 2 ^ 128) (maxTopUp : ℕ)
    (hcap : (11 * max terms.accountCost terms.tokenCost * n) ⌈/⌉ 10 ≤ maxTopUp) :
    let call := run (respond terms) (ensureRefStorageSetup wallet neededTokens keep maxTopUp)
    (call s).outcome = .ok () ∧
    (∀ t ∈ neededTokens, t ∈ (deposits (call s).state wallet.accountId).keys) ∧
    ∀ e ∈ (call (call s).state).trace, e.request.IsView := by
  rw [← toRegister_eq_filter] at hn
  rw [← estimate_eq] at hcap
  obtain ⟨a', ⟨s', hends, hs'⟩, hall, hsize'⟩ :=
    leaves_ensure hs hsize hfunded hlen hn hfit hcap
  obtain ⟨hok, hstate, -⟩ := run_of_ends hends
  intro call
  have hstate' : (call s).state = s' := hstate
  refine ⟨hok, fun t ht ↦ ?_, ?_⟩
  · rw [hstate']
    simpa [deposits, hs'] using hall t ht
  · rw [hstate']
    exact (run_of_ends (ends_ensure_idle hs' hsize' hlen hall)).2.2

theorem runningAccount_set_up_one_missing :
    let s : Accounts := fun _ ↦ some ⟨30, ⟨[(⟨"old.near"⟩, 0), (⟨"wrap.near"⟩, 5)], by decide⟩⟩
    let neededTokens : List TokenAccount := [⟨"wrap.near"⟩, ⟨"usdt.near"⟩]
    let call := run (respond ⟨10, 7⟩)
      (ensureRefStorageSetup ⟨"alice.near"⟩ neededTokens [⟨"wrap.near"⟩] 11)
    (call s).outcome = .ok () ∧
    (∀ t ∈ neededTokens, t ∈ (deposits (call s).state "alice.near").keys) ∧
    ∀ e ∈ (call (call s).state).trace, e.request.IsView :=
  runningAccount_set_up ⟨10, 7⟩ ⟨"alice.near"⟩ _ _ rfl (by decide) (by decide) _ _ (by decide) 1
    (by decide) (by decide) 11 (by decide)

end Zaciraci.Storage
