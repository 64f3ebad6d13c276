import Zaciraci.Storage.Concurrent

namespace Zaciraci.Storage

open Lib Program

def Chain.registered (c : Chain) (account : AccountId) : List TokenAccount :=
  (Contract.deposits c.accounts account).keys

/-- A swap moves balances between registered tokens, or fails. -/
def Swapped (account : AccountId) (c c' : Chain) : Prop :=
  c' = c ∨ ∃ a tokens, c.accounts account = some a ∧ tokens.keys = a.tokens.keys ∧
    c' = ⟨Function.update c.accounts account (some { a with tokens := tokens }), c.applied⟩

/-- What others may do while a call holds the lock. -/
def SameRegistered (account : AccountId) (c c' : Chain) : Prop :=
  c'.registered account = c.registered account

section Steps

variable {terms : Terms} {account : AccountId} {c c' : Chain}

theorem Swapped.sameRegistered (h : Swapped account c c') : SameRegistered account c c' := by
  rcases h with rfl | ⟨a, tokens, ha, hkeys, rfl⟩
  · rfl
  · simp [SameRegistered, Chain.registered, Contract.deposits, ha, hkeys]

theorem registered_accept (a : Account) (tx : Transaction) :
    (c.accept tx a).registered tx.signer = a.tokens.keys := by
  simp [Chain.registered, Chain.accept, Contract.deposits]

theorem registered_accept_of_ne {a : Account} {tx : Transaction} (h : account ≠ tx.signer) :
    (c.accept tx a).registered account = c.registered account := by
  simp [Chain.registered, Chain.accept, Contract.deposits, h]

/-- The tokens a request may take away from an account. -/
def Request.released : Request → List TokenAccount
  | .exec ⟨_, .unregisterTokens ids, _⟩ => ids
  | _ => []

theorem apply_keeps {tx : Transaction} {acc : Account} {t : TokenAccount}
    (h : Contract.apply terms tx (c.accounts tx.signer) = .ok acc)
    (ht : t ∈ c.registered tx.signer) (hq : t ∉ (Request.exec tx).released) :
    t ∈ acc.tokens.keys := by
  obtain ⟨signer, method, amount⟩ := tx
  rcases Contract.apply_tokens h with
    ⟨b, rfl, htokens⟩ | ⟨ids, a, rfl, ha, htokens⟩ | ⟨ids, a, rfl, ha, htokens⟩
  · rw [htokens]
    exact ht
  all_goals
    have hmem : t ∈ a.tokens.keys := by simpa [Chain.registered, Contract.deposits, ha] using ht
    rw [htokens]
  · exact Contract.mem_keys_addTokens.mpr (.inr hmem)
  · exact Contract.mem_keys_removeTokens.mpr ⟨hq, hmem⟩

theorem registered_of_unreliable {q : Request} {a : Answer q} {t : TokenAccount}
    (h : unreliable terms q c a c') (ht : t ∈ c.registered account) (hq : t ∉ q.released) :
    t ∈ c'.registered account := by
  cases q with
  | exec tx =>
    obtain ⟨rfl, -⟩ | ⟨acc, happly, rfl⟩ := unreliable_exec h
    · exact ht
    · by_cases hs : account = tx.signer
      · subst hs
        rw [registered_accept]
        exact apply_keeps happly ht hq
      · rwa [registered_accept_of_ne hs]
  | storageBalanceOf account => rwa [(unreliable_balanceOf h).1]
  | storageBalanceBounds => rwa [(unreliable_bounds h).1]
  | getDeposits account => rwa [(unreliable_getDeposits h).1]

theorem registered_of_register {signer : AccountId} {ids : List TokenAccount} {amount : ℕ}
    {t : TokenAccount}
    (h : unreliable terms (.exec ⟨signer, .registerTokens ids, amount⟩) c (.ok ()) c')
    (ht : t ∈ ids) : t ∈ c'.registered signer := by
  obtain ⟨rfl, hne⟩ | ⟨acc, happly, rfl⟩ := unreliable_exec h
  · exact absurd rfl hne
  · rw [registered_accept acc ⟨signer, .registerTokens ids, amount⟩]
    rcases Contract.apply_tokens happly with
      ⟨b, ⟨⟩, -⟩ | ⟨ids', a, ⟨⟩, -, htokens⟩ | ⟨ids', a, ⟨⟩, -, -⟩
    rw [htokens]
    exact Contract.mem_keys_addTokens.mpr (.inl ht)

end Steps

section Call

variable {terms : Terms} {wallet : Wallet} {neededTokens keep : List TokenAccount}

def AllRegistered (account : AccountId) (neededTokens : List TokenAccount)
    (o : Outcome StorageError Unit) (c : Chain) : Prop :=
  o = .ok () → ∀ t ∈ neededTokens, t ∈ c.registered account

def RestRegistered (account : AccountId) (neededTokens r : List TokenAccount) (c : Chain) : Prop :=
  ∀ t ∈ neededTokens, t ∉ r → t ∈ c.registered account

variable {r : List TokenAccount}

theorem RestRegistered.of_same {account : AccountId} {c c' : Chain}
    (h : RestRegistered account neededTokens r c) (hc : SameRegistered account c c') :
    RestRegistered account neededTokens r c' := by
  intro t ht hr
  rw [hc]
  exact h t ht hr

def Request.Spares (tokens : List TokenAccount) (q : Request) : Prop := ∀ t ∈ q.released, t ∉ tokens

theorem RestRegistered.of_spares {q : Request} {a : Answer q} {account : AccountId} {c c' : Chain}
    (hq : q.Spares neededTokens) (henv : unreliable terms q c a c')
    (h : RestRegistered account neededTokens r c) :
    RestRegistered account neededTokens r c' :=
  fun t ht hr ↦ registered_of_unreliable henv (h t ht hr) fun hrel ↦ hq t hrel ht

theorem keeps_registerMissing {c : Chain} (h : RestRegistered wallet.accountId neededTokens r c) :
    (registerMissing wallet r).Keeps (unreliable terms) (SameRegistered wallet.accountId)
      (AllRegistered wallet.accountId neededTokens) c := by
  rw [registerMissing]
  split_ifs with hr
  · subst hr
    intro c' hc _ t ht
    exact h.of_same hc t ht List.not_mem_nil
  · intro c₁ hc₁ a c₂ henv
    cases a with
    | error m => exact fun c₃ _ ho ↦ by cases ho
    | ok _ =>
      intro c₃ hc₃ _ t ht
      rw [hc₃]
      by_cases htr : t ∈ r
      · exact registered_of_register henv htr
      · exact registered_of_unreliable henv ((h.of_same hc₁) t ht htr) List.not_mem_nil

theorem sameRegistered_refl (account : AccountId) (c : Chain) : SameRegistered account c c := rfl

theorem sameRegistered_trans (account : AccountId) (c c' c'' : Chain)
    (h : SameRegistered account c c') (h' : SameRegistered account c' c'') :
    SameRegistered account c c'' := h'.trans h

theorem keeps_rest {α : Type} {p : StorageProgram α} {c : Chain}
    (huses : p.Uses (Request.Spares neededTokens))
    (h : RestRegistered wallet.accountId neededTokens r c) :
    p.Keeps (unreliable terms) (SameRegistered wallet.accountId)
      (fun _ ↦ RestRegistered wallet.accountId neededTokens r) c :=
  keeps_of_uses huses (fun _ _ _ _ hq henv h ↦ h.of_spares hq henv) (fun _ _ hc h ↦ h.of_same hc) h

theorem keeps_bind_rest {α : Type} {p : StorageProgram α} {f : α → StorageProgram Unit} {c : Chain}
    (huses : p.Uses (Request.Spares neededTokens))
    (h : RestRegistered wallet.accountId neededTokens r c)
    (hf : ∀ x c', RestRegistered wallet.accountId neededTokens r c' →
      (f x).Keeps (unreliable terms) (SameRegistered wallet.accountId)
        (AllRegistered wallet.accountId neededTokens) c') :
    (p >>= f).Keeps (unreliable terms) (SameRegistered wallet.accountId)
      (AllRegistered wallet.accountId neededTokens) c :=
  (keeps_rest huses h).bind (sameRegistered_refl _) hf (fun e _ _ ho ↦ by cases ho)
    (fun m _ _ ho ↦ by cases ho)

theorem keeps_err {e : StorageError} {c : Chain} :
    (fail e : StorageProgram Unit).Keeps (unreliable terms) (SameRegistered wallet.accountId)
      (AllRegistered wallet.accountId neededTokens) c := fun _ _ ho ↦ by cases ho

theorem keeps_topUpAndRegister {args : NormalPlanArgs} {c : Chain}
    (h : RestRegistered wallet.accountId neededTokens args.toRegister c) :
    (topUpAndRegister wallet args).Keeps (unreliable terms) (SameRegistered wallet.accountId)
      (AllRegistered wallet.accountId neededTokens) c := by
  refine keeps_bind_rest (uses_request (q := .storageBalanceOf _)
    (by simp [Request.Spares, Request.released])) h fun balance c₁ h₁ ↦ ?_
  cases balance with
  | none => exact keeps_err
  | some balance =>
    refine keeps_bind_rest (r := args.toRegister) trivial h₁ fun remainingCap c₂ h₂ ↦ ?_
    split_ifs
    · exact keeps_err
    · refine keeps_bind_rest (uses_topUp (by simp [Request.Spares, Request.released]) _) h₂
        fun _ c₃ h₃ ↦ ?_
      exact keeps_registerMissing h₃

theorem keeps_executePlan {snapshot : StorageSnapshot} {p : Plan} {maxTopUp initialDeposit : ℕ}
    {c : Chain} (hplan : plan snapshot neededTokens keep = .ok p)
    (hkeys : snapshot.deposits.keys = c.registered wallet.accountId) :
    (executePlan wallet keep maxTopUp initialDeposit p).Keeps (unreliable terms)
      (SameRegistered wallet.accountId) (AllRegistered wallet.accountId neededTokens) c := by
  cases p with
  | initialRegister r =>
    obtain rfl := plan_eq_initialRegister hplan
    exact keeps_registerMissing fun t ht hr ↦ absurd ht hr
  | normal u r n =>
    have hrest : RestRegistered wallet.accountId neededTokens r c := by
      intro t ht hr
      rw [(plan_eq_normal hplan).2] at hr
      rw [← hkeys]
      exact mem_keys_of_not_mem_toRegister ht hr
    have huses : (unregisterStale wallet keep u).Uses (Request.Spares neededTokens) :=
      uses_unregisterStale (by simp [Request.Spares, Request.released]) fun ids hids t ht ↦
        (plan_normal_unwanted hplan (hids ht)).2.2
    exact keeps_bind_rest huses hrest fun _ c₁ h₁ ↦ keeps_topUpAndRegister h₁

theorem keeps_takeSnapshot (c : Chain) :
    (takeSnapshot wallet).Keeps (unreliable terms) (SameRegistered wallet.accountId)
      (fun o c ↦ ∀ snapshot, o = .ok snapshot →
        snapshot.deposits.keys = c.registered wallet.accountId) c := by
  intro c₁ _ a c₂ henv
  cases a with
  | error m => exact fun c₃ _ snapshot ho ↦ by cases ho
  | ok balance =>
    cases balance with
    | none => exact fun c₃ _ snapshot ho ↦ by cases ho
    | some balance =>
      intro c₃ _ a c₄ hdeposits
      obtain ⟨rfl, hdeposits⟩ := unreliable_getDeposits hdeposits
      cases a with
      | error m => exact fun c₅ _ snapshot ho ↦ by cases ho
      | ok deposits =>
        obtain rfl := hdeposits deposits rfl
        intro c₅ hc₅ a c₆ hbounds
        obtain ⟨rfl, -⟩ := unreliable_bounds hbounds
        cases a with
        | error m => exact fun c₇ _ snapshot ho ↦ by cases ho
        | ok bounds =>
          rintro c₇ hc₇ snapshot ⟨⟩
          exact (sameRegistered_trans _ _ _ _ hc₅ hc₇).symm

theorem keeps_lockedSetup (maxTopUp : ℕ) (c : Chain) :
    (lockedSetup wallet neededTokens keep maxTopUp).Keeps (unreliable terms)
      (SameRegistered wallet.accountId) (AllRegistered wallet.accountId neededTokens) c := by
  have hinitial : (initialRegistration wallet maxTopUp).Uses (Request.Spares neededTokens) := by
    refine uses_initialRegistration ?_ ?_ ?_ maxTopUp
    all_goals simp [Request.Spares, Request.released]
  refine keeps_bind_rest (r := neededTokens) hinitial (fun t ht hr ↦ absurd ht hr) fun d c₁ _ ↦ ?_
  refine (keeps_takeSnapshot c₁).bind (sameRegistered_refl _) (fun snapshot c₂ h₂ ↦ ?_)
    (fun e _ _ ho ↦ by cases ho) (fun m _ _ ho ↦ by cases ho)
  cases hp : plan snapshot neededTokens keep with
  | ok p => exact keeps_executePlan hp (h₂ snapshot rfl)
  | err e => exact keeps_err
  | panicked m => exact absurd hp (plan_not_panicked m)

theorem uses_unwanted_lockedSetup (maxTopUp : ℕ) :
    (lockedSetup wallet neededTokens keep maxTopUp).Uses
      fun q ↦ ∀ t ∈ q.released, t ∉ keep ∧ t ∉ neededTokens := by
  refine (uses_initialRegistration ?_ ?_ ?_ maxTopUp).bind fun d ↦
    uses_planAndExecute ?_ ?_ ?_ ?_ ?_ (fun ids hids ↦ hids) maxTopUp d
  all_goals simp [Request.released]

end Call

open System in
/-- Two calls for one account that do not unregister each other's tokens: whatever the
interleaving, the tokens of a call that returned `Ok` are still registered when its swap is
sent. -/
theorem registration_stable_of_covered {ι : Type} [DecidableEq ι] (terms : Terms) (wallet : Wallet)
    (calls : ι → SetupCall)
    (hcover : ∀ i j, i ≠ j → ∀ t ∈ (calls i).neededTokens,
      t ∈ (calls j).neededTokens ∨ t ∈ (calls j).keep)
    (locks : LockMap AccountId) (c : Chain)
    (x : System AccountId ι Request Answer StorageError Unit Chain)
    (h : Reachable (fun i ↦ (calls i).task wallet) (unreliable terms)
      (fun _ o c c' ↦ o = .ok () ∧ Swapped wallet.accountId c c') (start locks c) x)
    (i : ι) (hi : x.phase i = .returned (.ok ())) :
    ∀ t ∈ (calls i).neededTokens, t ∈ x.state.registered wallet.accountId := by
  have hkey : ∀ i, ((calls i).task wallet).key = wallet.accountId := fun _ ↦ rfl
  have hcourse : OnCourse (unreliable terms) (SameRegistered wallet.accountId)
      (fun i ↦ AllRegistered wallet.accountId (calls i).neededTokens)
      (fun j q ↦ ∀ t ∈ q.released, t ∉ (calls j).keep ∧ t ∉ (calls j).neededTokens) x := by
    refine onCourse_of_reachable hkey (sameRegistered_refl _) (sameRegistered_trans _)
      (fun _ _ _ _ ha ↦ ha.2.sameRegistered) ?_ (fun i c ↦ keeps_lockedSetup _ c)
      (fun i ↦ uses_unwanted_lockedSetup _) ?_ ?_ h
    · intro i o c he ho
      simp only [SetupCall.task] at he
      split_ifs at he
      cases he
      cases ho
    · intro i o c c' hc hall ho t ht
      rw [hc]
      exact hall ho t ht
    · intro i j hij o q c a c' hq henv hall ho t ht
      refine registered_of_unreliable henv (hall ho t ht) fun hrel ↦ ?_
      exact (hcover i j hij t ht).elim (hq t hrel).2 (hq t hrel).1
  exact hcourse.returned hi rfl

def coveredCalls : Fin 2 → SetupCall
  | 0 => ⟨[⟨"usdt.near"⟩], [⟨"dai.near"⟩], 10⟩
  | 1 => ⟨[⟨"dai.near"⟩], [⟨"usdt.near"⟩], 10⟩

def uncoveredCalls : Fin 2 → SetupCall
  | 0 => ⟨[⟨"usdt.near"⟩], [⟨"wrap.near"⟩], 10⟩
  | 1 => ⟨[⟨"dai.near"⟩], [⟨"wrap.near"⟩], 10⟩

def tightChain : Chain :=
  ⟨fun _ ↦ some ⟨24, ⟨[(⟨"usdt.near"⟩, 0), (⟨"wrap.near"⟩, 5)], by decide⟩⟩, []⟩

def tightReport (calls : Fin 2 → SetupCall) (i : Fin 2) (c : Chain) :
    Report Request Answer StorageError Unit Chain :=
  run (Chain.respond ⟨10, 7⟩) ((calls i).task ⟨"alice.near"⟩).body c

open System in
theorem reachable_both (calls : Fin 2 → SetupCall)
    (hearly : ∀ i, ((calls i).task ⟨"alice.near"⟩).early = none) :
    ∃ x : System AccountId (Fin 2) Request Answer StorageError Unit Chain,
      Reachable (fun i ↦ (calls i).task ⟨"alice.near"⟩) (unreliable ⟨10, 7⟩)
        (fun _ o c c' ↦ o = .ok () ∧ Swapped "alice.near" c c')
        (start ⟨fun _ ↦ none, 0⟩ tightChain) x ∧
      x.phase 0 = .returned (tightReport calls 0 tightChain).outcome ∧
      x.state = (tightReport calls 1 (tightReport calls 0 tightChain).state).state := by
  have hrun : ∀ i c, ((calls i).task ⟨"alice.near"⟩).body.Runs (unreliable ⟨10, 7⟩) c
      (tightReport calls i c).trace (tightReport calls i c).outcome
      (tightReport calls i c).state :=
    fun i c ↦ (runs_run (Chain.respond ⟨10, 7⟩) _ c).mono fun q s a s' h ↦ .inl h
  have h₀ : Reachable (fun i ↦ (calls i).task ⟨"alice.near"⟩) (unreliable ⟨10, 7⟩)
      (fun _ o c c' ↦ o = .ok () ∧ Swapped "alice.near" c c')
      (start ⟨fun _ ↦ none, 0⟩ tightChain) _ := reachable_call 0 rfl (hearly 0) rfl (hrun 0 _)
  exact ⟨_, h₀.trans (reachable_call 1 rfl (hearly 1) rfl (hrun 1 _)), rfl, rfl⟩

theorem registration_stable_two_calls :
    ∃ x : System AccountId (Fin 2) Request Answer StorageError Unit Chain,
      x.phase 0 = .returned (.ok ()) ∧ ⟨"usdt.near"⟩ ∈ x.state.registered "alice.near" := by
  obtain ⟨x, hx, hphase, -⟩ := reachable_both coveredCalls (by decide)
  have hok : x.phase 0 = .returned (.ok ()) := hphase.trans (congrArg _ (by decide))
  refine ⟨x, hok, registration_stable_of_covered ⟨10, 7⟩ ⟨"alice.near"⟩ coveredCalls (by decide)
    _ _ x hx 0 hok _ (by decide)⟩

/-- The second call gives up the empty token of the first, whose swap is still to come. -/
theorem registration_unstable :
    ∃ x : System AccountId (Fin 2) Request Answer StorageError Unit Chain,
      System.Reachable (fun i ↦ (uncoveredCalls i).task ⟨"alice.near"⟩) (unreliable ⟨10, 7⟩)
        (fun _ o c c' ↦ o = .ok () ∧ Swapped "alice.near" c c')
        (System.start ⟨fun _ ↦ none, 0⟩ tightChain) x ∧
      x.phase 0 = .returned (.ok ()) ∧
      ⟨"usdt.near"⟩ ∈ (uncoveredCalls 0).neededTokens ∧
      ⟨"usdt.near"⟩ ∉ x.state.registered "alice.near" := by
  obtain ⟨x, hx, hphase, hstate⟩ := reachable_both uncoveredCalls (by decide)
  refine ⟨x, hx, hphase.trans (congrArg _ (by decide)), by decide, ?_⟩
  rw [hstate]
  decide

end Zaciraci.Storage
