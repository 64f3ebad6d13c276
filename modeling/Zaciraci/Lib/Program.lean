import Zaciraci.Lib.RustStd

namespace Zaciraci.Lib

variable {Q : Type} {A : Q → Type} {ε α β σ : Type}

/-- A program that talks to its environment: it issues a request, waits for the
answer, and goes on with whatever the environment said. -/
inductive Program (Q : Type) (A : Q → Type) (ε α : Type)
  | done : Outcome ε α → Program Q A ε α
  | ask : (q : Q) → (A q → Program Q A ε α) → Program Q A ε α

/-- One exchange with the environment: the request and the answer it received. -/
structure Exchange (Q : Type) (A : Q → Type) where
  request : Q
  answer : A request

namespace Program

def bind : Program Q A ε α → (α → Program Q A ε β) → Program Q A ε β
  | .done (.ok a), f => f a
  | .done (.err e), _ => .done (.err e)
  | .done (.panicked m), _ => .done (.panicked m)
  | .ask q k, f => .ask q fun a ↦ (k a).bind f

instance : Monad (Program Q A ε) where
  pure a := .done (.ok a)
  bind := bind

def fail (e : ε) : Program Q A ε α := .done (.err e)

def panic (msg : String) : Program Q A ε α := .done (.panicked msg)

def perform (q : Q) : Program Q A ε (A q) := .ask q fun a ↦ .done (.ok a)

def ofOutcome (o : Outcome ε α) : Program Q A ε α := .done o

/-- The `?` operator. -/
def ofExcept : Except ε α → Program Q A ε α
  | .ok a => .done (.ok a)
  | .error e => .done (.err e)

def when (p : Program Q A ε Unit) (c : Prop) [Decidable c] : Program Q A ε Unit :=
  if c then p else .done (.ok ())

/-- Handling the error of a call instead of passing it on. A panic is not caught. -/
def attempt : Program Q A ε α → Program Q A ε (Except ε α)
  | .done (.ok a) => .done (.ok (.ok a))
  | .done (.err e) => .done (.ok (.error e))
  | .done (.panicked m) => .done (.panicked m)
  | .ask q k => .ask q fun a ↦ (k a).attempt

/-- A call to a program with other requests: each is sent as `f` says, and its answer read
by `g`. -/
def embed {Q' : Type} {A' : Q' → Type} {ε' : Type} (f : Q' → Q) (g : (q : Q') → A (f q) → A' q)
    (e : ε' → ε) : Program Q' A' ε' α → Program Q A ε α
  | .done o => .done (o.mapErr e)
  | .ask q k => .ask (f q) fun a ↦ (k (g q a)).embed f g e

@[simp] theorem pure_bind (a : α) (f : α → Program Q A ε β) : (pure a >>= f) = f a := rfl

theorem bind_bind {γ : Type} (p : Program Q A ε α) (f : α → Program Q A ε β)
    (g : β → Program Q A ε γ) : (p.bind f).bind g = p.bind fun a ↦ (f a).bind g := by
  induction p with
  | done o => cases o <;> rfl
  | ask q k ih => exact congrArg (ask q) (funext ih)

@[simp] theorem fail_bind (e : ε) (f : α → Program Q A ε β) : (fail e >>= f) = fail e := rfl

@[simp] theorem panic_bind (m : String) (f : α → Program Q A ε β) :
    (panic m >>= f) = panic m := rfl

@[simp] theorem ofExcept_ok (a : α) : (ofExcept (.ok a) : Program Q A ε α) = pure a := rfl

@[simp] theorem ofExcept_error (e : ε) :
    (ofExcept (.error e) : Program Q A ε α) = fail e := rfl

theorem attempt_bind_ofExcept (p : Program Q A ε α) : (p.attempt >>= ofExcept) = p := by
  change p.attempt.bind ofExcept = p
  induction p with
  | done o => cases o <;> rfl
  | ask q k ih => exact congrArg (ask q) (funext ih)

section Interp

variable {Q' : Type} {A' : Q' → Type} {h : (q : Q') → Program Q A ε (A' q)}

/-- A program whose requests are themselves carried out by programs. -/
def interp (h : (q : Q') → Program Q A ε (A' q)) : Program Q' A' ε α → Program Q A ε α
  | .done o => .done o
  | .ask q k => (h q).bind fun a ↦ (k a).interp h

theorem interp_bind (p : Program Q' A' ε α) (f : α → Program Q' A' ε β) :
    (p >>= f).interp h = p.interp h >>= fun a ↦ (f a).interp h := by
  change (p.bind f).interp h = (p.interp h).bind fun a ↦ (f a).interp h
  induction p with
  | done o => cases o <;> rfl
  | ask q k ih =>
    change ((h q).bind fun a ↦ ((k a).bind f).interp h) = _
    rw [funext ih]
    exact (bind_bind _ _ _).symm

theorem interp_perform (q : Q') : (perform q).interp h = h q := by
  change ((h q).bind fun a ↦ .done (.ok a)) = h q
  induction h q with
  | done o => cases o <;> rfl
  | ask r k ih => exact congrArg (ask r) (funext ih)

theorem interp_ite {c : Prop} [Decidable c] {p p' : Program Q' A' ε α} :
    (if c then p else p').interp h = if c then p.interp h else p'.interp h := by
  split_ifs <;> rfl

theorem interp_foldlM {f : β → α → Program Q' A' ε β} (l : List α) (b : β) :
    (l.foldlM f b).interp h = l.foldlM (fun b a ↦ (f b a).interp h) b := by
  induction l generalizing b with
  | nil => rfl
  | cons a l ih => rw [List.foldlM_cons, interp_bind, List.foldlM_cons, funext ih]

end Interp

/-- `Exec p τ o`: some environment answers the requests of `p` as recorded in `τ`,
and `p` then ends with `o`. No answer is excluded. -/
inductive Exec : Program Q A ε α → List (Exchange Q A) → Outcome ε α → Prop
  | done (o : Outcome ε α) : Exec (.done o) [] o
  | ask {q : Q} {k : A q → Program Q A ε α} {τ : List (Exchange Q A)} {o : Outcome ε α}
      (a : A q) : Exec (k a) τ o → Exec (.ask q k) (⟨q, a⟩ :: τ) o

/-- The postcondition `Φ` holds of the exchanges and the outcome of every execution. -/
def Always (Φ : List (Exchange Q A) → Outcome ε α → Prop) (p : Program Q A ε α) : Prop :=
  ∀ τ o, Exec p τ o → Φ τ o

section Always

variable {Φ Ψ : List (Exchange Q A) → Outcome ε α → Prop}

theorem Always.mono {p : Program Q A ε α} (h : Always Φ p) (hΨ : ∀ τ o, Φ τ o → Ψ τ o) :
    Always Ψ p := fun τ o he ↦ hΨ τ o (h τ o he)

@[simp] theorem always_done {o : Outcome ε α} : Always Φ (.done o) ↔ Φ [] o := by
  constructor
  · intro h
    exact h [] o (.done o)
  · intro h τ o' he
    cases he
    exact h

@[simp] theorem always_pure {a : α} : Always Φ (pure a) ↔ Φ [] (.ok a) := always_done

@[simp] theorem always_fail {e : ε} : Always Φ (fail e) ↔ Φ [] (.err e) := always_done

theorem always_ask {q : Q} {k : A q → Program Q A ε α} :
    Always Φ (.ask q k) ↔ ∀ a, Always (fun τ ↦ Φ (⟨q, a⟩ :: τ)) (k a) := by
  constructor
  · intro h a τ o he
    exact h _ o (.ask a he)
  · intro h τ o he
    cases he with
    | ask a he => exact h a _ o he

@[simp] theorem always_perform {q : Q} {f : A q → Program Q A ε α} :
    Always Φ (perform q >>= f) ↔ ∀ a, Always (fun τ ↦ Φ (⟨q, a⟩ :: τ)) (f a) :=
  always_ask

theorem Always.ite {c : Prop} [Decidable c] {p p' : Program Q A ε α} (h : Always Φ p)
    (h' : Always Φ p') : Always Φ (if c then p else p') := by
  split_ifs
  · exact h
  · exact h'

theorem Always.bind {Θ : List (Exchange Q A) → Outcome ε α → Prop}
    {Φ : List (Exchange Q A) → Outcome ε β → Prop}
    {p : Program Q A ε α} {f : α → Program Q A ε β} (h : Always Θ p)
    (hok : ∀ τ a, Θ τ (.ok a) → Always (fun τ' ↦ Φ (τ ++ τ')) (f a))
    (herr : ∀ τ e, Θ τ (.err e) → Φ τ (.err e))
    (hpanic : ∀ τ m, Θ τ (.panicked m) → Φ τ (.panicked m)) :
    Always Φ (p >>= f) := by
  change Always Φ (p.bind f)
  induction p generalizing Θ Φ with
  | done o =>
    rw [always_done] at h
    cases o with
    | ok a => exact hok [] a h
    | err e => exact always_done.mpr (herr [] e h)
    | panicked m => exact always_done.mpr (hpanic [] m h)
  | ask q k ih =>
    rw [always_ask] at h
    refine always_ask.mpr fun a ↦ ih a (h a) ?_ ?_ ?_
    · exact fun τ b ht ↦ by simpa using hok _ b ht
    · exact fun τ e ht ↦ herr _ e ht
    · exact fun τ m ht ↦ hpanic _ m ht

theorem Always.bind_ok {Θ : List (Exchange Q A) → α → Prop}
    {Φ : List (Exchange Q A) → Outcome ε β → Prop}
    {p : Program Q A ε α} {f : α → Program Q A ε β}
    (h : Always (fun τ o ↦ ∃ a, o = .ok a ∧ Θ τ a) p)
    (hok : ∀ τ a, Θ τ a → Always (fun τ' ↦ Φ (τ ++ τ')) (f a)) : Always Φ (p >>= f) := by
  refine h.bind ?_ (fun τ e he ↦ ?_) fun τ m hm ↦ ?_
  · rintro τ a ⟨b, hb, hΘ⟩
    cases hb
    exact hok τ a hΘ
  · obtain ⟨a, ha, -⟩ := he
    cases ha
  · obtain ⟨a, ha, -⟩ := hm
    cases ha

end Always

section Returns

/-- The values that `p` returns satisfy `Θ`, with the exchanges before. -/
def Returns (Θ : List (Exchange Q A) → α → Prop) (p : Program Q A ε α) : Prop :=
  Always (fun τ o ↦ ∀ a, o = .ok a → Θ τ a) p

variable {Θ : List (Exchange Q A) → α → Prop} {Φ : List (Exchange Q A) → β → Prop}
  {p : Program Q A ε α} {f : α → Program Q A ε β}

@[simp] theorem returns_pure {a : α} : Returns Θ (pure a : Program Q A ε α) ↔ Θ [] a := by
  simp [Returns]

@[simp] theorem returns_fail {e : ε} : Returns Θ (fail e : Program Q A ε α) := by
  simp [Returns]

theorem returns_perform {q : Q} {k : A q → Program Q A ε α} :
    Returns Θ (perform q >>= k) ↔ ∀ a, Returns (fun τ ↦ Θ (⟨q, a⟩ :: τ)) (k a) :=
  always_perform

theorem returns_true (p : Program Q A ε α) : Returns (fun _ _ ↦ True) p := by
  intro τ o _ a _
  trivial

theorem Returns.bind (h : Returns Θ p)
    (hf : ∀ τ a, Θ τ a → Returns (fun τ' ↦ Φ (τ ++ τ')) (f a)) : Returns Φ (p >>= f) := by
  refine Always.bind h (fun τ a ha ↦ hf τ a (ha a rfl)) (fun τ e _ b hb ↦ ?_) fun τ m _ b hb ↦ ?_
  · cases hb
  · cases hb

theorem Returns.ite {c : Prop} [Decidable c] {p p' : Program Q A ε α} (h : c → Returns Θ p)
    (h' : ¬ c → Returns Θ p') : Returns Θ (if c then p else p') := by
  split_ifs with hc
  · exact h hc
  · exact h' hc

theorem returns_mapM {R : α → β → Prop} (hf : ∀ a, Returns (fun _ ↦ R a) (f a)) (l : List α) :
    Returns (fun _ ↦ List.Forall₂ R l) (l.mapM' f) := by
  induction l with
  | nil => exact returns_pure.2 .nil
  | cons a l ih =>
    refine (hf a).bind fun _ b hb ↦ ih.bind fun _ bs hbs ↦ ?_
    exact returns_pure.2 (.cons hb hbs)

end Returns

section Uses

variable {P : Q → Prop}

/-- Whatever the environment answers, `p` only issues requests that satisfy `P`. -/
def Uses (P : Q → Prop) : Program Q A ε α → Prop
  | .done _ => True
  | .ask q k => P q ∧ ∀ a, Uses P (k a)

theorem Uses.always {p : Program Q A ε α} (h : Uses P p) :
    Always (fun τ _ ↦ ∀ e ∈ τ, P e.request) p := by
  induction p with
  | done o => simp
  | ask q k ih =>
    refine always_ask.mpr fun a ↦ (ih a (h.2 a)).mono fun τ o hτ ↦ ?_
    exact List.forall_mem_cons.mpr ⟨h.1, hτ⟩

theorem Uses.bind {p : Program Q A ε α} {f : α → Program Q A ε β} (hp : Uses P p)
    (hf : ∀ a, Uses P (f a)) : Uses P (p >>= f) := by
  change Uses P (p.bind f)
  induction p with
  | done o =>
    cases o with
    | ok a => exact hf a
    | err e => trivial
    | panicked m => trivial
  | ask q k ih => exact ⟨hp.1, fun a ↦ ih a (hp.2 a)⟩

theorem Uses.mono {P' : Q → Prop} {p : Program Q A ε α} (h : Uses P p) (hP : ∀ q, P q → P' q) :
    Uses P' p := by
  induction p with
  | done o => trivial
  | ask q k ih => exact ⟨hP q h.1, fun a ↦ ih a (h.2 a)⟩

theorem uses_of_forall (h : ∀ q, P q) (p : Program Q A ε α) : Uses P p := by
  induction p with
  | done o => trivial
  | ask q k ih => exact ⟨h q, ih⟩

theorem Uses.ite {c : Prop} [Decidable c] {p p' : Program Q A ε α} (h : Uses P p)
    (h' : Uses P p') : Uses P (if c then p else p') := by
  split_ifs
  · exact h
  · exact h'

theorem Uses.when {c : Prop} [Decidable c] {p : Program Q A ε Unit} (h : Uses P p) :
    Uses P (p.when c) := h.ite trivial

theorem Uses.attempt {p : Program Q A ε α} (h : Uses P p) : Uses P p.attempt := by
  induction p with
  | done o => cases o <;> trivial
  | ask q k ih => exact ⟨h.1, fun a ↦ ih a (h.2 a)⟩

theorem Uses.embed {Q' : Type} {A' : Q' → Type} {ε' : Type} {f : Q' → Q}
    {g : (q : Q') → A (f q) → A' q} {e : ε' → ε} {p : Program Q' A' ε' α}
    (h : Uses (fun q ↦ P (f q)) p) : Uses P (p.embed f g e) := by
  induction p with
  | done o => trivial
  | ask q k ih => exact ⟨h.1, fun a ↦ ih _ (h.2 _)⟩

theorem uses_foldlM {f : β → α → Program Q A ε β} (hf : ∀ b a, Uses P (f b a)) (l : List α)
    (b : β) : Uses P (l.foldlM f b) := by
  induction l generalizing b with
  | nil => trivial
  | cons a l ih => exact (hf b a).bind ih

theorem uses_mapM {f : α → Program Q A ε β} (hf : ∀ a, Uses P (f a)) (l : List α) :
    Uses P (l.mapM' f) := by
  induction l with
  | nil => trivial
  | cons a l ih => exact (hf a).bind fun _ ↦ ih.bind fun _ ↦ trivial

theorem uses_perform {q : Q} (hq : P q) : Uses P (perform q : Program Q A ε (A q)) :=
  ⟨hq, fun _ ↦ trivial⟩

theorem uses_ofExcept (x : Except ε α) : Uses P (ofExcept x : Program Q A ε α) := by
  cases x <;> trivial

end Uses

/-- What an environment may answer to a request, and the state it is then in. -/
abbrev Environment (Q : Type) (A : Q → Type) (σ : Type) := (q : Q) → σ → A q → σ → Prop

/-- `p.Runs env s τ o s'`: in an environment that starts in `s`, `p` exchanges `τ`, ends
with `o` and leaves the environment in `s'`. -/
inductive Runs (env : Environment Q A σ) :
    Program Q A ε α → σ → List (Exchange Q A) → Outcome ε α → σ → Prop
  | done (o : Outcome ε α) (s : σ) : Runs env (.done o) s [] o s
  | ask {q : Q} {k : A q → Program Q A ε α} {s s' s'' : σ} {a : A q} {τ : List (Exchange Q A)}
      {o : Outcome ε α} : env q s a s' → Runs env (k a) s' τ o s'' →
      Runs env (.ask q k) s (⟨q, a⟩ :: τ) o s''

section Runs

variable {env : Environment Q A σ} {s s' s'' : σ} {τ υ : List (Exchange Q A)}
  {p : Program Q A ε α} {f : α → Program Q A ε β}

variable {o : Outcome ε α}

theorem Runs.exec (h : Runs env p s τ o s') : Exec p τ o := by
  induction h with
  | done o s => exact .done o
  | ask _ _ ih => exact .ask _ ih

theorem Runs.answered (h : Runs env p s τ o s') :
    ∀ e ∈ τ, ∃ s₁ s₂, env e.request s₁ e.answer s₂ := by
  induction h with
  | done o s => simp
  | ask henv _ ih => exact List.forall_mem_cons.2 ⟨⟨_, _, henv⟩, ih⟩

theorem Runs.of_pure {a : α} (h : Runs env (pure a) s τ o s') :
    o = .ok a ∧ s' = s ∧ τ = [] := by
  cases h with
  | done o s => exact ⟨rfl, rfl, rfl⟩

theorem Runs.of_ask {q : Q} {k : A q → Program Q A ε α} (h : Runs env (.ask q k) s τ o s') :
    ∃ a s₁ υ, env q s a s₁ ∧ Runs env (k a) s₁ υ o s' ∧ τ = ⟨q, a⟩ :: υ := by
  cases h with
  | ask henv h => exact ⟨_, _, _, henv, h, rfl⟩

theorem Runs.bind {a : α} {o : Outcome ε β} (h : Runs env p s τ (.ok a) s')
    (h' : Runs env (f a) s' υ o s'') : Runs env (p >>= f) s (τ ++ υ) o s'' := by
  generalize ho : Outcome.ok a = o' at h
  induction h with
  | done o s =>
    subst ho
    exact h'
  | ask henv _ ih => exact .ask henv (ih h' ho)

theorem Runs.of_bind {o : Outcome ε β} (h : Runs env (p >>= f) s τ o s') :
    (∃ a τ₁ τ₂ s₁, Runs env p s τ₁ (.ok a) s₁ ∧ Runs env (f a) s₁ τ₂ o s' ∧ τ = τ₁ ++ τ₂) ∨
    (∃ e, Runs env p s τ (.err e) s' ∧ o = .err e) ∨
    ∃ m, Runs env p s τ (.panicked m) s' ∧ o = .panicked m := by
  change Runs env (p.bind f) s τ o s' at h
  induction p generalizing s τ with
  | done o' =>
    cases o' with
    | ok a => exact .inl ⟨a, [], τ, s, .done _ s, h, rfl⟩
    | err e =>
      cases h
      exact .inr (.inl ⟨e, .done _ _, rfl⟩)
    | panicked m =>
      cases h
      exact .inr (.inr ⟨m, .done _ _, rfl⟩)
  | ask q k ih =>
    cases h with
    | ask henv h =>
      rcases ih _ h with ⟨a, τ₁, τ₂, s₁, h₁, h₂, rfl⟩ | ⟨e, h₁, rfl⟩ | ⟨m, h₁, rfl⟩
      · exact .inl ⟨a, _, τ₂, s₁, .ask henv h₁, h₂, rfl⟩
      · exact .inr (.inl ⟨e, .ask henv h₁, rfl⟩)
      · exact .inr (.inr ⟨m, .ask henv h₁, rfl⟩)

theorem Runs.of_bind_ok {b : β} (h : Runs env (p >>= f) s τ (.ok b) s') :
    ∃ a τ₁ τ₂ s₁, Runs env p s τ₁ (.ok a) s₁ ∧ Runs env (f a) s₁ τ₂ (.ok b) s' ∧ τ = τ₁ ++ τ₂ := by
  rcases h.of_bind with h | ⟨e, -, he⟩ | ⟨m, -, hm⟩
  · exact h
  · exact nomatch he
  · exact nomatch hm

theorem Runs.preserves {P : Q → Prop} {I : σ → Prop} (h : Runs env p s τ o s') (huses : Uses P p)
    (hstep : ∀ q s a s', P q → env q s a s' → I s → I s') (hs : I s) : I s' := by
  induction h with
  | done o s => exact hs
  | ask henv _ ih => exact ih (huses.2 _) (hstep _ _ _ _ huses.1 henv hs)

theorem Runs.mono {env' : Environment Q A σ} (h : Runs env p s τ o s')
    (henv : ∀ q s a s', env q s a s' → env' q s a s') : Runs env' p s τ o s' := by
  induction h with
  | done o s => exact .done o s
  | ask hq _ ih => exact .ask (henv _ _ _ _ hq) ih

theorem Runs.attempt (h : Runs env p s τ o s') :
    ∃ o', Runs env p.attempt s τ o' s' := by
  induction h with
  | done o s =>
    cases o with
    | ok a => exact ⟨_, .done _ s⟩
    | err e => exact ⟨_, .done _ s⟩
    | panicked m => exact ⟨_, .done _ s⟩
  | ask henv _ ih =>
    obtain ⟨o', h⟩ := ih
    exact ⟨o', .ask henv h⟩

theorem Runs.attempt_ok {a : α} (h : Runs env p s τ (.ok a) s') :
    Runs env p.attempt s τ (.ok (.ok a)) s' := by
  generalize ho : Outcome.ok a = o' at h
  induction h with
  | done o s =>
    subst ho
    exact .done _ s
  | ask henv _ ih => exact .ask henv (ih ho)

theorem Runs.of_attempt {o : Outcome ε (Except ε α)} (h : Runs env p.attempt s τ o s') :
    ∃ o', Runs env p s τ o' s' := by
  induction p generalizing s τ with
  | done o' =>
    cases o' <;> cases h <;> exact ⟨_, .done _ _⟩
  | ask q k ih =>
    cases h with
    | ask henv h =>
      obtain ⟨o', h'⟩ := ih _ h
      exact ⟨o', .ask henv h'⟩

theorem Runs.of_attempt_ok {r : Except ε α} (h : Runs env p.attempt s τ (.ok r) s') :
    ∃ o', (∀ m, o' ≠ .panicked m) ∧ Runs env p s τ o' s' := by
  induction p generalizing s τ with
  | done o' =>
    cases o' with
    | ok a =>
      cases h
      exact ⟨.ok a, nofun, .done _ _⟩
    | err e =>
      cases h
      exact ⟨.err e, nofun, .done _ _⟩
    | panicked m => cases h
  | ask q k ih =>
    cases h with
    | ask henv h =>
      obtain ⟨o', hpanic, h'⟩ := ih _ h
      exact ⟨o', hpanic, .ask henv h'⟩

theorem exists_runs (htotal : ∀ q s, ∃ a s', env q s a s') (p : Program Q A ε α) (s : σ) :
    ∃ τ o s', Runs env p s τ o s' := by
  induction p generalizing s with
  | done o => exact ⟨[], o, s, .done o s⟩
  | ask q k ih =>
    obtain ⟨a, s₁, henv⟩ := htotal q s
    obtain ⟨τ, o, s', h⟩ := ih a s₁
    exact ⟨_, o, s', .ask henv h⟩

/-- Some run of `p` from `s` ends with `o` in `s'` and issues only requests that
satisfy `P`. -/
def Ends (env : Environment Q A σ) (P : Q → Prop) (p : Program Q A ε α) (s : σ)
    (o : Outcome ε α) (s' : σ) : Prop :=
  ∃ τ, Runs env p s τ o s' ∧ ∀ e ∈ τ, P e.request

variable {P : Q → Prop}

theorem ends_done : Ends env P (.done o) s o s := ⟨[], .done o s, by simp⟩

theorem Ends.bind {a : α} {o : Outcome ε β} (h : Ends env P p s (.ok a) s')
    (h' : Ends env P (f a) s' o s'') : Ends env P (p >>= f) s o s'' := by
  obtain ⟨τ, hτ, hP⟩ := h
  obtain ⟨υ, hυ, hP'⟩ := h'
  exact ⟨τ ++ υ, hτ.bind hυ, List.forall_mem_append.mpr ⟨hP, hP'⟩⟩

theorem ends_ask {q : Q} {k : A q → Program Q A ε α} {a : A q} (henv : env q s a s') (hq : P q)
    (h : Ends env P (k a) s' o s'') :
    Ends env P (.ask q k) s o s'' := by
  obtain ⟨τ, hτ, hP⟩ := h
  exact ⟨⟨q, a⟩ :: τ, .ask henv hτ, List.forall_mem_cons.mpr ⟨hq, hP⟩⟩

theorem Ends.mono {P' : Q → Prop} (h : Ends env P p s o s') (hP : ∀ q, P q → P' q) :
    Ends env P' p s o s' := by
  obtain ⟨τ, hτ, hτP⟩ := h
  exact ⟨τ, hτ, fun e he ↦ hP _ (hτP e he)⟩

end Runs

section Within

variable {env : Environment Q A σ} {P : Q → Prop} {s : σ} {p : Program Q A ε α}
  {f : α → Program Q A ε β}

/-- No run of `p` from `s` issues a request outside `P`. -/
def Within (env : Environment Q A σ) (P : Q → Prop) (p : Program Q A ε α) (s : σ) : Prop :=
  ∀ τ o s', Runs env p s τ o s' → ∀ e ∈ τ, P e.request

theorem Uses.within (h : Uses P p) : Within env P p s := fun τ o _ hr ↦ h.always τ o hr.exec

theorem within_attempt : Within env P p.attempt s ↔ Within env P p s := by
  constructor
  · intro h τ o s' hr
    obtain ⟨o', hr'⟩ := hr.attempt
    exact h τ o' s' hr'
  · intro h τ o s' hr
    obtain ⟨o', hr'⟩ := hr.of_attempt
    exact h τ o' s' hr'

variable (htotal : ∀ q s, ∃ a s', env q s a s')

include htotal in
theorem within_ask {q : Q} {k : A q → Program Q A ε α} :
    Within env P (.ask q k) s ↔ P q ∧ ∀ a s', env q s a s' → Within env P (k a) s' := by
  constructor
  · intro h
    have hnext : ∀ a s', env q s a s' → P q ∧ Within env P (k a) s' := by
      intro a s' henv
      obtain ⟨τ, o, s'', hr⟩ := exists_runs htotal (k a) s'
      refine ⟨h _ o s'' (.ask henv hr) ⟨q, a⟩ List.mem_cons_self, fun υ o' t ht e he ↦ ?_⟩
      exact h _ o' t (.ask henv ht) e (List.mem_cons_of_mem _ he)
    obtain ⟨a, s', henv⟩ := htotal q s
    exact ⟨(hnext a s' henv).1, fun a s' henv ↦ (hnext a s' henv).2⟩
  · rintro ⟨hq, h⟩ τ o s' hr
    cases hr with
    | ask henv hr => exact List.forall_mem_cons.mpr ⟨hq, h _ _ henv _ _ _ hr⟩

include htotal in
theorem within_bind :
    Within env P (p >>= f) s ↔
      Within env P p s ∧ ∀ τ a s', Runs env p s τ (.ok a) s' → Within env P (f a) s' := by
  change Within env P (p.bind f) s ↔ _
  induction p generalizing s with
  | done o =>
    have hdone : Within env P (.done o) s := Uses.within trivial
    cases o with
    | ok a =>
      refine ⟨fun h ↦ ⟨hdone, fun τ b s' hr ↦ ?_⟩, fun h ↦ h.2 [] a s (.done _ s)⟩
      cases hr
      exact h
    | err e => exact ⟨fun _ ↦ ⟨hdone, nofun⟩, fun _ ↦ Uses.within trivial⟩
    | panicked m => exact ⟨fun _ ↦ ⟨hdone, nofun⟩, fun _ ↦ Uses.within trivial⟩
  | ask q k ih =>
    change Within env P (.ask q fun a ↦ (k a).bind f) s ↔ _
    rw [within_ask htotal, within_ask htotal]
    constructor
    · rintro ⟨hq, h⟩
      refine ⟨⟨hq, fun a s' henv ↦ (ih a |>.mp (h a s' henv)).1⟩, fun τ b s' hr ↦ ?_⟩
      cases hr with
      | ask henv hr => exact (ih _ |>.mp (h _ _ henv)).2 _ b s' hr
    · rintro ⟨⟨hq, h⟩, hf⟩
      exact ⟨hq, fun a s' henv ↦ (ih a).mpr ⟨h a s' henv, fun τ b t hr ↦ hf _ b t (.ask henv hr)⟩⟩

include htotal in
theorem within_bind_of_uses (hf : ∀ a, Uses P (f a)) :
    Within env P (p >>= f) s ↔ Within env P p s := by
  rw [within_bind htotal]
  exact ⟨fun h ↦ h.1, fun h ↦ ⟨h, fun _ a _ _ ↦ (hf a).within⟩⟩

end Within

section Ensures

variable {env : Environment Q A σ} {p : Program Q A ε α} {f : α → Program Q A ε β} {s : σ}
  {Θ : List (Exchange Q A) → Outcome ε α → σ → Prop}
  {Φ : List (Exchange Q A) → Outcome ε β → σ → Prop}

/-- Every run of `p` from `s` satisfies `Φ`: what was exchanged, how it ended and where. -/
def Ensures (env : Environment Q A σ) (p : Program Q A ε α) (s : σ)
    (Φ : List (Exchange Q A) → Outcome ε α → σ → Prop) : Prop :=
  ∀ τ o s', Runs env p s τ o s' → Φ τ o s'

theorem ensures_done {o : Outcome ε α} : Ensures env (.done o) s Θ ↔ Θ [] o s := by
  constructor
  · exact fun h ↦ h [] o s (.done o s)
  · intro h τ o' s' hr
    cases hr
    exact h

theorem ensures_ask {q : Q} {k : A q → Program Q A ε α} :
    Ensures env (.ask q k) s Θ ↔
      ∀ a s', env q s a s' → Ensures env (k a) s' fun τ o s'' ↦ Θ (⟨q, a⟩ :: τ) o s'' := by
  constructor
  · exact fun h a s' henv τ o s'' hr ↦ h _ o s'' (.ask henv hr)
  · intro h τ o s'' hr
    obtain ⟨a, s₁, υ, henv, hnext, rfl⟩ := hr.of_ask
    exact h a s₁ henv υ o s'' hnext

theorem Ensures.mono {Θ' : List (Exchange Q A) → Outcome ε α → σ → Prop}
    (h : Ensures env p s Θ) (hΘ : ∀ τ o s', Θ τ o s' → Θ' τ o s') : Ensures env p s Θ' :=
  fun τ o s' hr ↦ hΘ τ o s' (h τ o s' hr)

theorem Ensures.bind (h : Ensures env p s Θ)
    (hok : ∀ τ a s', Θ τ (.ok a) s' → Ensures env (f a) s' fun υ o s'' ↦ Φ (τ ++ υ) o s'')
    (herr : ∀ τ e s', Θ τ (.err e) s' → Φ τ (.err e) s')
    (hpanic : ∀ τ m s', Θ τ (.panicked m) s' → Φ τ (.panicked m) s') :
    Ensures env (p >>= f) s Φ := by
  intro τ o s' hr
  rcases hr.of_bind with ⟨a, τ₁, τ₂, s₁, h₁, h₂, rfl⟩ | ⟨e, h₁, rfl⟩ | ⟨m, h₁, rfl⟩
  · exact hok τ₁ a s₁ (h _ _ _ h₁) τ₂ o s' h₂
  · exact herr τ e s' (h _ _ _ h₁)
  · exact hpanic τ m s' (h _ _ _ h₁)

theorem ensures_of_uses {P : Q → Prop} (huses : Uses P p)
    (hstep : ∀ q s a s', P q → env q s a s' → s' = s) :
    Ensures env p s fun τ _ s' ↦ s' = s ∧ ∀ e ∈ τ, P e.request := fun τ o _ hr ↦
  ⟨hr.preserves (I := fun t ↦ t = s) huses (fun q t a t' hq h ht ↦ (hstep q t a t' hq h).trans ht)
    rfl, huses.always τ o hr.exec⟩

end Ensures

section Yields

variable {env : Environment Q A σ} {p : Program Q A ε α} {f : α → Program Q A ε β} {s s' s'' : σ}

/-- `p` can run from `s`, and each of its runs ends with `o` in `s'`. -/
def Yields (env : Environment Q A σ) (p : Program Q A ε α) (s : σ) (o : Outcome ε α) (s' : σ) :
    Prop :=
  (∃ τ, Runs env p s τ o s') ∧ Ensures env p s fun _ o' s'' ↦ o' = o ∧ s'' = s'

theorem yields_done {o : Outcome ε α} : Yields env (.done o) s o s :=
  ⟨⟨[], .done o s⟩, ensures_done.2 ⟨rfl, rfl⟩⟩

theorem yields_ask {q : Q} {k : A q → Program Q A ε α} {o : Outcome ε α}
    (hsome : ∃ a s₁, env q s a s₁) (hall : ∀ a s₁, env q s a s₁ → Yields env (k a) s₁ o s') :
    Yields env (.ask q k) s o s' := by
  constructor
  · obtain ⟨a, s₁, henv⟩ := hsome
    obtain ⟨τ, hτ⟩ := (hall a s₁ henv).1
    exact ⟨_, .ask henv hτ⟩
  · exact ensures_ask.2 fun a s₁ henv ↦ (hall a s₁ henv).2

theorem Yields.bind {a : α} {o : Outcome ε β} (h : Yields env p s (.ok a) s')
    (h' : Yields env (f a) s' o s'') : Yields env (p >>= f) s o s'' := by
  obtain ⟨⟨τ, hτ⟩, hp⟩ := h
  obtain ⟨⟨υ, hυ⟩, hf⟩ := h'
  refine ⟨⟨τ ++ υ, hτ.bind hυ⟩, hp.bind ?_ (fun _ _ _ h ↦ nomatch h.1) fun _ _ _ h ↦ nomatch h.1⟩
  rintro τ₁ b s₁ ⟨hb, rfl⟩
  obtain rfl := Outcome.ok.inj hb
  exact hf

end Yields

section Stays

variable {env : Environment Q A σ} {I : σ → Prop} {s : σ} {p : Program Q A ε α}
  {f : α → Program Q A ε β}

/-- Every state that a run of `p` from `s` passes satisfies `I`. -/
def Stays (env : Environment Q A σ) (I : σ → Prop) : Program Q A ε α → σ → Prop
  | .done _, s => I s
  | .ask q k, s => I s ∧ ∀ a s', env q s a s' → Stays env I (k a) s'

theorem stays_of_uses {P : Q → Prop} (huses : Uses P p)
    (hstep : ∀ q s a s', P q → env q s a s' → I s → I s') (hs : I s) : Stays env I p s := by
  induction p generalizing s with
  | done o => exact hs
  | ask q k ih => exact ⟨hs, fun a s' henv ↦ ih a (huses.2 a) (hstep q s a s' huses.1 henv hs)⟩

theorem Stays.bind (h : Stays env I p s)
    (hok : ∀ τ a s', Runs env p s τ (.ok a) s' → I s' → Stays env I (f a) s') :
    Stays env I (p >>= f) s := by
  change Stays env I (p.bind f) s
  induction p generalizing s with
  | done o =>
    cases o with
    | ok a => exact hok [] a s (.done _ s) h
    | err e => exact h
    | panicked m => exact h
  | ask q k ih =>
    refine ⟨h.1, fun a s' henv ↦ ih a (h.2 a s' henv) fun τ b s'' hr ↦ ?_⟩
    exact hok _ b s'' (.ask henv hr)

end Stays

section Keeps

variable {env : Environment Q A σ} {rely : σ → σ → Prop} {Φ Ψ : Outcome ε α → σ → Prop}
  {P : Q → Prop}

/-- While others change the state only as `rely` allows, `p` ends in a state with `Φ`, and
`Φ` still holds after further such changes. -/
def Keeps (env : Environment Q A σ) (rely : σ → σ → Prop) (Φ : Outcome ε α → σ → Prop) :
    Program Q A ε α → σ → Prop
  | .done o, s => ∀ s', rely s s' → Φ o s'
  | .ask q k, s => ∀ s', rely s s' → ∀ a s'', env q s' a s'' → Keeps env rely Φ (k a) s''

theorem Keeps.stable (htrans : ∀ s s' s'', rely s s' → rely s' s'' → rely s s'')
    {p : Program Q A ε α} {s s' : σ} (h : Keeps env rely Φ p s) (hs : rely s s') :
    Keeps env rely Φ p s' := by
  cases p with
  | done o => exact fun s'' h' ↦ h s'' (htrans _ _ _ hs h')
  | ask q k => exact fun s'' h' ↦ h s'' (htrans _ _ _ hs h')

theorem keeps_of_uses {I : σ → Prop} {p : Program Q A ε α} {s : σ} (huses : Uses P p)
    (hstep : ∀ q s a s', P q → env q s a s' → I s → I s')
    (hrely : ∀ s s', rely s s' → I s → I s') (hs : I s) : Keeps env rely (fun _ ↦ I) p s := by
  induction p generalizing s with
  | done o => exact fun s' h ↦ hrely s s' h hs
  | ask q k ih =>
    intro s' h a s'' henv
    exact ih a (huses.2 a) (hstep q s' a s'' huses.1 henv (hrely s s' h hs))

theorem Keeps.bind (hrefl : ∀ s, rely s s) {Θ : Outcome ε α → σ → Prop}
    {Φ : Outcome ε β → σ → Prop} {p : Program Q A ε α} {f : α → Program Q A ε β} {s : σ}
    (h : Keeps env rely Θ p s)
    (hok : ∀ a s', Θ (.ok a) s' → Keeps env rely Φ (f a) s')
    (herr : ∀ e s', Θ (.err e) s' → Φ (.err e) s')
    (hpanic : ∀ m s', Θ (.panicked m) s' → Φ (.panicked m) s') :
    Keeps env rely Φ (p >>= f) s := by
  change Keeps env rely Φ (p.bind f) s
  induction p generalizing s with
  | done o =>
    cases o with
    | ok a => exact hok a s (h s (hrefl s))
    | err e => exact fun s' hs ↦ herr e s' (h s' hs)
    | panicked m => exact fun s' hs ↦ hpanic m s' (h s' hs)
  | ask q k ih => exact fun s' hs a s'' henv ↦ ih a (h s' hs a s'' henv)

end Keeps

structure Report (Q : Type) (A : Q → Type) (ε α σ : Type) where
  trace : List (Exchange Q A)
  outcome : Outcome ε α
  state : σ

/-- Execution in an environment that answers by a function of its state. -/
def run (answer : (q : Q) → σ → A q × σ) : Program Q A ε α → σ → Report Q A ε α σ
  | .done o, s => ⟨[], o, s⟩
  | .ask q k, s =>
    let r := run answer (k (answer q s).1) (answer q s).2
    ⟨⟨q, (answer q s).1⟩ :: r.trace, r.outcome, r.state⟩

section Meets

variable {answer : (q : Q) → σ → A q × σ} {P : Q → σ → Prop}

/-- Every request of the execution from `s` is one that `P` allows in the state it is made in. -/
def Meets (answer : (q : Q) → σ → A q × σ) (P : Q → σ → Prop) : Program Q A ε α → σ → Prop
  | .done _, _ => True
  | .ask q k, s => P q s ∧ Meets answer P (k (answer q s).1) (answer q s).2

instance decidableMeets [∀ q s, Decidable (P q s)] :
    ∀ (p : Program Q A ε α) (s : σ), Decidable (Meets answer P p s)
  | .done _, _ => inferInstanceAs (Decidable True)
  | .ask q k, s =>
    have := decidableMeets (k (answer q s).1) (answer q s).2
    inferInstanceAs (Decidable (_ ∧ _))

theorem Meets.preserves {I : σ → Prop} {p : Program Q A ε α} {s : σ} (h : Meets answer P p s)
    (hstep : ∀ q s, P q s → I s → I (answer q s).2) (hs : I s) : I (p.run answer s).state := by
  induction p generalizing s with
  | done o => exact hs
  | ask q k ih => exact ih _ h.2 (hstep q s h.1 hs)

end Meets

def deterministic (answer : (q : Q) → σ → A q × σ) : Environment Q A σ :=
  fun q s a s' ↦ answer q s = (a, s')

theorem run_eq_of_runs {answer : (q : Q) → σ → A q × σ} {p : Program Q A ε α} {s s' : σ}
    {τ : List (Exchange Q A)} {o : Outcome ε α} (h : Runs (deterministic answer) p s τ o s') :
    run answer p s = ⟨τ, o, s'⟩ := by
  induction h with
  | done o s => rfl
  | ask henv _ ih =>
    have henv : answer _ _ = _ := henv
    rw [run, henv]
    simp only [ih]

theorem runs_of_run {ρ : Type} {env : Environment Q A σ} {answer : (q : Q) → ρ → A q × ρ}
    (v : ρ → σ) (hstep : ∀ q s, env q (v s) (answer q s).1 (v (answer q s).2))
    (p : Program Q A ε α) (s : ρ) :
    Runs env p (v s) (run answer p s).trace (run answer p s).outcome
      (v (run answer p s).state) := by
  induction p generalizing s with
  | done o => exact .done o (v s)
  | ask q k ih => exact .ask (hstep q s) (ih _ _)

theorem runs_run (answer : (q : Q) → σ → A q × σ) (p : Program Q A ε α) (s : σ) :
    Runs (deterministic answer) p s (run answer p s).trace (run answer p s).outcome
      (run answer p s).state := runs_of_run id (fun _ _ ↦ rfl) p s

theorem run_of_ends {answer : (q : Q) → σ → A q × σ} {P : Q → Prop} {p : Program Q A ε α}
    {s s' : σ} {o : Outcome ε α} (h : Ends (deterministic answer) P p s o s') :
    (run answer p s).outcome = o ∧ (run answer p s).state = s' ∧
      ∀ e ∈ (run answer p s).trace, P e.request := by
  obtain ⟨τ, hτ, hP⟩ := h
  rw [run_eq_of_runs hτ]
  exact ⟨rfl, rfl, hP⟩

end Program

end Zaciraci.Lib
