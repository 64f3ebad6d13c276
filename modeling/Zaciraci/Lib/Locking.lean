import Zaciraci.Lib.Program
import Mathlib.Data.List.Nodup
import Mathlib.Logic.Function.Basic
import Mathlib.Logic.Relation

namespace Zaciraci.Lib

variable {K ι σ : Type} {Q : Type} {A : Q → Type} {ε α : Type}

/-- A shared map that hands out one lock for each key, created on first use. -/
structure LockMap (K : Type) where
  entries : K → Option ℕ
  next : ℕ

section LockFor

variable [DecidableEq K]

def LockMap.lockFor (m : LockMap K) (k : K) : ℕ × LockMap K :=
  match m.entries k with
  | some l => (l, m)
  | none => (m.next, ⟨Function.update m.entries k (some m.next), m.next + 1⟩)

theorem LockMap.lockFor_entry (m : LockMap K) (k : K) :
    (m.lockFor k).2.entries k = some (m.lockFor k).1 := by
  unfold lockFor
  cases h : m.entries k with
  | some l => exact h
  | none => simp

theorem LockMap.lockFor_of_entry {m : LockMap K} {k : K} {l : ℕ} (h : m.entries k = some l) :
    m.lockFor k = (l, m) := by
  simp only [lockFor, h]

end LockFor

/-- A call that returns early or runs its body under the lock of its key. -/
structure Task (K Q : Type) (A : Q → Type) (ε α : Type) where
  key : K
  early : Option (Outcome ε α)
  body : Program Q A ε α

def Task.program (t : Task K Q A ε α) : Program Q A ε α :=
  match t.early with
  | some o => .done o
  | none => t.body

inductive Phase (Q : Type) (A : Q → Type) (ε α : Type)
  | idle
  | waiting (lock : ℕ)
  | running (lock : ℕ) (p : Program Q A ε α)
  | returned (o : Outcome ε α)
  | acted (o : Outcome ε α)

/-- The tasks in progress, the locks, the environment they share, and what was exchanged
with it so far. -/
structure System (K ι Q : Type) (A : Q → Type) (ε α σ : Type) where
  locks : LockMap K
  held : ℕ → Option ι
  phase : ι → Phase Q A ε α
  state : σ
  log : List (ι × Exchange Q A)

namespace System

def start (locks : LockMap K) (s : σ) : System K ι Q A ε α σ :=
  ⟨locks, fun _ ↦ none, fun _ ↦ .idle, s, []⟩

section Steps

variable [DecidableEq K] [DecidableEq ι]

/-- One step of one task. A task that has returned, and so holds no lock any more, may still
act on the environment once. -/
inductive Step (tasks : ι → Task K Q A ε α) (env : Program.Environment Q A σ)
    (act : ι → Outcome ε α → σ → σ → Prop) :
    System K ι Q A ε α σ → System K ι Q A ε α σ → Prop
  | reject (x : System K ι Q A ε α σ) (i : ι) (o : Outcome ε α) :
      x.phase i = .idle → (tasks i).early = some o →
      Step tasks env act x { x with phase := Function.update x.phase i (.returned o) }
  | lookup (x : System K ι Q A ε α σ) (i : ι) : x.phase i = .idle → (tasks i).early = none →
      Step tasks env act x { x with
        locks := (x.locks.lockFor (tasks i).key).2
        phase := Function.update x.phase i (.waiting (x.locks.lockFor (tasks i).key).1) }
  | acquire (x : System K ι Q A ε α σ) (i : ι) (l : ℕ) :
      x.phase i = .waiting l → x.held l = none →
      Step tasks env act x { x with
        held := Function.update x.held l (some i)
        phase := Function.update x.phase i (.running l (tasks i).body) }
  | exchange (x : System K ι Q A ε α σ) (i : ι) (l : ℕ) (q : Q) (k : A q → Program Q A ε α)
      (a : A q) (s : σ) : x.phase i = .running l (.ask q k) → env q x.state a s →
      Step tasks env act x { x with
        phase := Function.update x.phase i (.running l (k a))
        state := s
        log := x.log ++ [(i, ⟨q, a⟩)] }
  | release (x : System K ι Q A ε α σ) (i : ι) (l : ℕ) (o : Outcome ε α) :
      x.phase i = .running l (.done o) →
      Step tasks env act x { x with
        held := Function.update x.held l none
        phase := Function.update x.phase i (.returned o) }
  | act (x : System K ι Q A ε α σ) (i : ι) (o : Outcome ε α) (s : σ) :
      x.phase i = .returned o → act i o x.state s →
      Step tasks env act x { x with phase := Function.update x.phase i (.acted o), state := s }

/-- The states some interleaving of the tasks leads to. -/
abbrev Reachable (tasks : ι → Task K Q A ε α) (env : Program.Environment Q A σ)
    (act : ι → Outcome ε α → σ → σ → Prop) (x y : System K ι Q A ε α σ) : Prop :=
  Relation.ReflTransGen (Step tasks env act) x y

end Steps

section Exclusion

variable {tasks : ι → Task K Q A ε α} {env : Program.Environment Q A σ}
  {act : ι → Outcome ε α → σ → σ → Prop} {k : K} {x y : System K ι Q A ε α σ}

/-- Every task that waits for a lock or runs under one uses the lock of the key `k`, and a
running task is its holder. -/
structure LocksAgree (k : K) (x : System K ι Q A ε α σ) : Prop where
  waiting : ∀ {i l}, x.phase i = .waiting l → x.locks.entries k = some l
  running : ∀ {i l p}, x.phase i = .running l p → x.locks.entries k = some l ∧ x.held l = some i

theorem LocksAgree.exclusive (h : LocksAgree k x) {i j : ι} {l l' : ℕ} {p p' : Program Q A ε α}
    (hi : x.phase i = .running l p) (hj : x.phase j = .running l' p') : i = j := by
  obtain ⟨hl, hheld⟩ := h.running hi
  obtain ⟨hl', hheld'⟩ := h.running hj
  rw [hl, Option.some.injEq] at hl'
  rw [← hl', hheld, Option.some.injEq] at hheld'
  exact hheld'

theorem locksAgree_start (locks : LockMap K) (s : σ) :
    LocksAgree k (start locks s : System K ι Q A ε α σ) :=
  ⟨fun h ↦ by simp [start] at h, fun h ↦ by simp [start] at h⟩

theorem phase_update [DecidableEq ι] {f : ι → Phase Q A ε α} {i j : ι} {a b : Phase Q A ε α}
    (h : Function.update f i a j = b) : j = i ∧ a = b ∨ j ≠ i ∧ f j = b := by
  by_cases hj : j = i
  · subst hj
    rw [Function.update_self] at h
    exact .inl ⟨rfl, h⟩
  · rw [Function.update_of_ne hj] at h
    exact .inr ⟨hj, h⟩

theorem phase_of_update [DecidableEq ι] {f : ι → Phase Q A ε α} {i j : ι} {a b : Phase Q A ε α}
    (h : Function.update f i a j = b) (hne : a ≠ b) : f j = b := by
  obtain ⟨-, hab⟩ | ⟨-, hj⟩ := phase_update h
  · exact absurd hab hne
  · exact hj

variable [DecidableEq K] [DecidableEq ι]

theorem LocksAgree.step (hkey : ∀ i, (tasks i).key = k) (h : LocksAgree k x)
    (hstep : Step tasks env act x y) : LocksAgree k y := by
  cases hstep with
  | reject i o hi he =>
    refine ⟨fun hj ↦ ?_, fun hj ↦ ?_⟩
    · exact h.waiting (phase_of_update hj nofun)
    · exact h.running (phase_of_update hj nofun)
  | lookup i hi he =>
    have hentry := x.locks.lockFor_entry k
    refine ⟨fun hj ↦ ?_, fun hj ↦ ?_⟩
    · obtain ⟨-, ⟨⟩⟩ | ⟨-, hj⟩ := phase_update hj
      · rw [hkey i]
        exact hentry
      · have hl := h.waiting hj
        rw [hkey i, LockMap.lockFor_of_entry hl]
        exact hl
    · obtain ⟨-, ⟨⟩⟩ | ⟨-, hj⟩ := phase_update hj
      have hl := h.running hj
      rw [hkey i, LockMap.lockFor_of_entry hl.1]
      exact hl
  | acquire i l hi hfree =>
    have hl := h.waiting hi
    refine ⟨fun hj ↦ ?_, fun hj ↦ ?_⟩
    · exact h.waiting (phase_of_update hj nofun)
    · obtain ⟨rfl, hp⟩ | ⟨-, hj⟩ := phase_update hj
      · cases hp
        exact ⟨hl, Function.update_self ..⟩
      · obtain ⟨hl', hheld⟩ := h.running hj
        rw [hl, Option.some.injEq] at hl'
        rw [← hl', hfree] at hheld
        cases hheld
  | exchange i l q c a s hi henv =>
    refine ⟨fun hj ↦ ?_, fun hj ↦ ?_⟩
    · exact h.waiting (phase_of_update hj nofun)
    · obtain ⟨rfl, hp⟩ | ⟨-, hj⟩ := phase_update hj
      · cases hp
        exact h.running hi
      · exact h.running hj
  | release i l o hi =>
    refine ⟨fun hj ↦ ?_, fun hj ↦ ?_⟩
    · exact h.waiting (phase_of_update hj nofun)
    · obtain ⟨-, ⟨⟩⟩ | ⟨hne, hj⟩ := phase_update hj
      exact absurd (h.exclusive hj hi) hne
  | act i o s hi ha =>
    refine ⟨fun hj ↦ ?_, fun hj ↦ ?_⟩
    · exact h.waiting (phase_of_update hj nofun)
    · exact h.running (phase_of_update hj nofun)

/-- Under the lock of one key at most one task runs, in every interleaving. -/
theorem locksAgree_of_reachable (hkey : ∀ i, (tasks i).key = k) {locks : LockMap K} {s : σ}
    (h : Reachable tasks env act (start locks s) x) : LocksAgree k x := by
  induction h with
  | refl => exact locksAgree_start locks s
  | tail _ hstep ih => exact ih.step hkey hstep

end Exclusion

section Serial

open Program

variable {tasks : ι → Task K Q A ε α} {env : Environment Q A σ} {k : K}
  {x y : System K ι Q A ε α σ} {s s₁ : σ}

/-- The calls in `done` run one after the other from `s`, with the outcomes recorded there;
they exchange `log` and leave the environment in the last state. -/
inductive Serial (tasks : ι → Task K Q A ε α) (env : Environment Q A σ) (s : σ) :
    List (ι × Outcome ε α) → List (ι × Exchange Q A) → σ → Prop
  | nil : Serial tasks env s [] [] s
  | snoc {done : List (ι × Outcome ε α)} {log : List (ι × Exchange Q A)} {s₁ s₂ : σ} {i : ι}
      {τ : List (Exchange Q A)} {o : Outcome ε α} :
      Serial tasks env s done log s₁ → (tasks i).program.Runs env s₁ τ o s₂ →
      Serial tasks env s (done ++ [(i, o)]) (log ++ τ.map fun e ↦ (i, e)) s₂

/-- The program `p₀`, started in `s₀`, has exchanged `τ` and goes on as `p` in `s`. -/
def GoesOn (env : Environment Q A σ) (p₀ : Program Q A ε α) (s₀ : σ) (τ : List (Exchange Q A))
    (p : Program Q A ε α) (s : σ) : Prop :=
  ∀ υ o s', p.Runs env s υ o s' → p₀.Runs env s₀ (τ ++ υ) o s'

/-- Beyond the calls that have returned, with exchanges `log` and final state `s₁`, at most
one call is under way. -/
inductive Pending (tasks : ι → Task K Q A ε α) (env : Environment Q A σ)
    (x : System K ι Q A ε α σ) (log : List (ι × Exchange Q A)) (s₁ : σ) : Prop
  | nobody : (∀ i l p, x.phase i ≠ .running l p) → x.log = log → x.state = s₁ →
      Pending tasks env x log s₁
  | one (i : ι) (l : ℕ) (p : Program Q A ε α) (τ : List (Exchange Q A)) :
      x.phase i = .running l p → (tasks i).early = none →
      GoesOn env (tasks i).body s₁ τ p x.state → x.log = log ++ τ.map (fun e ↦ (i, e)) →
      Pending tasks env x log s₁

/-- What has happened so far is the work of the returned calls, one after the other, and of
at most one more call. -/
structure Serialised (tasks : ι → Task K Q A ε α) (env : Environment Q A σ) (s : σ)
    (x : System K ι Q A ε α σ) (done : List (ι × Outcome ε α)) (log : List (ι × Exchange Q A))
    (s₁ : σ) : Prop where
  serial : Serial tasks env s done log s₁
  once : (done.map Prod.fst).Nodup
  returned : ∀ i o, (i, o) ∈ done ↔ x.phase i = .returned o
  pending : Pending tasks env x log s₁

variable {done : List (ι × Outcome ε α)} {log : List (ι × Exchange Q A)}

theorem Serialised.not_mem {i : ι} (h : Serialised tasks env s x done log s₁)
    (hi : ∀ o, x.phase i ≠ .returned o) :
    i ∉ done.map Prod.fst := by
  intro hmem
  obtain ⟨⟨j, o⟩, hj, rfl⟩ := List.mem_map.mp hmem
  exact hi o ((h.returned j o).mp hj)

theorem Serialised.nodup_snoc {i : ι} (o : Outcome ε α) (h : Serialised tasks env s x done log s₁)
    (hi : ∀ o, x.phase i ≠ .returned o) : ((done ++ [(i, o)]).map Prod.fst).Nodup := by
  rw [List.map_append, List.nodup_append']
  refine ⟨h.once, by simp, ?_⟩
  simpa using h.not_mem hi

/-- The history of a system in which the tasks do nothing after they have returned. -/
def History (tasks : ι → Task K Q A ε α) (env : Environment Q A σ) (s : σ)
    (x : System K ι Q A ε α σ) : Prop :=
  (∀ i l, x.phase i = .waiting l → (tasks i).early = none) ∧
    ∃ done log s₁, Serialised tasks env s x done log s₁

theorem history_start (locks : LockMap K) (s : σ) :
    History tasks env s (start locks s) := by
  refine ⟨fun i l h ↦ by simp [start] at h, [], [], s, .nil, .nil, fun i o ↦ ?_, ?_⟩
  · simp [start]
  · exact .nobody (fun i l p h ↦ by simp [start] at h) rfl rfl

variable [DecidableEq ι]

theorem Serialised.returned_snoc {i : ι} {o : Outcome ε α}
    (h : Serialised tasks env s x done log s₁) (hi : ∀ o, x.phase i ≠ .returned o) (j : ι)
    (o' : Outcome ε α) :
    (j, o') ∈ done ++ [(i, o)] ↔ Function.update x.phase i (.returned o) j = .returned o' := by
  rw [List.mem_append, List.mem_singleton, Prod.mk.injEq, h.returned]
  by_cases hj : j = i
  · subst hj
    simp [hi, eq_comm]
  · simp [hj]

theorem Serialised.returned_update {i : ι} {ph : Phase Q A ε α}
    (h : Serialised tasks env s x done log s₁) (hi : ∀ o, x.phase i ≠ .returned o)
    (hph : ∀ o, ph ≠ .returned o) (j : ι) (o : Outcome ε α) :
    (j, o) ∈ done ↔ Function.update x.phase i ph j = .returned o := by
  rw [h.returned]
  by_cases hj : j = i
  · subst hj
    simp [hi, hph]
  · simp [hj]

theorem early_update {i : ι} {ph : Phase Q A ε α}
    (h : ∀ j l, x.phase j = .waiting l → (tasks j).early = none)
    (hi : ∀ l, ph = .waiting l → (tasks i).early = none) (j : ι) (l : ℕ)
    (hj : Function.update x.phase i ph j = .waiting l) : (tasks j).early = none := by
  obtain ⟨rfl, hp⟩ | ⟨-, hj⟩ := phase_update hj
  · exact hi l hp
  · exact h j l hj

theorem Pending.congr_phase {i : ι} {ph : Phase Q A ε α} {locks : LockMap K}
    (h : Pending tasks env x log s₁) (hi : ∀ l p, x.phase i ≠ .running l p)
    (hph : ∀ l p, ph ≠ .running l p) :
    Pending tasks env { x with locks := locks, phase := Function.update x.phase i ph } log s₁ := by
  cases h with
  | nobody hno hlog hstate =>
    refine .nobody (fun j l p hj ↦ ?_) hlog hstate
    obtain ⟨-, hj⟩ | ⟨-, hj⟩ := phase_update hj
    · exact hph l p hj
    · exact hno j l p hj
  | one j l p τ hj hearly hgo hlog =>
    have hne : j ≠ i := fun h ↦ hi l p (h ▸ hj)
    exact .one j l p τ ((Function.update_of_ne hne ..).trans hj) hearly hgo hlog

variable [DecidableEq K]

theorem History.step (hx : LocksAgree k x) (hy : LocksAgree k y) (h : History tasks env s x)
    (hstep : Step tasks env (fun _ _ _ _ ↦ False) x y) : History tasks env s y := by
  obtain ⟨hearly, done, log, s₁, h⟩ := h
  cases hstep with
  | reject i o hi he =>
    have hret : ∀ o, x.phase i ≠ .returned o := by simp [hi]
    have hrun : (tasks i).program.Runs env s₁ [] o s₁ := by
      rw [Task.program, he]
      exact .done o s₁
    have hserial := h.serial.snoc hrun
    rw [List.map_nil, List.append_nil] at hserial
    refine ⟨early_update hearly (by simp), _, log, s₁, hserial, h.nodup_snoc o hret,
      h.returned_snoc hret, ?_⟩
    exact h.pending.congr_phase (by simp [hi]) (by simp)
  | lookup i hi he =>
    refine ⟨early_update hearly fun _ _ ↦ he, done, log, s₁, h.serial, h.once,
      h.returned_update (by simp [hi]) (by simp), ?_⟩
    exact h.pending.congr_phase (by simp [hi]) (by simp)
  | acquire i l hi hfree =>
    refine ⟨early_update hearly (by simp), done, log, s₁, h.serial, h.once,
      h.returned_update (by simp [hi]) (by simp), ?_⟩
    cases h.pending with
    | nobody hno hlog hstate =>
      refine .one i l (tasks i).body [] (Function.update_self ..) (hearly i l hi) ?_ ?_
      · intro υ o s' hrun
        rwa [hstate] at hrun
      · simpa using hlog
    | one j l' p τ hj hearly' hgo hlog =>
      have hne : j ≠ i := fun hji ↦ by simp [hji, hi] at hj
      have hj' : Function.update x.phase i (.running l (tasks i).body) j = .running l' p := by
        rw [Function.update_of_ne hne, hj]
      exact absurd (hy.exclusive hj' (Function.update_self ..)) hne
  | exchange i l q c a s' hi henv =>
    refine ⟨early_update hearly (by simp), done, log, s₁, h.serial, h.once,
      h.returned_update (by simp [hi]) (by simp), ?_⟩
    cases h.pending with
    | nobody hno hlog hstate => exact absurd hi (hno i l _)
    | one j l' p τ hj hearly' hgo hlog =>
      obtain rfl := hx.exclusive hj hi
      rw [hi] at hj
      cases hj
      refine .one j l (c a) (τ ++ [⟨q, a⟩]) (Function.update_self ..) hearly' ?_ ?_
      · intro υ o s'' hrun
        rw [List.append_assoc]
        exact hgo _ o s'' (.ask henv hrun)
      · simp [hlog]
  | release i l o hi =>
    have hret : ∀ o, x.phase i ≠ .returned o := by simp [hi]
    cases h.pending with
    | nobody hno hlog hstate => exact absurd hi (hno i l _)
    | one j l' p τ hj hearly' hgo hlog =>
      obtain rfl := hx.exclusive hj hi
      rw [hi] at hj
      cases hj
      have hrun : (tasks j).program.Runs env s₁ τ o x.state := by
        have hbody := hgo [] o x.state (.done o _)
        rwa [Task.program, hearly', ← List.append_nil τ]
      refine ⟨early_update hearly (by simp), _, _, _, h.serial.snoc hrun, h.nodup_snoc o hret,
        h.returned_snoc hret, .nobody (fun m l'' p hm ↦ ?_) hlog rfl⟩
      obtain ⟨-, ⟨⟩⟩ | ⟨hne, hm⟩ := phase_update hm
      exact hne (hx.exclusive hm hi)
  | act i o s' hi ha => exact ha.elim

/-- In every interleaving of calls that share one lock, what has happened is a serial run of
the calls that have returned, possibly followed by the beginning of one more. -/
theorem history_of_reachable (hkey : ∀ i, (tasks i).key = k) {locks : LockMap K}
    (h : Reachable tasks env (fun _ _ _ _ ↦ False) (start locks s) x) :
    History tasks env s x := by
  induction h with
  | refl => exact history_start locks s
  | tail hreach hstep ih =>
    have hx := locksAgree_of_reachable hkey hreach
    exact ih.step hx (hx.step hkey hstep) hstep

end Serial

section Stability

open Program

variable {tasks : ι → Task K Q A ε α} {env : Environment Q A σ}
  {act : ι → Outcome ε α → σ → σ → Prop} {k : K} {x y : System K ι Q A ε α σ}
  {rely : σ → σ → Prop} {Φ : ι → Outcome ε α → σ → Prop} {P : ι → Q → Prop}

/-- The running task is on its way to its postcondition, and the postconditions of the
returned tasks hold. -/
structure OnCourse (env : Environment Q A σ) (rely : σ → σ → Prop)
    (Φ : ι → Outcome ε α → σ → Prop) (P : ι → Q → Prop) (x : System K ι Q A ε α σ) : Prop where
  running : ∀ {i l p}, x.phase i = .running l p → p.Keeps env rely (Φ i) x.state ∧ p.Uses (P i)
  returned : ∀ {i o}, x.phase i = .returned o → Φ i o x.state

variable [DecidableEq K] [DecidableEq ι]

/-- The postcondition of a call still holds after it has given up the lock, provided the
requests of the other calls and the actions of all preserve it. -/
theorem onCourse_of_reachable (hkey : ∀ i, (tasks i).key = k)
    (hrefl : ∀ s, rely s s) (htrans : ∀ s s' s'', rely s s' → rely s' s'' → rely s s'')
    (hact : ∀ i o s s', act i o s s' → rely s s')
    (hearly : ∀ i o s, (tasks i).early = some o → Φ i o s)
    (hbody : ∀ i s, (tasks i).body.Keeps env rely (Φ i) s) (huses : ∀ i, (tasks i).body.Uses (P i))
    (hrely : ∀ i o s s', rely s s' → Φ i o s → Φ i o s')
    (hother : ∀ i j, i ≠ j → ∀ o q s a s', P j q → env q s a s' → Φ i o s → Φ i o s')
    {locks : LockMap K} {s : σ} (h : Reachable tasks env act (start locks s) x) :
    OnCourse env rely Φ P x := by
  induction h with
  | refl => exact ⟨fun h ↦ by simp [start] at h, fun h ↦ by simp [start] at h⟩
  | @tail x y hreach hstep ih =>
    have hx := locksAgree_of_reachable hkey hreach
    cases hstep with
    | reject i o hi he =>
      refine ⟨fun hj ↦ ?_, fun hj ↦ ?_⟩
      · exact ih.running (phase_of_update hj nofun)
      · obtain ⟨rfl, ho⟩ | ⟨-, hj⟩ := phase_update hj
        · cases ho
          exact hearly _ _ _ he
        · exact ih.returned hj
    | lookup i hi he =>
      refine ⟨fun hj ↦ ?_, fun hj ↦ ?_⟩
      · exact ih.running (phase_of_update hj nofun)
      · exact ih.returned (phase_of_update hj nofun)
    | acquire i l hi hfree =>
      refine ⟨fun hj ↦ ?_, fun hj ↦ ?_⟩
      · obtain ⟨rfl, hp⟩ | ⟨-, hj⟩ := phase_update hj
        · cases hp
          exact ⟨hbody _ _, huses _⟩
        · exact ih.running hj
      · exact ih.returned (phase_of_update hj nofun)
    | exchange i l q c a s' hi henv =>
      obtain ⟨hkeeps, huse⟩ := ih.running hi
      refine ⟨fun hj ↦ ?_, fun hj ↦ ?_⟩
      · obtain ⟨rfl, hp⟩ | ⟨hne, hj⟩ := phase_update hj
        · cases hp
          exact ⟨hkeeps _ (hrefl _) a s' henv, huse.2 a⟩
        · exact absurd (hx.exclusive hj hi) hne
      · obtain ⟨-, ⟨⟩⟩ | ⟨hne, hj⟩ := phase_update hj
        exact hother _ i hne _ q _ a s' huse.1 henv (ih.returned hj)
    | release i l o hi =>
      refine ⟨fun hj ↦ ?_, fun hj ↦ ?_⟩
      · exact ih.running (phase_of_update hj nofun)
      · obtain ⟨rfl, ho⟩ | ⟨-, hj⟩ := phase_update hj
        · cases ho
          exact (ih.running hi).1 _ (hrefl _)
        · exact ih.returned hj
    | act i o s' hi ha =>
      have hs := hact i o _ _ ha
      refine ⟨fun hj ↦ ?_, fun hj ↦ ?_⟩
      · obtain ⟨-, ⟨⟩⟩ | ⟨-, hj⟩ := phase_update hj
        obtain ⟨hkeeps, huse⟩ := ih.running hj
        exact ⟨hkeeps.stable htrans hs, huse⟩
      · obtain ⟨-, ⟨⟩⟩ | ⟨-, hj⟩ := phase_update hj
        exact hrely _ _ _ _ hs (ih.returned hj)

end Stability

section Alone

open Program

variable {tasks : ι → Task K Q A ε α} {env : Environment Q A σ}
  {act : ι → Outcome ε α → σ → σ → Prop} [DecidableEq K] [DecidableEq ι]

theorem reachable_of_runs {i : ι} {l : ℕ} {p : Program Q A ε α} {s s' : σ}
    {τ : List (Exchange Q A)} {o : Outcome ε α} (h : p.Runs env s τ o s')
    {x : System K ι Q A ε α σ} (hx : x.phase i = .running l p) (hs : x.state = s) :
    Reachable tasks env act x { x with
      held := Function.update x.held l none
      phase := Function.update x.phase i (.returned o)
      state := s'
      log := x.log ++ τ.map fun e ↦ (i, e) } := by
  induction h generalizing x with
  | done o s =>
    subst hs
    have h : Reachable tasks env act x _ := .single (Step.release x i l o hx)
    simpa using h
  | @ask q c s s₁ s₂ a τ o henv _ ih =>
    subst hs
    refine .head (Step.exchange x i l q c a s₁ hx henv) ?_
    have h := ih (x := { x with
      phase := Function.update x.phase i (.running l (c a))
      state := s₁
      log := x.log ++ [(i, ⟨q, a⟩)] }) (Function.update_self ..) rfl
    simpa using h

theorem reachable_call (i : ι) {x : System K ι Q A ε α σ} {s' : σ} {τ : List (Exchange Q A)}
    {o : Outcome ε α} (hidle : x.phase i = .idle) (hearly : (tasks i).early = none)
    (hfree : x.held = fun _ ↦ none) (h : (tasks i).body.Runs env x.state τ o s') :
    Reachable tasks env act x { x with
      locks := (x.locks.lockFor (tasks i).key).2
      phase := Function.update x.phase i (.returned o)
      state := s'
      log := x.log ++ τ.map fun e ↦ (i, e) } := by
  let waiting : System K ι Q A ε α σ := { x with
    locks := (x.locks.lockFor (tasks i).key).2
    phase := Function.update x.phase i (.waiting (x.locks.lockFor (tasks i).key).1) }
  let running : System K ι Q A ε α σ := { waiting with
    held := Function.update x.held (x.locks.lockFor (tasks i).key).1 (some i)
    phase := Function.update waiting.phase i
      (.running (x.locks.lockFor (tasks i).key).1 (tasks i).body) }
  have hlookup : Step tasks env act x waiting := .lookup x i hidle hearly
  have hacquire : Step tasks env act waiting running :=
    .acquire waiting i _ (Function.update_self ..) (by simp [waiting, hfree])
  have hrun : Reachable tasks env act running _ :=
    reachable_of_runs h (Function.update_self ..) rfl
  have hheld : Function.update x.held (x.locks.lockFor (tasks i).key).1 none = x.held := by
    rw [hfree]
    exact Function.update_eq_self ..
  refine .head hlookup (.head hacquire ?_)
  simpa only [running, waiting, Function.update_idem, hheld] using hrun

theorem reachable_behind (tasks : ι → Task K Q A ε α) (act : ι → Outcome ε α → σ → σ → Prop)
    {i j : ι} (hij : i ≠ j) (hkey : (tasks j).key = (tasks i).key)
    (hi : (tasks i).early = none) (hj : (tasks j).early = none) (locks : LockMap K) {q : Q}
    {c : A q → Program Q A ε α} {a : A q} {s s₁ s₂ s₃ : σ} {τ υ : List (Exchange Q A)}
    {o o' : Outcome ε α} (hbody : (tasks i).body = .ask q c) (henv : env q s a s₁)
    (h : (c a).Runs env s₁ τ o s₂) (h' : (tasks j).body.Runs env s₂ υ o' s₃) :
    ∃ (x y : System K ι Q A ε α σ) (l : ℕ), Reachable tasks env act (start locks s) x ∧
      (x.log = [(i, ⟨q, a⟩)] ∧ x.phase i = .running l (c a) ∧ x.phase j = .waiting l) ∧
      Reachable tasks env act x y ∧ y.state = s₃ ∧
      y.log = (i, ⟨q, a⟩) :: τ.map (i, ·) ++ υ.map (j, ·) ∧
      y.phase i = .returned o ∧ y.phase j = .returned o' := by
  set l := (locks.lockFor (tasks i).key).1
  set m := (locks.lockFor (tasks i).key).2
  let idle : ι → Phase Q A ε α := fun _ ↦ .idle
  let holder : ℕ → Option ι := Function.update (fun _ ↦ none) l (some i)
  have hlookup : Reachable tasks env act (start locks s)
      ⟨m, fun _ ↦ none, Function.update idle i (.waiting l), s, []⟩ :=
    .single (.lookup _ i rfl hi)
  have hacquire : Reachable tasks env act (start locks s)
      ⟨m, holder, Function.update idle i (.running l (.ask q c)), s, []⟩ := by
    have h := hlookup.tail (.acquire _ i l (by simp) rfl)
    simpa only [Function.update_idem, hbody] using h
  have hask : Reachable tasks env act (start locks s)
      ⟨m, holder, Function.update idle i (.running l (c a)), s₁, [(i, ⟨q, a⟩)]⟩ := by
    have h := hacquire.tail (.exchange _ i l q c a s₁ (by simp) henv)
    simpa only [Function.update_idem, List.nil_append] using h
  let x : System K ι Q A ε α σ := ⟨m, holder,
    Function.update (Function.update idle i (.running l (c a))) j (.waiting l), s₁, [(i, ⟨q, a⟩)]⟩
  have hwait : Reachable tasks env act (start locks s) x := by
    have hlock : m.lockFor (tasks j).key = (l, m) :=
      LockMap.lockFor_of_entry (hkey ▸ LockMap.lockFor_entry locks (tasks i).key)
    have h := hask.tail (.lookup _ j (by simp [hij.symm, idle]) hj)
    simpa only [hlock] using h
  have hrunning : x.phase i = .running l (c a) := by
    simp only [x, Function.update_of_ne hij, Function.update_self]
  have hfirst : Reachable tasks env act x _ := reachable_of_runs h hrunning rfl
  have hnext := hfirst.tail (.acquire _ j l (by simp [x, hij.symm]) (Function.update_self ..))
  have hsecond := hnext.trans (reachable_of_runs h' (Function.update_self ..) rfl)
  refine ⟨x, _, l, hwait, ⟨rfl, hrunning, Function.update_self ..⟩, hsecond, rfl, rfl, ?_, ?_⟩
  · simp [x, hij]
  · exact Function.update_self ..

end Alone

end System

end Zaciraci.Lib
