import Mathlib.Algebra.Order.Floor.Div
import Mathlib.Data.List.Basic
import Mathlib.Data.List.Flatten
import Mathlib.Data.List.Range
import Mathlib.Data.List.ReduceOption

namespace Zaciraci.Lib

variable {ε α β : Type}

/-- How a call ends: with a value, with an error it hands to its caller, or by a panic. -/
inductive Outcome (ε α : Type)
  | ok : α → Outcome ε α
  | err : ε → Outcome ε α
  | panicked : String → Outcome ε α
deriving DecidableEq

namespace Outcome

def bind : Outcome ε α → (α → Outcome ε β) → Outcome ε β
  | .ok a, f => f a
  | .err e, _ => .err e
  | .panicked m, _ => .panicked m

instance : Monad (Outcome ε) where
  pure := .ok
  bind := bind

def mapErr {ε' : Type} (f : ε → ε') : Outcome ε α → Outcome ε' α
  | .ok a => .ok a
  | .err e => .err (f e)
  | .panicked m => .panicked m

def okOr (e : ε) : Option α → Outcome ε α
  | some a => .ok a
  | none => .err e

def expect (msg : String) : Option α → Outcome ε α
  | some a => .ok a
  | none => .panicked msg

def Panics : Outcome ε α → Prop
  | .panicked _ => True
  | _ => False

instance : (o : Outcome ε α) → Decidable o.Panics
  | .ok _ => inferInstanceAs (Decidable False)
  | .err _ => inferInstanceAs (Decidable False)
  | .panicked _ => inferInstanceAs (Decidable True)

@[simp] theorem ok_bind (a : α) (f : α → Outcome ε β) : (Outcome.ok a >>= f) = f a := rfl

@[simp] theorem err_bind (e : ε) (f : α → Outcome ε β) :
    ((Outcome.err e : Outcome ε α) >>= f) = .err e := rfl

@[simp] theorem panicked_bind (m : String) (f : α → Outcome ε β) :
    ((Outcome.panicked m : Outcome ε α) >>= f) = .panicked m := rfl

theorem bind_eq_ok {x : Outcome ε α} {f : α → Outcome ε β} {b : β} :
    (x >>= f) = .ok b ↔ ∃ a, x = .ok a ∧ f a = .ok b := by
  cases x <;> simp

theorem mapErr_eq_ok {ε' : Type} {x : Outcome ε α} {f : ε → ε'} {a : α} :
    x.mapErr f = .ok a ↔ x = .ok a := by
  cases x <;> simp [mapErr]

@[simp] theorem pure_eq_ok (a : α) : (pure a : Outcome ε α) = .ok a := rfl

@[simp] theorem okOr_some (e : ε) (a : α) : okOr e (some a) = .ok a := rfl

@[simp] theorem okOr_none (e : ε) : (okOr e none : Outcome ε α) = .err e := rfl

@[simp] theorem expect_some (m : String) (a : α) :
    (expect m (some a) : Outcome ε α) = .ok a := rfl

@[simp] theorem expect_none (m : String) : (expect m none : Outcome ε α) = .panicked m := rfl

end Outcome

theorem except_bind_eq_ok {x : Except ε α} {f : α → Except ε β} {b : β} :
    (x >>= f) = .ok b ↔ ∃ a, x = .ok a ∧ f a = .ok b := by
  cases x <;> simp [bind, Except.bind]

theorem mapError_eq_ok {ε' : Type} {x : Except ε α} {f : ε → ε'} {a : α} :
    x.mapError f = .ok a ↔ x = .ok a := by
  cases x <;> simp [Except.mapError]

def okOr (e : ε) : Option α → Except ε α
  | some a => .ok a
  | none => .error e

theorem okOr_eq_ok {e : ε} {x : Option α} {a : α} : okOr e x = .ok a ↔ x = some a := by
  cases x <;> simp [okOr]

/-- An early return with an error unless the condition holds. -/
def ensure (c : Prop) [Decidable c] (e : ε) : Except ε Unit := if c then .ok () else .error e

theorem ensure_eq_ok {c : Prop} [Decidable c] {e : ε} {u : Unit} : ensure c e = .ok u ↔ c := by
  simp [ensure]

def u128Bound : ℕ := 2 ^ 128

def usizeMax : ℕ := 2 ^ 64 - 1

def checkedSub (a b : ℕ) : Option ℕ := if b ≤ a then some (a - b) else none

def checkedAdd (a b : ℕ) : Option ℕ := if a + b < u128Bound then some (a + b) else none

def checkedMul (a b : ℕ) : Option ℕ := if a * b < u128Bound then some (a * b) else none

/-- `u128::div_ceil`, which panics on a zero divisor. -/
def divCeil (a b : ℕ) : Outcome ε ℕ :=
  if b = 0 then .panicked "attempt to divide by zero" else .ok (a ⌈/⌉ b)

theorem checkedSub_of_le {a b : ℕ} (h : b ≤ a) : checkedSub a b = some (a - b) := if_pos h

theorem checkedAdd_of_lt {a b : ℕ} (h : a + b < u128Bound) : checkedAdd a b = some (a + b) :=
  if_pos h

theorem checkedMul_of_lt {a b : ℕ} (h : a * b < u128Bound) : checkedMul a b = some (a * b) :=
  if_pos h

theorem checkedMul_of_le {a b : ℕ} (h : u128Bound ≤ a * b) : checkedMul a b = none :=
  if_neg h.not_gt

theorem divCeil_of_pos {a b : ℕ} (h : 0 < b) : (divCeil a b : Outcome ε ℕ) = .ok (a ⌈/⌉ b) :=
  if_neg h.ne'

def digitValue (c : Char) : Option ℕ :=
  if '0' ≤ c ∧ c ≤ '9' then some (c.toNat - '0'.toNat) else none

def parseDigits (bound : ℕ) : ℕ → List Char → Option ℕ
  | n, [] => some n
  | n, c :: cs => do
    let d ← digitValue c
    if n * 10 + d < bound then parseDigits bound (n * 10 + d) cs else none

/-- `str::parse` at an unsigned type whose values are below `bound`: decimal digits, at
least one, after an optional plus sign. -/
def parseUnsigned (bound : ℕ) (s : String) : Option ℕ :=
  match s.toList with
  | [] => none
  | c :: cs => if c = '+' then if cs = [] then none else parseDigits bound 0 cs
    else parseDigits bound 0 (c :: cs)

/-- `slice::chunks`: consecutive pieces of length `n`, the last one possibly shorter. -/
def chunks (n : ℕ) (l : List α) : List (List α) :=
  (List.range (l.length ⌈/⌉ n)).map fun i ↦ (l.drop (i * n)).take n

theorem flatten_pieces (n k : ℕ) (l : List α) :
    ((List.range k).map fun i ↦ (l.drop (i * n)).take n).flatten = l.take (k * n) := by
  induction k with
  | zero => simp
  | succ k ih =>
    rw [List.range_succ, List.map_append, List.flatten_append, ih, Nat.succ_mul, List.take_add]
    simp

theorem flatten_chunks {n : ℕ} (hn : 0 < n) (l : List α) : (chunks n l).flatten = l := by
  rw [chunks, flatten_pieces]
  have h : l.length ≤ n • (l.length ⌈/⌉ n) := le_smul_ceilDiv hn
  exact List.take_of_length_le (by rwa [smul_eq_mul, mul_comm] at h)

theorem length_chunk {n : ℕ} (hn : 0 < n) {l c : List α} (hc : c ∈ chunks n l) :
    1 ≤ c.length ∧ c.length ≤ n := by
  obtain ⟨i, hi, rfl⟩ := List.mem_map.mp hc
  have hlt : i * n < l.length := by
    by_contra h
    have hle : l.length ⌈/⌉ n ≤ i := (ceilDiv_le_iff_le_mul hn).mpr (by rw [mul_comm]; omega)
    exact absurd (List.mem_range.mp hi) (by omega)
  rw [List.length_take, List.length_drop]
  omega

theorem findSome?_range_eq_some {n : ℕ} {f : ℕ → Option α} {a : α} :
    (List.range n).findSome? f = some a ↔ ∃ i < n, f i = some a ∧ ∀ j < i, f j = none := by
  induction n with
  | zero => simp
  | succ n ih =>
    rw [List.range_succ, List.findSome?_append]
    cases hfirst : (List.range n).findSome? f with
    | some b =>
      rw [Option.some_or, ← hfirst, ih]
      constructor
      · rintro ⟨i, hi, h⟩
        exact ⟨i, Nat.lt_succ_of_lt hi, h⟩
      · rintro ⟨i, hi, h⟩
        obtain ⟨j, hj, hsome⟩ := List.exists_of_findSome?_eq_some hfirst
        refine ⟨i, lt_of_le_of_ne (Nat.le_of_lt_succ hi) ?_, h⟩
        rintro rfl
        rw [h.2 j (List.mem_range.1 hj)] at hsome
        cases hsome
    | none =>
      have hnone := List.findSome?_eq_none_iff.1 hfirst
      rw [Option.none_or, List.findSome?_singleton]
      constructor
      · intro h
        exact ⟨n, Nat.lt_succ_self n, h, fun j hj ↦ hnone j (List.mem_range.2 hj)⟩
      · rintro ⟨i, hi, h, -⟩
        obtain rfl | hlt := (Nat.le_of_lt_succ hi).eq_or_lt
        · exact h
        · rw [hnone i (List.mem_range.2 hlt)] at h
          cases h

theorem sublist_of_forall₂ {f : β → α} {P : β → Prop} {l : List α}
    {results : List (Option β)}
    (h : List.Forall₂ (fun a result ↦ ∀ b ∈ result, f b = a ∧ P b) l results) :
    (results.reduceOption.map f).Sublist l ∧ ∀ b ∈ results.reduceOption, P b := by
  induction h with
  | nil => simp
  | @cons a result l results hresult _ ih =>
    cases result with
    | none =>
      rw [List.reduceOption_cons_of_none]
      exact ⟨ih.1.cons a, ih.2⟩
    | some b =>
      obtain ⟨rfl, hb⟩ := hresult b rfl
      rw [List.reduceOption_cons_of_some]
      exact ⟨ih.1.cons_cons _, List.forall_mem_cons.2 ⟨hb, ih.2⟩⟩

end Zaciraci.Lib
