import Zaciraci.Arbitrage.SingleLoop
import Zaciraci.Path.Search

namespace Zaciraci.Path

open Zaciraci.Lib

section Agree

variable {A ε M N : Type} [LinearOrder M] [LinearOrder N]

/-- Two caches that hold the same results, the second at the images of the inputs. The inputs of
`seen` have results. -/
structure SameCache (calcRes : M → Outcome ε (Option A)) (f : M → N) (seen : List M)
    (cache : SortedMap M (Option A)) (cache' : SortedMap N (Option A)) : Prop where
  cached : Cached calcRes cache
  same : ∀ x, cache'.get (f x) = cache.get x
  seen : ∀ x ∈ seen, cache.get x ≠ none

variable {calcRes : M → Outcome ε (Option A)} {calcRes' : N → Outcome ε (Option A)} {f : M → N}
  {seen : List M} {cache : SortedMap M (Option A)} {cache' : SortedMap N (Option A)}

theorem SameCache.get_of_mem (h : SameCache calcRes f seen cache cache') {x : M} {r : Option A}
    (hx : x ∈ seen) (hr : calcRes x = .ok r) :
    cache.get x = some r ∧ cache'.get (f x) = some r := by
  obtain ⟨r', hget⟩ := Option.ne_none_iff_exists'.1 (h.seen x hx)
  obtain rfl := Outcome.ok.inj (hr.symm.trans (h.cached x r' hget))
  exact ⟨hget, (h.same x).trans hget⟩

theorem SameCache.insert (h : SameCache calcRes f seen cache cache') (hf : f.Injective) {x : M}
    {r : Option A} (hr : calcRes x = .ok r) :
    SameCache calcRes f (x :: seen) (cache.insert x r) (cache'.insert (f x) r) := by
  refine ⟨fun y r' hget ↦ ?_, fun y ↦ ?_, fun y hy ↦ ?_⟩
  · rw [SortedMap.get_insert] at hget
    split_ifs at hget with hyx
    · cases hget
      exact hyx ▸ hr
    · exact h.cached y r' hget
  · rw [SortedMap.get_insert, SortedMap.get_insert, h.same y]
    exact if_congr hf.eq_iff rfl rfl
  · rw [SortedMap.get_insert]
    split_ifs with hyx
    · exact Option.some_ne_none r
    · exact h.seen y ((List.mem_cons.1 hy).resolve_left hyx)

theorem sameCache_empty : SameCache calcRes f [] (.empty : SortedMap M (Option A))
    (.empty : SortedMap N (Option A)) :=
  ⟨fun _ _ h ↦ (Option.some_ne_none _ h.symm).elim, fun _ ↦ rfl, nofun⟩

variable [Zero M] [Zero N] {gain : A → M} {gain' : A → N}

theorem SameCache.evaluate (h : SameCache calcRes f seen cache cache') (hf : f.Injective)
    (hcalc : ∀ x, calcRes' (f x) = calcRes x) (gain : A → M) (gain' : A → N) (x : M) :
    (∃ e, calcRes x = .err e ∧ evaluate calcRes gain cache x = .err e ∧
      evaluate calcRes' gain' cache' (f x) = .err e) ∨
    (∃ m, calcRes x = .panicked m ∧ evaluate calcRes gain cache x = .panicked m ∧
      evaluate calcRes' gain' cache' (f x) = .panicked m) ∨
    ∃ r cache₁ cache₁', calcRes x = .ok r ∧
      evaluate calcRes gain cache x = .ok (r.elim 0 gain, cache₁) ∧
      evaluate calcRes' gain' cache' (f x) = .ok (r.elim 0 gain', cache₁') ∧
      SameCache calcRes f (x :: seen) cache₁ cache₁' := by
  simp only [Path.evaluate, h.same x]
  cases hget : cache.get x with
  | some r =>
    refine .inr (.inr ⟨r, cache, cache', h.cached x r hget, rfl, rfl, h.cached, h.same, ?_⟩)
    exact List.forall_mem_cons.2 ⟨hget ▸ Option.some_ne_none r, h.seen⟩
  | none =>
    dsimp only
    rw [hcalc x]
    cases hr : calcRes x with
    | err e => exact .inl ⟨e, rfl, rfl, rfl⟩
    | panicked m => exact .inr (.inl ⟨m, rfl, rfl, rfl⟩)
    | ok r => exact .inr (.inr ⟨r, _, _, rfl, rfl, rfl, h.insert hf hr⟩)

structure Results (calcRes : M → Outcome ε (Option A)) (p : Bracket M) (r : Bracket (Option A)) :
    Prop where
  a : calcRes p.a = .ok r.a
  b : calcRes p.b = .ok r.b
  c : calcRes p.c = .ok r.c

def Bracket.map {α β : Type} (f : α → β) (p : Bracket α) : Bracket β := ⟨f p.a, f p.b, f p.c⟩

theorem evaluateThree_agree (hf : f.Injective) (hcalc : ∀ x, calcRes' (f x) = calcRes x)
    (gain : A → M) (gain' : A → N) (p : Bracket M) :
    (∃ x ∈ [p.a, p.b, p.c], (∀ r, calcRes x ≠ .ok r) ∧ ∃ inputs,
      (∃ e, evaluateThree calcRes gain .empty p = (inputs, .err e) ∧
        evaluateThree calcRes' gain' .empty (p.map f) = (inputs.map f, .err e)) ∨
      ∃ m, evaluateThree calcRes gain .empty p = (inputs, .panicked m) ∧
        evaluateThree calcRes' gain' .empty (p.map f) = (inputs.map f, .panicked m)) ∨
    ∃ r cache cache', Results calcRes p r ∧ SameCache calcRes f [p.c, p.b, p.a] cache cache' ∧
      evaluateThree calcRes gain .empty p = ([p.a, p.b, p.c],
        .ok ((r.a.elim 0 gain, r.b.elim 0 gain, r.c.elim 0 gain), cache)) ∧
      evaluateThree calcRes' gain' .empty (p.map f) = ([p.a, p.b, p.c].map f,
        .ok ((r.a.elim 0 gain', r.b.elim 0 gain', r.c.elim 0 gain'), cache')) := by
  simp only [evaluateThree, Bracket.map]
  obtain ⟨e, he, h, h'⟩ | ⟨m, hm, h, h'⟩ | ⟨ra, cache₁, cache₁', ha, h, h', hsame⟩ :=
    sameCache_empty.evaluate hf hcalc gain gain' p.a
  · rw [h, h']
    exact .inl ⟨p.a, by simp, by simp [he], [p.a], .inl ⟨e, rfl, rfl⟩⟩
  · rw [h, h']
    exact .inl ⟨p.a, by simp, by simp [hm], [p.a], .inr ⟨m, rfl, rfl⟩⟩
  rw [h, h']
  dsimp only
  obtain ⟨e, he, h, h'⟩ | ⟨m, hm, h, h'⟩ | ⟨rb, cache₂, cache₂', hb, h, h', hsame⟩ :=
    hsame.evaluate hf hcalc gain gain' p.b
  · rw [h, h']
    exact .inl ⟨p.b, by simp, by simp [he], [p.a, p.b], .inl ⟨e, rfl, rfl⟩⟩
  · rw [h, h']
    exact .inl ⟨p.b, by simp, by simp [hm], [p.a, p.b], .inr ⟨m, rfl, rfl⟩⟩
  rw [h, h']
  dsimp only
  obtain ⟨e, he, h, h'⟩ | ⟨m, hm, h, h'⟩ | ⟨rc, cache₃, cache₃', hc, h, h', hsame⟩ :=
    hsame.evaluate hf hcalc gain gain' p.c
  · rw [h, h']
    exact .inl ⟨p.c, by simp, by simp [he], [p.a, p.b, p.c], .inl ⟨e, rfl, rfl⟩⟩
  · rw [h, h']
    exact .inl ⟨p.c, by simp, by simp [hm], [p.a, p.b, p.c], .inr ⟨m, rfl, rfl⟩⟩
  rw [h, h']
  exact .inr ⟨⟨ra, rb, rc⟩, cache₃, cache₃', ⟨ha, hb, hc⟩, hsame, rfl, rfl⟩

variable [Add M] [Sub M] [Mul M] [Div M] [Yocto M]

theorem searchLog_fails {gain : A → M} {min max : M} {p : Bracket M} (hlt : p.a < p.c)
    {inputs : List M} {r : Outcome ε (Option A)}
    (h : (∃ e, r = .err e ∧ evaluateThree calcRes gain cache p = (inputs, .err e)) ∨
      ∃ m, r = .panicked m ∧ evaluateThree calcRes gain cache p = (inputs, .panicked m))
    (fuel : ℕ) :
    searchLog calcRes gain min max (fuel + 1) cache p = some (inputs, r) := by
  rw [searchLog, if_pos hlt]
  obtain ⟨e, rfl, h⟩ | ⟨m, rfl, h⟩ := h <;> rw [h]

theorem searchLog_succ {gain : A → M} {min max : M} {p : Bracket M} {fuel : ℕ}
    {run : List M × Outcome ε (Option A)}
    (h : searchLog calcRes gain min max fuel cache p = some run) :
    searchLog calcRes gain min max (fuel + 1) cache p = some run := by
  induction fuel generalizing cache p run with
  | zero => cases h
  | succ fuel ih =>
    rw [searchLog] at h ⊢
    split_ifs at h ⊢ with hlt
    · split at h
      · exact h
      · exact h
      · split at h
        · exact h
        · obtain ⟨rest, hrest, hrun⟩ := Option.map_eq_some_iff.1 h
          exact Option.map_eq_some_iff.2 ⟨rest, ih hrest, hrun⟩
    · exact h

theorem searchLog_ne_nil {gain : A → M} {min max : M} {p : Bracket M} (hlt : p.a < p.c) {fuel : ℕ}
    {log : List M} {r : Outcome ε (Option A)}
    (h : searchLog calcRes gain min max fuel cache p = some (log, r)) : log ≠ [] := by
  have hinputs : (evaluateThree calcRes gain cache p).1 ≠ [] := by
    rw [evaluateThree]
    split
    · exact List.cons_ne_nil _ _
    · exact List.cons_ne_nil _ _
    · split <;> exact List.cons_ne_nil _ _
  cases fuel with
  | zero => cases h
  | succ fuel =>
    rw [searchLog, if_pos hlt] at h
    split at h
    · next heval =>
      cases h
      rwa [heval] at hinputs
    · next heval =>
      cases h
      rwa [heval] at hinputs
    · next heval =>
      rw [heval] at hinputs
      split at h
      · cases h
        exact hinputs
      · obtain ⟨rest, -, hrest⟩ := Option.map_eq_some_iff.1 h
        cases hrest
        simp [hinputs]

end Agree

inductive Place
  | left
  | centre
  | right
deriving DecidableEq

def largest {G : Type} [LinearOrder G] [Zero G] (a b c : G) : Option Place :=
  if a = b ∧ b = c ∧ a = 0 then none
  else if b ≤ a ∧ c ≤ a then some .left
  else if a ≤ b ∧ c ≤ b then some .centre
  else some .right

namespace Bracket

def get {α : Type} (p : Bracket α) : Place → α
  | .left => p.a
  | .centre => p.b
  | .right => p.c

theorem get_mem {α : Type} (p : Bracket α) (i : Place) : p.get i ∈ [p.c, p.b, p.a] := by
  cases i <;> simp [get]

theorem get_map {α β : Type} (f : α → β) (p : Bracket α) (i : Place) :
    (p.map f).get i = f (p.get i) := by
  cases i <;> rfl

def reach (p : Bracket ℕ) : Place → ℕ
  | .left => p.b - p.a
  | .centre => Max.max (p.b - p.a) (p.c - p.b)
  | .right => p.c - p.b

/-- The first round of a search on natural numbers ends it just if there is no input between the
best one and its neighbours. -/
theorem next_of_largest {p : Bracket ℕ} (hp : p.InRange p.a p.c) {a b c : ℕ} {i : Place}
    (h : largest a b c = some i) :
    ∃ q, p.next p.a p.c a b c = some q ∧ (q.c ≤ q.a ↔ p.reach i ≤ 1) ∧
      (q.c ≤ q.a → q.a = p.get i) := by
  obtain ⟨-, hleft, hright, -⟩ := hp
  rw [largest] at h
  simp only [next, two_nat, lt_irrefl, if_false]
  split_ifs at h ⊢ <;> cases h <;>
    exact ⟨_, rfl, by simp only [reach]; omega, by dsimp only [Bracket.get]; omega⟩

theorem next_of_largest_none (min max : ℕ) (p : Bracket ℕ) {a b c : ℕ} (h : largest a b c = none) :
    p.next min max a b c = none := by
  rw [largest] at h
  rw [next]
  split_ifs at h ⊢
  rfl

end Bracket

theorem Results.get {A ε M : Type} {calcRes : M → Outcome ε (Option A)} {p : Bracket M}
    {r : Bracket (Option A)} (h : Results calcRes p r) (i : Place) :
    calcRes (p.get i) = .ok (r.get i) := by
  cases i with
  | left => exact h.a
  | centre => exact h.b
  | right => exact h.c

end Zaciraci.Path

namespace Zaciraci.Arbitrage

open Lib Zaciraci.Path Zaciraci.Path.Yocto

namespace MicroNear

/-- The divisor 2 is an amount in yoctoNEAR, and less than one micro-NEAR. -/
theorem two_eq_zero : (ofU128 2 : MicroNear) = 0 := rfl

theorem div_zero (x : MicroNear) : x / 0 = 0 := rfl

theorem add_zero (x : MicroNear) : x + 0 = x := congrArg mk (Fin.add_zero x.micro)

theorem sub_zero (x : MicroNear) : x - 0 = x := by
  change (if x.micro < 0 then 0 else mk (x.micro - 0)) = x
  rw [if_neg (Fin.not_lt_zero _)]
  exact congrArg mk (Fin.ext (Fin.sub_val_of_le (Fin.zero_le _)))

theorem zero_mul (x : MicroNear) : 0 * x = 0 := congrArg mk (Fin.zero_mul x.micro)

theorem next_eq (p : Bracket MicroNear) (a b c : MicroNear) :
    p.next p.a p.c a b c = (largest a b c).map fun i ↦ ⟨p.get i, p.get i, p.get i⟩ := by
  simp only [Bracket.next, largest, two_eq_zero, div_zero, add_zero, sub_zero, zero_mul, lt_irrefl,
    if_false]
  split_ifs <;> rfl

def val (x : MicroNear) : ℕ := x.micro

theorem of_val (x : MicroNear) : of x.val = x := congrArg mk (Fin.ofNat_val_eq_self x.micro)

theorem val_injective : val.Injective := fun x y h ↦ by rw [← of_val x, h, of_val]

end MicroNear

section Units

variable {A ε : Type}

def best {G : Type} [LinearOrder G] [Zero G] (gain : A → G) (r : Bracket (Option A)) :
    Option Place :=
  largest (r.a.elim 0 gain) (r.b.elim 0 gain) (r.c.elim 0 gain)

/-- The search has no part in which the unit matters: there is only one input, one of the first
three fails, or the best of these by the exact gains is next to its neighbours and is as good a
result as the best by the gains in micro-NEAR. -/
def UnitFree (calcRes : MicroNear → Outcome ε (Option A)) (getGain : A → U128)
    (p : Bracket MicroNear) : Prop :=
  p.a = p.c ∨ (∃ x ∈ [p.a, p.b, p.c], ∀ r, calcRes x ≠ .ok r) ∨
    ∃ r, Results calcRes p r ∧
      (∀ i, best (fun a ↦ (getGain a).toNat) r = some i → (p.map MicroNear.val).reach i ≤ 1) ∧
      (best (fun a ↦ (ofU128 (getGain a) : MicroNear)) r).bind r.get =
        (best (fun a ↦ (getGain a).toNat) r).bind r.get

variable {calcRes : MicroNear → Outcome ε (Option A)} {p : Bracket MicroNear}
  {r : Bracket (Option A)} {cache : SortedMap MicroNear (Option A)}
  {cache' : SortedMap ℕ (Option A)}

theorem searchLog_micro (gain : A → MicroNear) (hlt : p.a < p.c) (hr : Results calcRes p r)
    (hsame : SameCache calcRes MicroNear.val [p.c, p.b, p.a] cache cache')
    (heval : evaluateThree calcRes gain .empty p = ([p.a, p.b, p.c],
      .ok ((r.a.elim 0 gain, r.b.elim 0 gain, r.c.elim 0 gain), cache))) (fuel : ℕ) :
    searchLog calcRes gain p.a p.c (fuel + 2) .empty p =
      some ([p.a, p.b, p.c], .ok ((best gain r).bind r.get)) := by
  rw [searchLog, if_pos hlt, heval]
  dsimp only
  rw [MicroNear.next_eq, ← best]
  cases best gain r with
  | none => rfl
  | some i =>
    dsimp only [Option.map_some, Option.bind_some]
    rw [searchLog, if_neg (lt_irrefl _), (hsame.get_of_mem (p.get_mem i) (hr.get i)).1]
    rfl

theorem unitFree_iff {getGain : A → U128} (hlt : p.a < p.c) (hr : Results calcRes p r) :
    UnitFree calcRes getGain p ↔
      (∀ i, best (fun a ↦ (getGain a).toNat) r = some i → (p.map MicroNear.val).reach i ≤ 1) ∧
      (best (fun a ↦ (ofU128 (getGain a) : MicroNear)) r).bind r.get =
        (best (fun a ↦ (getGain a).toNat) r).bind r.get := by
  constructor
  · rintro (heq | ⟨x, hx, hfail⟩ | ⟨r', hr', h⟩)
    · exact absurd heq hlt.ne
    · simp only [List.mem_cons, List.not_mem_nil, or_false] at hx
      obtain rfl | rfl | rfl := hx
      · exact absurd hr.a (hfail _)
      · exact absurd hr.b (hfail _)
      · exact absurd hr.c (hfail _)
    · obtain ⟨a, b, c⟩ := r
      obtain ⟨a', b', c'⟩ := r'
      obtain rfl : a = a' := Outcome.ok.inj (hr.a.symm.trans hr'.a)
      obtain rfl : b = b' := Outcome.ok.inj (hr.b.symm.trans hr'.b)
      obtain rfl : c = c' := Outcome.ok.inj (hr.c.symm.trans hr'.c)
      exact h
  · intro h
    exact .inr (.inr ⟨r, hr, h⟩)

variable {calcNat : ℕ → Outcome ε (Option A)} {gain : A → ℕ}

theorem searchLog_nat_none (min max : ℕ) {p : Bracket ℕ} (hlt : p.a < p.c)
    (heval : evaluateThree calcNat gain .empty p = ([p.a, p.b, p.c],
      .ok ((r.a.elim 0 gain, r.b.elim 0 gain, r.c.elim 0 gain), cache')))
    (hbest : best gain r = none) (fuel : ℕ) :
    searchLog calcNat gain min max (fuel + 1) .empty p = some ([p.a, p.b, p.c], .ok none) := by
  rw [searchLog, if_pos hlt, heval]
  dsimp only
  rw [Bracket.next_of_largest_none min max p hbest]

theorem searchLog_nat_some {p : Bracket ℕ} (hp : p.InRange p.a p.c) (hlt : p.a < p.c)
    (heval : evaluateThree calcNat gain .empty p = ([p.a, p.b, p.c],
      .ok ((r.a.elim 0 gain, r.b.elim 0 gain, r.c.elim 0 gain), cache'))) {i : Place}
    (hbest : best gain r = some i) (hget : cache'.get (p.get i) = some (r.get i)) :
    (p.reach i ≤ 1 → ∀ fuel, searchLog calcNat gain p.a p.c (fuel + 2) .empty p =
      some ([p.a, p.b, p.c], .ok (r.get i))) ∧
    (1 < p.reach i → ∀ fuel log result,
      searchLog calcNat gain p.a p.c fuel .empty p = some (log, result) → 3 < log.length) := by
  obtain ⟨q, hnext, hmet, hat⟩ := Bracket.next_of_largest hp hbest
  have hround : ∀ fuel, searchLog calcNat gain p.a p.c (fuel + 1) .empty p =
      (searchLog calcNat gain p.a p.c fuel cache' q).map fun rest ↦
        ([p.a, p.b, p.c] ++ rest.1, rest.2) := by
    intro fuel
    rw [searchLog, if_pos hlt, heval]
    dsimp only
    rw [hnext]
  constructor
  · intro hreach fuel
    have hle := hmet.2 hreach
    rw [hround, searchLog, if_neg hle.not_gt, hat hle, hget]
    rfl
  · intro hreach fuel log result hrun
    have hgt : q.a < q.c := not_le.1 (mt hmet.1 hreach.not_ge)
    cases fuel with
    | zero => cases hrun
    | succ fuel =>
      obtain ⟨rest, hrest, hlog⟩ := Option.map_eq_some_iff.1 ((hround fuel).symm.trans hrun)
      have hne := List.length_pos_iff.2 (searchLog_ne_nil hgt hrest)
      cases hlog
      rw [List.length_append]
      simp only [List.length_cons, List.length_nil]
      omega

/-- The search in micro-NEAR evaluates the inputs of the search on their counts and has its result,
just if neither the divisor nor the rounded gains can matter. -/
theorem searchBestPath_unit_iff (calcRes : MicroNear → Outcome ε (Option A)) (getGain : A → U128)
    (min average max : MicroNear) (hmin : min ≤ average) (hmax : average ≤ max) :
    (∃ fuel log result,
      searchLog calcRes (fun a ↦ ofU128 (getGain a)) min max fuel .empty ⟨min, average, max⟩ =
        some (log, result) ∧
      searchLog (fun n ↦ calcRes (.of n)) (fun a ↦ (getGain a).toNat) min.val max.val fuel .empty
        ⟨min.val, average.val, max.val⟩ = some (log.map MicroNear.val, result)) ↔
      UnitFree calcRes getGain ⟨min, average, max⟩ := by
  let p : Bracket MicroNear := ⟨min, average, max⟩
  let calcNat : ℕ → Outcome ε (Option A) := fun n ↦ calcRes (.of n)
  have hcalc : ∀ x : MicroNear, calcNat x.val = calcRes x := fun x ↦
    congrArg calcRes (MicroNear.of_val x)
  have hp : (p.map MicroNear.val).InRange min.val max.val := ⟨le_rfl, hmin, hmax, le_rfl⟩
  rcases (hmin.trans hmax).eq_or_lt with heq | hlt
  · refine iff_of_true ⟨1, [], .ok none, ?_, ?_⟩ (.inl heq)
    · rw [searchLog, if_neg heq.not_lt]
      rfl
    · rw [searchLog, if_neg (heq ▸ lt_irrefl _)]
      rfl
  have hlt' : min.val < max.val := hlt
  obtain ⟨x, hx, hfail, inputs, hinputs⟩ | ⟨r, cache, cache', hr, hsame, heval, heval'⟩ :=
    evaluateThree_agree MicroNear.val_injective hcalc (fun a ↦ ofU128 (getGain a))
      (fun a ↦ (getGain a).toNat) p
  · refine iff_of_true ?_ (.inr (.inl ⟨x, hx, hfail⟩))
    obtain ⟨e, h, h'⟩ | ⟨m, h, h'⟩ := hinputs
    · exact ⟨1, inputs, .err e, searchLog_fails hlt (.inl ⟨e, rfl, h⟩) 0,
        searchLog_fails hlt' (.inl ⟨e, rfl, h'⟩) 0⟩
    · exact ⟨1, inputs, .panicked m, searchLog_fails hlt (.inr ⟨m, rfl, h⟩) 0,
        searchLog_fails hlt' (.inr ⟨m, rfl, h'⟩) 0⟩
  rw [unitFree_iff hlt hr]
  have hmicro := searchLog_micro _ hlt hr hsame heval
  constructor
  · rintro ⟨fuel, log, result, hrun, hrun'⟩
    cases (searchLog_succ (searchLog_succ hrun)).symm.trans (hmicro fuel)
    cases hbest : best (fun a ↦ (getGain a).toNat) r with
    | none =>
      refine ⟨by simp, ?_⟩
      have hnat := searchLog_nat_none min.val max.val hlt' heval' hbest fuel
      exact (Outcome.ok.inj (Prod.mk.inj
        (Option.some.inj ((searchLog_succ hrun').symm.trans hnat))).2)
    | some i =>
      have hget := (hsame.get_of_mem (p.get_mem i) (hr.get i)).2
      obtain ⟨hend, hmore⟩ := searchLog_nat_some hp hlt' heval' hbest (p.get_map _ i ▸ hget)
      have hreach : (p.map MicroNear.val).reach i ≤ 1 := by
        by_contra hgt
        have hlength := hmore (not_le.1 hgt) fuel _ _ hrun'
        simp at hlength
      refine ⟨fun j hj ↦ Option.some.inj hj ▸ hreach, ?_⟩
      exact (Outcome.ok.inj (Prod.mk.inj (Option.some.inj
        ((searchLog_succ (searchLog_succ hrun')).symm.trans (hend hreach fuel)))).2)
  · rintro ⟨hreach, hsame'⟩
    refine ⟨2, _, _, hmicro 0, ?_⟩
    rw [hsame']
    cases hbest : best (fun a ↦ (getGain a).toNat) r with
    | none => exact searchLog_nat_none min.val max.val hlt' heval' hbest 1
    | some i =>
      have hget := (hsame.get_of_mem (p.get_mem i) (hr.get i)).2
      exact (searchLog_nat_some hp hlt' heval' hbest (p.get_map _ i ▸ hget)).1 (hreach i hbest) 0

theorem searchBestPath_unit_narrow :
    ∃ fuel log result,
      searchLog (fun x ↦ (.ok (some x) : Outcome Unit (Option MicroNear)))
        (fun a ↦ ofU128 a.toYocto) (.of 1) (.of 3) fuel .empty ⟨.of 1, .of 2, .of 3⟩ =
          some (log, result) ∧
      searchLog (fun n ↦ (.ok (some (.of n)) : Outcome Unit (Option MicroNear)))
        (fun a ↦ a.toYocto.toNat) 1 3 fuel .empty ⟨1, 2, 3⟩ =
          some (log.map MicroNear.val, result) := by
  let r : Bracket (Option MicroNear) := ⟨some (.of 1), some (.of 2), some (.of 3)⟩
  have hbest : best (fun a : MicroNear ↦ a.toYocto.toNat) r = some .right := by decide +kernel
  have hmicro : best (fun a : MicroNear ↦ (ofU128 a.toYocto : MicroNear)) r = some .right := by
    decide +kernel
  refine (searchBestPath_unit_iff (fun x ↦ .ok (some x)) MicroNear.toYocto (.of 1) (.of 2) (.of 3)
    (by decide +kernel) (by decide +kernel)).2 (.inr (.inr ⟨r, ⟨rfl, rfl, rfl⟩, ?_, ?_⟩))
  · intro i hi
    cases hbest.symm.trans hi
    decide +kernel
  · rw [hbest, hmicro]

/-- With the largest gain at 6 micro-NEAR, the search between 1 and 8 that starts from 4 halves its
way to 6 on counts, and in micro-NEAR ends at once with 4. -/
theorem searchBestPath_stops_early :
    let gain : MicroNear → U128 := fun x ↦ BitVec.ofNat 128 (Min.min x.val (12 - x.val) * 10 ^ 18)
    searchLog (fun x ↦ (.ok (some x) : Outcome Unit (Option MicroNear))) (fun a ↦ ofU128 (gain a))
        (.of 1) (.of 8) 9 .empty ⟨.of 1, .of 4, .of 8⟩ =
          some ([.of 1, .of 4, .of 8], .ok (some (.of 4))) ∧
      searchLog (fun n ↦ (.ok (some (.of n)) : Outcome Unit (Option MicroNear)))
        (fun a ↦ (gain a).toNat) 1 8 9 .empty ⟨1, 4, 8⟩ =
          some ([1, 4, 8, 3, 4, 6, 5, 6, 7], .ok (some (.of 6))) := by
  refine ⟨?_, ?_⟩ <;> decide +kernel

end Units

end Zaciraci.Arbitrage
