import Mathlib.Data.Nat.Log
import Zaciraci.Path.Preview

namespace Zaciraci.Path

open Zaciraci.Lib Zaciraci.Dex Yocto

section Log

variable {A ε M : Type} [LinearOrder M] [Zero M]

/-- The inputs of one round in the order in which they are evaluated, up to the first failure, and
what they are worth. -/
def evaluateThree (calcRes : M → Outcome ε (Option A)) (gain : A → M)
    (cache : SortedMap M (Option A)) (p : Bracket M) :
    List M × Outcome ε ((M × M × M) × SortedMap M (Option A)) :=
  match evaluate calcRes gain cache p.a with
  | .err e => ([p.a], .err e)
  | .panicked m => ([p.a], .panicked m)
  | .ok (a, cache) =>
    match evaluate calcRes gain cache p.b with
    | .err e => ([p.a, p.b], .err e)
    | .panicked m => ([p.a, p.b], .panicked m)
    | .ok (b, cache) => ([p.a, p.b, p.c], do
        let (c, cache) ← evaluate calcRes gain cache p.c
        pure ((a, b, c), cache))

variable [Add M] [Sub M] [Mul M] [Div M] [Yocto M]

/-- The loop of `search_best_path` together with the inputs that it evaluates. -/
def searchLog (calcRes : M → Outcome ε (Option A)) (gain : A → M) (min max : M) :
    ℕ → SortedMap M (Option A) → Bracket M → Option (List M × Outcome ε (Option A))
  | 0, _, _ => none
  | fuel + 1, cache, p =>
    if p.a < p.c then
      match evaluateThree calcRes gain cache p with
      | (inputs, .err e) => some (inputs, .err e)
      | (inputs, .panicked m) => some (inputs, .panicked m)
      | (inputs, .ok ((a, b, c), cache)) =>
        match p.next min max a b c with
        | none => some (inputs, .ok none)
        | some p => (searchLog calcRes gain min max fuel cache p).map fun rest ↦
            (inputs ++ rest.1, rest.2)
    else some ([], .ok ((cache.get p.a).getD none))

theorem searchLog_result (calcRes : M → Outcome ε (Option A)) (gain : A → M) (min max : M)
    (fuel : ℕ) (cache : SortedMap M (Option A)) (p : Bracket M) :
    (searchLog calcRes gain min max fuel cache p).map Prod.snd =
      searchFrom calcRes gain min max fuel cache p := by
  induction fuel generalizing cache p with
  | zero => rfl
  | succ fuel ih =>
    rw [searchLog, searchFrom]
    split_ifs
    · dsimp only
      rw [evaluateThree]
      cases evaluate calcRes gain cache p.a with
      | err e => rfl
      | panicked m => rfl
      | ok first =>
        dsimp only [Outcome.ok_bind]
        cases evaluate calcRes gain first.2 p.b with
        | err e => rfl
        | panicked m => rfl
        | ok second =>
          dsimp only [Outcome.ok_bind]
          cases evaluate calcRes gain second.2 p.c with
          | err e => rfl
          | panicked m => rfl
          | ok third =>
            dsimp only [Outcome.ok_bind, Outcome.pure_eq_ok]
            cases p.next min max first.1 second.1 third.1 with
            | none => rfl
            | some q =>
              dsimp only
              rw [← ih, Option.map_map]
              rfl
    · rfl

end Log

section Total

variable {A ε M : Type} [LinearOrder M] {calcRes : M → Outcome ε (Option A)} {res : M → Option A}
  {seen : List M} {cache : SortedMap M (Option A)}

def Holds (res : M → Option A) (seen : List M) (cache : SortedMap M (Option A)) : Prop :=
  ∀ x, cache.get x = if x ∈ seen then some (res x) else none

theorem holds_empty : Holds res [] (.empty : SortedMap M (Option A)) := fun _ ↦ rfl

variable [Zero M]

def gainAt (res : M → Option A) (gain : A → M) (x : M) : M := (res x).elim 0 gain

theorem evaluate_total (hres : ∀ x, calcRes x = .ok (res x)) (gain : A → M)
    (h : Holds res seen cache) (x : M) :
    ∃ cache', evaluate calcRes gain cache x = .ok (gainAt res gain x, cache') ∧
      Holds res (seen ++ [x]) cache' := by
  rw [evaluate, h x]
  by_cases hx : x ∈ seen
  · rw [if_pos hx]
    refine ⟨cache, rfl, fun y ↦ ?_⟩
    rw [h y]
    refine if_congr ?_ rfl rfl
    rw [List.mem_append, List.mem_singleton]
    exact ⟨.inl, fun hy ↦ hy.elim id fun hyx ↦ hyx ▸ hx⟩
  · rw [if_neg hx]
    dsimp only
    rw [hres x]
    refine ⟨cache.insert x (res x), rfl, fun y ↦ ?_⟩
    rw [SortedMap.get_insert, h y]
    by_cases hyx : y = x
    · rw [if_pos hyx, if_pos (by simp [hyx]), hyx]
    · rw [if_neg hyx]
      exact if_congr (by simp [hyx]) rfl rfl

theorem evaluateThree_total (hres : ∀ x, calcRes x = .ok (res x)) (gain : A → M)
    (h : Holds res seen cache) (p : Bracket M) :
    ∃ cache', evaluateThree calcRes gain cache p = ([p.a, p.b, p.c],
        .ok ((gainAt res gain p.a, gainAt res gain p.b, gainAt res gain p.c), cache')) ∧
      Holds res (seen ++ [p.a, p.b, p.c]) cache' := by
  obtain ⟨cache₁, hfirst, h₁⟩ := evaluate_total hres gain h p.a
  obtain ⟨cache₂, hsecond, h₂⟩ := evaluate_total hres gain h₁ p.b
  obtain ⟨cache₃, hthird, h₃⟩ := evaluate_total hres gain h₂ p.c
  refine ⟨cache₃, ?_, ?_⟩
  · rw [evaluateThree, hfirst]
    dsimp only
    rw [hsecond]
    dsimp only
    rw [hthird]
    rfl
  · simpa only [List.append_assoc, List.cons_append, List.nil_append] using h₃

variable [Add M] [Sub M] [Mul M] [Div M] [Yocto M] {gain : A → M} {min max : M} {p q : Bracket M}

theorem searchLog_met (hcache : Holds res seen cache) (hmet : p.c ≤ p.a) (hmem : p.a ∈ seen)
    {fuel : ℕ} (hfuel : 0 < fuel) :
    searchLog calcRes gain min max fuel cache p = some ([], .ok (res p.a)) := by
  obtain ⟨fuel, rfl⟩ := Nat.exists_eq_succ_of_ne_zero hfuel.ne'
  rw [searchLog, if_neg hmet.not_gt, hcache p.a, if_pos hmem]
  rfl

theorem searchLog_stop (hres : ∀ x, calcRes x = .ok (res x)) (hcache : Holds res seen cache)
    (hlt : p.a < p.c) (hnext : p.next min max (gainAt res gain p.a) (gainAt res gain p.b)
      (gainAt res gain p.c) = none) {fuel : ℕ} (hfuel : 0 < fuel) :
    searchLog calcRes gain min max fuel cache p = some ([p.a, p.b, p.c], .ok none) := by
  obtain ⟨fuel, rfl⟩ := Nat.exists_eq_succ_of_ne_zero hfuel.ne'
  obtain ⟨cache', heval, -⟩ := evaluateThree_total hres gain hcache p
  rw [searchLog, if_pos hlt, heval]
  dsimp only
  rw [hnext]

theorem searchLog_round (hres : ∀ x, calcRes x = .ok (res x)) (hcache : Holds res seen cache)
    (hlt : p.a < p.c) (hnext : p.next min max (gainAt res gain p.a) (gainAt res gain p.b)
      (gainAt res gain p.c) = some q) :
    ∃ cache', Holds res (seen ++ [p.a, p.b, p.c]) cache' ∧ ∀ fuel,
      searchLog calcRes gain min max (fuel + 1) cache p =
        (searchLog calcRes gain min max fuel cache' q).map fun rest ↦
          ([p.a, p.b, p.c] ++ rest.1, rest.2) := by
  obtain ⟨cache', heval, hcache'⟩ := evaluateThree_total hres gain hcache p
  refine ⟨cache', hcache', fun fuel ↦ ?_⟩
  rw [searchLog, if_pos hlt, heval]
  dsimp only
  rw [hnext]

/-- The three inputs move from `p` to `q` in one round of a search with the gains `v`. -/
def Bracket.Round (v : M → M) (min max : M) (p q : Bracket M) : Prop :=
  p.a < p.c ∧ p.next min max (v p.a) (v p.b) (v p.c) = some q

end Total

/-- Counts of whole units, with subtraction truncated at zero. -/
instance : Yocto ℕ := ⟨BitVec.ofNat 128, BitVec.toNat⟩

namespace Bracket

variable {v : ℕ → ℕ} {min max best : ℕ} {p q : Bracket ℕ}

/-- The ways in which a round moves the inputs. `best` is the one with the largest gain. -/
inductive Move (v : ℕ → ℕ) (min max : ℕ) : Bracket ℕ → ℕ → Bracket ℕ → Prop
  | left {a b c : ℕ} : v b ≤ v a → v c ≤ v a → min < a → Move v min max ⟨a, b, c⟩ a
      ⟨Max.max min (a - (b - a) / 2), a, a + (b - a) / 2⟩
  | leftEnd {a b c : ℕ} : v b ≤ v a → v c ≤ v a → a ≤ min → Move v min max ⟨a, b, c⟩ a
      ⟨a, a + (b - a) / 2, a + 2 * ((b - a) / 2)⟩
  | centre {a b c : ℕ} : v a < v b → v c ≤ v b → Move v min max ⟨a, b, c⟩ b
      ⟨b - (b - a) / 2, b, b + (c - b) / 2⟩
  | right {a b c : ℕ} : v a < v c → v b < v c → c < max → Move v min max ⟨a, b, c⟩ c
      ⟨c - (c - b) / 2, c, Min.min max (c + (c - b) / 2)⟩
  | rightEnd {a b c : ℕ} : v a < v c → v b < v c → max ≤ c → Move v min max ⟨a, b, c⟩ c
      ⟨c - 2 * ((c - b) / 2), c - (c - b) / 2, c⟩

theorem two_nat : (ofU128 2 : ℕ) = 2 := rfl

theorem next_cases (v : ℕ → ℕ) (min max : ℕ) (p : Bracket ℕ) :
    (p.next min max (v p.a) (v p.b) (v p.c) = none ∧ ∀ x ∈ [p.a, p.b, p.c], v x = 0) ∨
      ∃ best q, p.next min max (v p.a) (v p.b) (v p.c) = some q ∧ Move v min max p best q ∧
        0 < v best := by
  obtain ⟨a, b, c⟩ := p
  simp only [next, two_nat]
  split_ifs with hzero ha hmin hb hmax
  · exact .inl ⟨rfl, by simp; omega⟩
  · exact .inr ⟨a, _, rfl, .left ha.1 ha.2 hmin, by omega⟩
  · exact .inr ⟨a, _, rfl, .leftEnd ha.1 ha.2 (by omega), by omega⟩
  · exact .inr ⟨b, _, rfl, .centre (by omega) hb.2, by omega⟩
  · exact .inr ⟨c, _, rfl, .right (by omega) (by omega) hmax, by omega⟩
  · exact .inr ⟨c, _, rfl, .rightEnd (by omega) (by omega) (by omega), by omega⟩

namespace Move

theorem gain_le (h : Move v min max p best q) : ∀ x ∈ [p.a, p.b, p.c], v x ≤ v best := by
  simp only [List.forall_mem_cons]
  cases h <;> dsimp only <;> refine ⟨?_, ?_, ?_, nofun⟩ <;> omega

theorem best_mem (h : Move v min max p best q) : best ∈ [p.a, p.b, p.c] := by
  cases h <;> simp

theorem best_kept (h : Move v min max p best q) : best ∈ [q.a, q.b, q.c] := by
  cases h <;> simp

theorem best_of_met (h : Move v min max p best q) (hmet : q.c ≤ q.a) : q.a = best := by
  cases h <;> dsimp only at hmet ⊢ <;> omega

end Move

def gap (p : Bracket ℕ) : ℕ := Max.max (p.b - p.a) (p.c - p.b)

theorem Move.gap_le (h : Move v min max p best q) : q.gap ≤ p.gap / 2 := by
  have hleft : (p.b - p.a) / 2 ≤ p.gap / 2 := Nat.div_le_div_right (le_max_left _ _)
  have hright : (p.c - p.b) / 2 ≤ p.gap / 2 := Nat.div_le_div_right (le_max_right _ _)
  generalize p.gap / 2 = half at hleft hright ⊢
  rw [gap]
  cases h <;> dsimp only at hleft hright ⊢ <;> refine max_le ?_ ?_ <;> omega

structure InRange (min max : ℕ) (p : Bracket ℕ) : Prop where
  min_le : min ≤ p.a
  left : p.a ≤ p.b
  right : p.b ≤ p.c
  le_max : p.c ≤ max

theorem InRange.move (hp : p.InRange min max) (h : Move v min max p best q) :
    q.InRange min max := by
  obtain ⟨hmin, hleft, hright, hmax⟩ := hp
  cases h <;> dsimp only at hmin hleft hright hmax <;> constructor <;> dsimp only <;> omega

theorem InRange.forall_mem (hp : p.InRange min max) : ∀ x ∈ [p.a, p.b, p.c], min ≤ x ∧ x ≤ max := by
  obtain ⟨hmin, hleft, hright, hmax⟩ := hp
  intro x hx
  simp only [List.mem_cons, List.not_mem_nil, or_false] at hx
  omega

end Bracket

section Best

variable {A ε : Type} {calcRes : ℕ → Outcome ε (Option A)} {res : ℕ → Option A} {gain : A → ℕ}
  {min max : ℕ} {seen : List ℕ} {cache : SortedMap ℕ (Option A)} {p q : Bracket ℕ}

/-- From three inputs that hold the best one so far, the search goes on to the best of all. Each
round halves the larger gap. -/
theorem searchLog_ends (min max : ℕ) (hres : ∀ x, calcRes x = .ok (res x)) {n : ℕ}
    (hcache : Holds res seen cache) (hgap : p.gap < 2 ^ n) {best : ℕ} (hseen : best ∈ seen)
    (hbest : ∀ y ∈ seen, gainAt res gain y ≤ gainAt res gain best)
    (hpos : 0 < gainAt res gain best) (hmem : best ∈ [p.a, p.b, p.c])
    (hmet : p.c ≤ p.a → p.a = best) :
    ∃ rounds ≤ n, ∃ inputs x, inputs.length = 3 * rounds ∧ x ∈ seen ++ inputs ∧
      (∀ y ∈ seen ++ inputs, gainAt res gain y ≤ gainAt res gain x) ∧ 0 < gainAt res gain x ∧
      (p.InRange min max → ∀ y ∈ inputs, min ≤ y ∧ y ≤ max) ∧
      ∀ fuel > rounds,
        searchLog calcRes gain min max fuel cache p = some (inputs, .ok (res x)) := by
  induction n generalizing seen cache p best with
  | zero =>
    have hnone : p.c ≤ p.a := by
      rw [Bracket.gap] at hgap
      omega
    obtain rfl := hmet hnone
    refine ⟨0, le_rfl, [], p.a, rfl, by simpa using hseen, by simpa using hbest, hpos, by simp, ?_⟩
    intro fuel hfuel
    exact searchLog_met hcache hnone hseen hfuel
  | succ n ih =>
    rcases Nat.lt_or_ge p.a p.c with hlt | hnone
    · obtain ⟨-, hnone⟩ | ⟨best', q, hnext, hmove, hpos'⟩ :=
        Bracket.next_cases (gainAt res gain) min max p
      · exact absurd (hnone best hmem) hpos.ne'
      obtain ⟨cache', hcache', hround⟩ := searchLog_round hres hcache hlt hnext
      have hle : ∀ y ∈ seen ++ [p.a, p.b, p.c], gainAt res gain y ≤ gainAt res gain best' :=
        List.forall_mem_append.2
          ⟨fun y hy ↦ (hbest y hy).trans (hmove.gain_le best hmem), hmove.gain_le⟩
      have hhalf : q.gap < 2 ^ n := by
        have hle := hmove.gap_le
        rw [Nat.pow_succ] at hgap
        omega
      obtain ⟨rounds, hrounds, inputs, x, hlength, hx, hmax, hposx, hrange, hrun⟩ :=
        ih hcache' hhalf (List.mem_append_right seen hmove.best_mem) hle hpos' hmove.best_kept
          hmove.best_of_met
      rw [List.append_assoc] at hx hmax
      refine ⟨rounds + 1, by omega, [p.a, p.b, p.c] ++ inputs, x, ?_, hx, hmax, hposx, ?_, ?_⟩
      · rw [List.length_append, hlength]
        simp only [List.length_cons, List.length_nil]
        omega
      · intro hp y hy
        rcases List.mem_append.1 hy with hy | hy
        · exact hp.forall_mem y hy
        · exact hrange (hp.move hmove) y hy
      · intro fuel hfuel
        obtain ⟨fuel, rfl⟩ := Nat.exists_eq_succ_of_ne_zero (by omega : fuel ≠ 0)
        rw [hround fuel, hrun fuel (by omega)]
        rfl
    · obtain rfl := hmet hnone
      refine ⟨0, Nat.zero_le _, [], p.a, rfl, by simpa using hseen, by simpa using hbest, hpos,
        by simp, ?_⟩
      intro fuel hfuel
      exact searchLog_met hcache hnone hseen hfuel

end Best

/-- The search over natural numbers ends within logarithmically many rounds with the result at the
best of the inputs that it evaluated, and with none just if there is no gain at the first three. -/
theorem searchBestPath_best {A ε : Type} (min average max : ℕ) (hlt : min < max)
    (calcRes : ℕ → Outcome ε (Option A)) (res : ℕ → Option A) (hres : ∀ x, calcRes x = .ok (res x))
    (getGain : A → U128) :
    let gain := fun x ↦ gainAt res (fun a ↦ (getGain a).toNat) x
    let spread := Max.max min (Max.max average max) - Min.min min (Min.min average max)
    ∃ rounds ≤ Nat.log 2 spread + 1, ∃ inputs result, inputs.length = 3 * rounds ∧
      (∀ fuel > rounds,
        searchLog calcRes (fun a ↦ ofU128 (getGain a)) min max fuel .empty ⟨min, average, max⟩ =
          some (inputs, .ok result) ∧
        searchBestPath fuel min average max calcRes getGain = some (.ok result)) ∧
      (result = none ↔ gain min = 0 ∧ gain average = 0 ∧ gain max = 0) ∧
      (∀ found, result = some found →
        ∃ x ∈ inputs, res x = some found ∧ ∀ y ∈ inputs, gain y ≤ gain x) ∧
      (min ≤ average → average ≤ max → ∀ x ∈ inputs, min ≤ x ∧ x ≤ max) := by
  intro gain spread
  let p : Bracket ℕ := ⟨min, average, max⟩
  have hrun : ∀ {fuel inputs result},
      searchLog calcRes (fun a ↦ ofU128 (getGain a)) min max fuel .empty p =
        some (inputs, .ok result) →
      searchBestPath fuel min average max calcRes getGain = some (.ok result) := by
    intro fuel inputs result h
    rw [searchBestPath, ← searchLog_result, h]
    rfl
  have hrange : min ≤ average → average ≤ max → p.InRange min max :=
    fun hle hle' ↦ ⟨le_rfl, hle, hle', le_rfl⟩
  obtain ⟨hnext, hzero⟩ | ⟨best, q, hnext, hmove, hpos⟩ := Bracket.next_cases gain min max p
  · refine ⟨1, by omega, [min, average, max], none, rfl, fun fuel hfuel ↦ ?_, by simpa using hzero,
      nofun, fun hle hle' ↦ (hrange hle hle').forall_mem⟩
    have hstop := searchLog_stop hres holds_empty hlt hnext (show 0 < fuel by omega)
    exact ⟨hstop, hrun hstop⟩
  · obtain ⟨cache, hcache, hround⟩ := searchLog_round hres holds_empty hlt hnext
    rw [List.nil_append] at hcache
    have hspread : spread < 2 ^ (Nat.log 2 spread + 1) := Nat.lt_pow_succ_log_self (by norm_num) _
    have hgap : q.gap < 2 ^ Nat.log 2 spread := by
      have hhalf := hmove.gap_le
      have hfirst : p.gap ≤ spread := by
        simp only [Bracket.gap, p, spread]
        omega
      rw [Nat.pow_succ] at hspread
      omega
    obtain ⟨rounds, hrounds, inputs, x, hlength, hx, hmax, hposx, hin, hends⟩ :=
      searchLog_ends min max hres hcache hgap hmove.best_mem hmove.gain_le hpos hmove.best_kept
        hmove.best_of_met
    refine ⟨rounds + 1, by omega, [min, average, max] ++ inputs, res x, ?_, ?_, ?_, ?_, ?_⟩
    · rw [List.length_append, hlength]
      simp only [List.length_cons, List.length_nil]
      omega
    · intro fuel hfuel
      obtain ⟨fuel, rfl⟩ := Nat.exists_eq_succ_of_ne_zero (by omega : fuel ≠ 0)
      have hlog := hround fuel
      rw [hends fuel (by omega)] at hlog
      exact ⟨hlog, hrun hlog⟩
    · refine iff_of_false (fun hnone ↦ ?_) fun hzero ↦ ?_
      · rw [gainAt, hnone] at hposx
        exact absurd hposx (lt_irrefl 0)
      · refine hpos.ne' ?_
        have hbest := hmove.best_mem
        simp only [List.mem_cons, List.not_mem_nil, or_false] at hbest
        rcases hbest with rfl | rfl | rfl
        · exact hzero.1
        · exact hzero.2.1
        · exact hzero.2.2
    · intro found hfound
      exact ⟨x, hx, hfound, hmax⟩
    · intro hle hle' y hy
      rcases List.mem_append.1 hy with hy | hy
      · exact (hrange hle hle').forall_mem y hy
      · exact hin ((hrange hle hle').move hmove) y hy

theorem searchBestPath_best_seven : ∃ rounds ≤ 4, ∃ found, ∀ fuel > rounds,
    searchBestPath fuel 0 3 10 (fun x : ℕ ↦ (.ok (some x) : Outcome String (Option ℕ)))
      (fun x ↦ if x = 7 then 5 else 1) = some (.ok (some found)) := by
  obtain ⟨rounds, hrounds, inputs, result, -, hrun, hnone, -⟩ := searchBestPath_best 0 3 10
    (by decide) (fun x ↦ (.ok (some x) : Outcome String (Option ℕ))) some (fun _ ↦ rfl)
    (fun x ↦ if x = 7 then 5 else 1)
  cases result with
  | none => exact absurd (hnone.1 rfl) (by decide)
  | some found =>
    exact ⟨rounds, hrounds.trans (by decide), found, fun fuel hfuel ↦ (hrun fuel hfuel).2⟩

end Zaciraci.Path
