import Zaciraci.Dex.TokenPath

namespace Zaciraci.Dex

open Lib

namespace PoolInfo

variable {pool : PoolInfo} {x y a : ℕ}

def FeeBounded (pool : PoolInfo) : Prop := pool.totalFee.toNat ≤ 10000

instance (pool : PoolInfo) : Decidable pool.FeeBounded :=
  inferInstanceAs (Decidable (pool.totalFee.toNat ≤ 10000))

theorem feeFactor_eq (h : pool.FeeBounded) : pool.feeFactor = 10000 - pool.totalFee.toNat := by
  have hle : pool.totalFee ≤ feeDivisor := UInt32.le_iff_toNat_le.2 h
  rw [feeFactor, UInt32.toNat_sub_of_le _ _ hle, feeDivisor_toNat]

theorem feeFactor_le (h : pool.FeeBounded) : pool.feeFactor ≤ 10000 := by
  rw [feeFactor_eq h]
  omega

theorem swapOut_mul_le (pool : PoolInfo) (x a y : ℕ) :
    pool.swapOut x a y * (10000 * x + a * pool.feeFactor) ≤ a * pool.feeFactor * y :=
  Nat.div_mul_le_self _ _

theorem swapOut_mono (pool : PoolInfo) {a' : ℕ} (hx : 0 < x) (hy : 0 < y) (h : a ≤ a') :
    pool.swapOut x a y ≤ pool.swapOut x a' y := by
  have hlow := pool.swapOut_mul_le x a y
  have hr := (pool.swapOut_lt a hx hy).le
  obtain ⟨u, hu⟩ := Nat.exists_eq_add_of_le (Nat.mul_le_mul_right pool.feeFactor h)
  generalize pool.swapOut x a y = r at hlow hr ⊢
  rw [swapOut, Nat.le_div_iff_mul_le (by omega), hu, ← Nat.add_assoc, Nat.mul_add, Nat.add_mul]
  exact Nat.add_le_add hlow (Nat.mul_comm r u ▸ Nat.mul_le_mul_left u hr)

theorem swapOut_price (hfee : pool.FeeBounded) (hx : 0 < x) (hy : 0 < y) :
    pool.swapOut x a y * x ≤ a * (y - pool.swapOut x a y) := by
  have hg := feeFactor_le hfee
  have hlow := pool.swapOut_mul_le x a y
  obtain ⟨z, hz⟩ := Nat.exists_eq_add_of_le (pool.swapOut_lt a hx hy).le
  generalize pool.swapOut x a y = r at hlow hz ⊢
  generalize pool.feeFactor = g at hg hlow
  subst hz
  rw [Nat.add_sub_cancel_left]
  have hscaled : 10000 * (r * x) ≤ 10000 * (a * z) :=
    calc 10000 * (r * x) ≤ a * g * z := by nlinarith
      _ ≤ 10000 * (a * z) := by nlinarith [Nat.zero_le (a * z)]
  omega

theorem swapOut_product (hfee : pool.FeeBounded) (hx : 0 < x) (hy : 0 < y) :
    x * y ≤ (x + a) * (y - pool.swapOut x a y) := by
  have hprice := swapOut_price (a := a) hfee hx hy
  obtain ⟨z, hz⟩ := Nat.exists_eq_add_of_le (pool.swapOut_lt a hx hy).le
  generalize pool.swapOut x a y = r at hprice hz ⊢
  subst hz
  rw [Nat.add_sub_cancel_left] at hprice ⊢
  calc x * (r + z) = r * x + x * z := by ring
    _ ≤ a * z + x * z := Nat.add_le_add_right hprice _
    _ = (x + a) * z := by ring

theorem swapOut_back_lt (hfee : pool.FeeBounded) {w : ℕ} (hx : 0 < x) (hy : 0 < y) (ha : 0 < a)
    (hw : w ≤ pool.swapOut x a y) : pool.swapOut y w x < a := by
  have hg := feeFactor_le hfee
  have hback : w * x ≤ a * y :=
    calc w * x ≤ pool.swapOut x a y * x := Nat.mul_le_mul_right x hw
      _ ≤ a * (y - pool.swapOut x a y) := swapOut_price hfee hx hy
      _ ≤ a * y := Nat.mul_le_mul_left a (Nat.sub_le _ _)
  have hay : 0 < a * y := Nat.mul_pos ha hy
  rw [swapOut, Nat.div_lt_iff_lt_mul (by omega)]
  rcases Nat.eq_zero_or_pos (w * pool.feeFactor) with hzero | hpos
  · rw [hzero, Nat.zero_mul, Nat.add_zero]
    exact Nat.mul_pos ha (by omega)
  · calc w * pool.feeFactor * x = pool.feeFactor * (w * x) := by ring
      _ ≤ 10000 * (a * y) := Nat.mul_le_mul hg hback
      _ < 10000 * (a * y) + a * (w * pool.feeFactor) :=
        Nat.lt_add_of_pos_right (Nat.mul_pos ha hpos)
      _ = a * (10000 * y + w * pool.feeFactor) := by ring

theorem toNat_ofNat_swapOut (pool : PoolInfo) (a : ℕ) {x y : BitVec 128} (hx : 0 < x.toNat)
    (hy : 0 < y.toNat) : (BitVec.ofNat 128 (pool.swapOut x.toNat a y.toNat)).toNat =
      pool.swapOut x.toNat a y.toNat := by
  have hlt := pool.swapOut_lt a hx hy
  rw [BitVec.toNat_ofNat, Nat.mod_eq_of_lt (hlt.trans y.isLt)]

theorem estimateReturn_iff {i j : ℕ} {a r : BitVec 128} :
    pool.estimateReturn i a j = .ok r ↔ i ≠ j ∧ 0 < a.toNat ∧ ∃ x y,
      pool.amounts[i]? = some x ∧ pool.amounts[j]? = some y ∧ 0 < x.toNat ∧ 0 < y.toNat ∧
      r.toNat = pool.swapOut x.toNat a.toNat y.toNat := by
  constructor
  · intro h
    obtain ⟨x, y, hx, hy, hij, hx', ha, hy', -⟩ := estimateReturn_ok h
    rw [estimateReturn_eq hij hx hy hx' ha hy', Except.ok.injEq] at h
    refine ⟨hij, ha, x, y, amount_ok.1 hx, amount_ok.1 hy, hx', hy', ?_⟩
    rw [← h, pool.toNat_ofNat_swapOut a.toNat hx' hy']
  · rintro ⟨hij, ha, x, y, hx, hy, hx', hy', hr⟩
    rw [estimateReturn_eq hij (amount_ok.2 hx) (amount_ok.2 hy) hx' ha hy', ← hr,
      BitVec.ofNat_toNat, BitVec.setWidth_eq]

theorem estimateReturn_mono {i j : ℕ} {a a' r r' : BitVec 128} (hle : a ≤ a')
    (h : pool.estimateReturn i a j = .ok r) (h' : pool.estimateReturn i a' j = .ok r') :
    r ≤ r' := by
  obtain ⟨-, -, x, y, hx, hy, hx₀, hy₀, hr⟩ := estimateReturn_iff.1 h
  obtain ⟨-, -, x', y', hx', hy', -, -, hr'⟩ := estimateReturn_iff.1 h'
  obtain rfl := Option.some.inj (hx.symm.trans hx')
  obtain rfl := Option.some.inj (hy.symm.trans hy')
  rw [BitVec.le_def, hr, hr']
  exact pool.swapOut_mono hx₀ hy₀ (BitVec.le_def.1 hle)

/-- A swap between two filled reserves is estimated by the constant product formula: less than the
whole reserve, never to the loss of the pool, and never less for more. -/
theorem estimateReturn_amm (pool : PoolInfo) (hfee : pool.totalFee.toNat ≤ 10000) {i j : ℕ}
    (hij : i ≠ j) {x y : BitVec 128} (hx : pool.amounts[i]? = some x)
    (hy : pool.amounts[j]? = some y) (hx₀ : 0 < x) (hy₀ : 0 < y) (a : BitVec 128) (ha : 0 < a) :
    ∃ r, pool.estimateReturn i a j = .ok r ∧
      r.toNat = a.toNat * (10000 - pool.totalFee.toNat) * y.toNat /
        (10000 * x.toNat + a.toNat * (10000 - pool.totalFee.toNat)) ∧
      r < y ∧ x.toNat * y.toNat ≤ (x.toNat + a.toNat) * (y.toNat - r.toNat) ∧
      ∀ a' r', a ≤ a' → pool.estimateReturn i a' j = .ok r' → r ≤ r' := by
  have hx' : 0 < x.toNat := BitVec.lt_def.1 hx₀
  have hy' : 0 < y.toNat := BitVec.lt_def.1 hy₀
  have hout := pool.swapOut_lt a.toNat hx' hy'
  have hr := pool.toNat_ofNat_swapOut a.toNat hx' hy'
  have hok : pool.estimateReturn i a j = .ok (.ofNat 128 (pool.swapOut x.toNat a.toNat y.toNat)) :=
    estimateReturn_iff.2 ⟨hij, BitVec.lt_def.1 ha, x, y, hx, hy, hx', hy', hr⟩
  refine ⟨_, hok, ?_, ?_, ?_, fun a' r' ha' h' ↦ estimateReturn_mono ha' hok h'⟩
  · rw [hr, swapOut, feeFactor_eq hfee]
  · rwa [BitVec.lt_def, hr]
  · rw [hr]
    exact swapOut_product hfee hx' hy'

theorem estimateReturn_amm_thousand : ∃ r,
    (⟨0, poolKindSimple, [⟨"a"⟩, ⟨"b"⟩], [1000, 3000], 30⟩ : PoolInfo).estimateReturn 0 100 1 =
      .ok r ∧ r.toNat = 100 * 9970 * 3000 / (10000 * 1000 + 100 * 9970) := by
  obtain ⟨r, hok, hr, -⟩ := estimateReturn_amm
    ⟨0, poolKindSimple, [⟨"a"⟩, ⟨"b"⟩], [1000, 3000], 30⟩ (by decide) (i := 0) (j := 1) (by decide)
    (x := 1000) (y := 3000) rfl rfl (by decide) (by decide) 100 (by decide)
  exact ⟨r, hok, hr⟩

end PoolInfo

namespace TokenPair

def flip (pair : TokenPair) : TokenPair := ⟨pair.pool, pair.tokenOut, pair.tokenIn⟩

end TokenPair

namespace TokenPath

def back (path : TokenPath) : TokenPath := (path.map TokenPair.flip).reverse

def FeeBounded (path : TokenPath) : Prop := ∀ pair ∈ path, pair.pool.FeeBounded

instance (path : TokenPath) : Decidable path.FeeBounded :=
  inferInstanceAs (Decidable (∀ pair ∈ path, pair.pool.FeeBounded))

theorem calcValue_zero (path : TokenPath) : path.calcValue 0 = .ok 0 := by
  cases path <;> rfl

theorem calcValue_cons {pair : TokenPair} {path : TokenPath} {a : BitVec 128} (ha : a ≠ 0) :
    calcValue (pair :: path) a = pair.estimateReturn a >>= calcValue path := by
  rw [calcValue, if_neg ha]

theorem calcValue_append (path more : TokenPath) (a : BitVec 128) :
    (path ++ more).calcValue a = path.calcValue a >>= more.calcValue := by
  induction path generalizing a with
  | nil => rfl
  | cons pair path ih =>
    by_cases ha : a = 0
    · subst ha
      rw [calcValue_zero, calcValue_zero]
      exact (calcValue_zero more).symm
    · rw [List.cons_append, calcValue_cons ha, calcValue_cons ha]
      cases pair.estimateReturn a with
      | error e => rfl
      | ok r => exact ih r

theorem pos_of_ne_zero {a : BitVec 128} (h : a ≠ 0) : 0 < a.toNat := by
  refine Nat.pos_of_ne_zero fun h₀ ↦ h (BitVec.eq_of_toNat_eq ?_)
  simpa using h₀

theorem calcValue_mono {path : TokenPath} {a a' v v' : BitVec 128} (hle : a ≤ a')
    (h : path.calcValue a = .ok v) (h' : path.calcValue a' = .ok v') : v ≤ v' := by
  induction path generalizing a a' with
  | nil =>
    cases h
    cases h'
    exact hle
  | cons pair path ih =>
    by_cases ha : a = 0
    · subst ha
      rw [calcValue_zero] at h
      cases h
      exact BitVec.le_def.2 (Nat.zero_le _)
    · have ha' : a' ≠ 0 := by
        rintro rfl
        have hpos := pos_of_ne_zero ha
        rw [BitVec.le_def] at hle
        exact absurd hle (by simpa using hpos.ne')
      rw [calcValue_cons ha] at h
      rw [calcValue_cons ha'] at h'
      obtain ⟨r, hr, h⟩ := except_bind_eq_ok.1 h
      obtain ⟨r', hr', h'⟩ := except_bind_eq_ok.1 h'
      exact ih (PoolInfo.estimateReturn_mono hle hr hr') h h'

theorem flip_loses {pair : TokenPair} (hfee : pair.pool.FeeBounded) {a r w v : BitVec 128}
    (hr : pair.estimateReturn a = .ok r) (hw : w ≤ r) (h : calcValue [pair.flip] w = .ok v) :
    v < a := by
  obtain ⟨-, ha, x, y, hx, hy, hx₀, hy₀, hr⟩ := PoolInfo.estimateReturn_iff.1 hr
  by_cases hw₀ : w = 0
  · subst hw₀
    rw [calcValue_zero] at h
    cases h
    exact BitVec.lt_def.2 ha
  · rw [calcValue_cons hw₀] at h
    obtain ⟨v', hv, h⟩ := except_bind_eq_ok.1 h
    cases h
    obtain ⟨-, -, y', x', hy', hx', -, -, hv⟩ := PoolInfo.estimateReturn_iff.1 hv
    obtain rfl := Option.some.inj (hx.symm.trans hx')
    obtain rfl := Option.some.inj (hy.symm.trans hy')
    rw [BitVec.lt_def, hv]
    exact PoolInfo.swapOut_back_lt hfee hx₀ hy₀ ha (hr ▸ BitVec.le_def.1 hw)

theorem back_cons (pair : TokenPair) (path : TokenPath) :
    back (pair :: path) = path.back ++ [pair.flip] := by
  rw [back, back, List.map_cons, List.reverse_cons]

theorem calcValue_back_le {path : TokenPath} (hfee : path.FeeBounded) {a v : BitVec 128}
    (h : (path ++ path.back).calcValue a = .ok v) : v ≤ a ∧ (a ≠ 0 → path ≠ [] → v < a) := by
  induction path generalizing a v with
  | nil =>
    cases h
    exact ⟨BitVec.le_refl _, fun _ hne ↦ absurd rfl hne⟩
  | cons pair path ih =>
    obtain ⟨hpair, hrest⟩ := List.forall_mem_cons.1 hfee
    by_cases ha : a = 0
    · subst ha
      rw [calcValue_zero] at h
      cases h
      exact ⟨BitVec.le_refl _, absurd rfl⟩
    · rw [back_cons, List.cons_append, calcValue_cons ha, ← List.append_assoc] at h
      obtain ⟨r, hr, h⟩ := except_bind_eq_ok.1 h
      rw [calcValue_append] at h
      obtain ⟨w, hw, h⟩ := except_bind_eq_ok.1 h
      have hlt := flip_loses hpair hr (ih hrest hw).1 h
      exact ⟨BitVec.le_of_lt hlt, fun _ _ ↦ hlt⟩

/-- More put in never brings less out, and a way there and back through the same pools loses,
unless it is empty. -/
theorem calcValue_laws (path : TokenPath)
    (hfee : ∀ pair ∈ path, pair.pool.totalFee.toNat ≤ 10000) :
    (∀ a a' v v', a ≤ a' → path.calcValue a = .ok v → path.calcValue a' = .ok v' → v ≤ v') ∧
      ∀ a v, 0 < a → (path ++ path.back).calcValue a = .ok v → (v < a ↔ path ≠ []) := by
  refine ⟨fun a a' v v' ↦ calcValue_mono, fun a v ha h ↦ ?_⟩
  have hne : a ≠ 0 := by
    rintro rfl
    exact absurd ha (BitVec.lt_irrefl 0)
  constructor
  · rintro hlt rfl
    cases h
    exact BitVec.lt_irrefl _ hlt
  · exact (calcValue_back_le hfee h).2 hne

def sampleWay : TokenPath :=
  [⟨⟨0, poolKindSimple, [⟨"a"⟩, ⟨"b"⟩], [1000, 3000], 30⟩, 0, 1⟩,
    ⟨⟨1, poolKindSimple, [⟨"b"⟩, ⟨"c"⟩], [2000, 500], 30⟩, 0, 1⟩]

theorem calcValue_laws_two_hops : ∃ v, (sampleWay ++ sampleWay.back).calcValue 100 = .ok v ∧
    v < 100 := by
  have hvalue : (sampleWay ++ sampleWay.back).calcValue 100 = .ok 65 := by decide +kernel
  exact ⟨65, hvalue, ((calcValue_laws sampleWay (by decide)).2 100 65 (by decide) hvalue).2 nofun⟩

theorem calcValue_back_empty : ¬∀ (path : TokenPath) (a v : BitVec 128),
    path.FeeBounded → 0 < a → (path ++ path.back).calcValue a = .ok v → v < a := by
  intro h
  exact absurd (h [] 1 1 nofun (by decide) rfl) (by decide)

end TokenPath

end Zaciraci.Dex
