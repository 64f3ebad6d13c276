import Mathlib.Data.List.Chain
import Mathlib.Data.List.Lex
import Mathlib.Data.List.Range
import Mathlib.Data.Nat.Choose.Basic

namespace Zaciraci.Lib

/-- The elements that follow one under a partial successor, up to the last. -/
inductive Follow {α : Type} (next : α → Option α) : α → List α → Prop
  | last {a : α} : next a = none → Follow next a []
  | step {a b : α} {rest : List α} : next a = some b → Follow next b rest →
      Follow next a (b :: rest)

/-- The increasing lists of `k` of the `d` numbers from `lo` on, in lexicographic order. -/
def increasing : (d lo k : ℕ) → List (List ℕ)
  | _, _, 0 => [[]]
  | 0, _, _ + 1 => []
  | d + 1, lo, k + 1 => (increasing d (lo + 1) k).map (lo :: ·) ++ increasing d (lo + 1) (k + 1)

/-- The next increasing list of the same length with entries below `n`. -/
def successor (n : ℕ) : List ℕ → Option (List ℕ)
  | [] => none
  | x :: l =>
    match successor n l with
    | some l' => some (x :: l')
    | none => if x + l.length + 1 < n then some (List.range' (x + 1) (l.length + 1)) else none

theorem increasing_zero (d lo : ℕ) : increasing d lo 0 = [[]] := by
  cases d <;> rfl

theorem mem_increasing {d lo k : ℕ} {l : List ℕ} :
    l ∈ increasing d lo k ↔
      l.length = k ∧ l.Pairwise (· < ·) ∧ ∀ x ∈ l, lo ≤ x ∧ x < lo + d := by
  induction d generalizing lo k l with
  | zero =>
    cases l with
    | nil => cases k <;> simp [increasing]
    | cons x l =>
      refine iff_of_false (by cases k <;> simp [increasing]) fun h ↦ ?_
      have := h.2.2 x List.mem_cons_self
      omega
  | succ d ih =>
    cases k with
    | zero =>
      rw [increasing_zero, List.mem_singleton, List.length_eq_zero_iff]
      exact ⟨fun h ↦ ⟨h, by simp [h]⟩, And.left⟩
    | succ k =>
      rw [increasing, List.mem_append, List.mem_map, ih]
      constructor
      · rintro (⟨t, ht, rfl⟩ | ⟨hlength, hincr, hbound⟩)
        · obtain ⟨hlength, hincr, hbound⟩ := ih.1 ht
          refine ⟨congrArg Nat.succ hlength, List.pairwise_cons.2 ⟨fun y hy ↦ ?_, hincr⟩, ?_⟩
          · exact (hbound y hy).1
          · intro y hy
            rcases List.mem_cons.1 hy with rfl | hy
            · omega
            · have := hbound y hy
              omega
        · refine ⟨hlength, hincr, fun y hy ↦ ?_⟩
          have := hbound y hy
          omega
      · rintro ⟨hlength, hincr, hbound⟩
        obtain ⟨x, t, rfl⟩ := List.exists_cons_of_length_eq_add_one hlength
        obtain ⟨hhead, hincr'⟩ := List.pairwise_cons.1 hincr
        have hx := hbound x List.mem_cons_self
        have ht (y) (hy : y ∈ t) : x < y ∧ y < lo + (d + 1) :=
          ⟨hhead y hy, (hbound y (List.mem_cons_of_mem x hy)).2⟩
        rcases Nat.eq_or_lt_of_le hx.1 with rfl | hlt
        · refine .inl ⟨t, ih.2 ⟨Nat.succ.inj hlength, hincr', fun y hy ↦ ?_⟩, rfl⟩
          have := ht y hy
          omega
        · refine .inr ⟨hlength, hincr, fun y hy ↦ ?_⟩
          rcases List.mem_cons.1 hy with rfl | hy
          · omega
          · have := ht y hy
            omega

theorem length_increasing (d lo k : ℕ) : (increasing d lo k).length = d.choose k := by
  induction d generalizing lo k with
  | zero => cases k <;> rfl
  | succ d ih =>
    cases k with
    | zero => rfl
    | succ k => rw [increasing, List.length_append, List.length_map, ih, ih, Nat.choose_succ_succ]

theorem increasing_sorted (d lo k : ℕ) : (increasing d lo k).Pairwise (· < ·) := by
  induction d generalizing lo k with
  | zero => cases k <;> simp [increasing]
  | succ d ih =>
    cases k with
    | zero => simp [increasing_zero]
    | succ k =>
      refine List.pairwise_append.2 ⟨?_, ih (lo + 1) (k + 1), ?_⟩
      · refine List.pairwise_map.2 ((ih (lo + 1) k).imp fun h ↦ ?_)
        exact List.cons_lt_cons_self.2 h
      · intro a ha b hb
        obtain ⟨t, -, rfl⟩ := List.mem_map.1 ha
        obtain ⟨hlength, -, hbound⟩ := mem_increasing.1 hb
        obtain ⟨x, s, rfl⟩ := List.exists_cons_of_length_eq_add_one hlength
        exact List.cons_lt_cons_iff.2 (.inl (hbound x List.mem_cons_self).1)

theorem Follow.cons_append {n x : ℕ} {a : List ℕ} {rest tail : List (List ℕ)}
    (h : Follow (successor n) a rest)
    (hlast : ∀ z, z.length = a.length → successor n z = none → Follow (successor n) (x :: z) tail)
    (hlength : ∀ z ∈ rest, z.length = a.length) :
    Follow (successor n) (x :: a) (rest.map (x :: ·) ++ tail) := by
  induction h with
  | last hnone => exact hlast _ rfl hnone
  | @step a b rest hsome _ ih =>
    obtain ⟨hb, hrest⟩ := List.forall_mem_cons.1 hlength
    refine .step (by rw [successor, hsome]) (ih (fun z hz ↦ hlast z (hz.trans hb)) fun z hz ↦ ?_)
    exact (hrest z hz).trans hb.symm

theorem follow_increasing {d k : ℕ} (lo : ℕ) (h : k ≤ d) :
    ∃ rest, increasing d lo k = List.range' lo k :: rest ∧
      Follow (successor (lo + d)) (List.range' lo k) rest := by
  induction d generalizing lo k with
  | zero =>
    obtain rfl := Nat.le_zero.1 h
    exact ⟨[], rfl, .last rfl⟩
  | succ d ih =>
    cases k with
    | zero => exact ⟨[], rfl, .last rfl⟩
    | succ k =>
      obtain ⟨rest, hrest, hfollow⟩ := ih (lo + 1) (Nat.le_of_succ_le_succ h)
      have hn : lo + 1 + d = lo + (d + 1) := by omega
      have hlengths (z) (hz : z ∈ rest) : z.length = (List.range' (lo + 1) k).length := by
        have hmem : z ∈ increasing d (lo + 1) k := hrest ▸ List.mem_cons_of_mem _ hz
        rw [(mem_increasing.1 hmem).1, List.length_range']
      rw [hn] at hfollow
      refine ⟨rest.map (lo :: ·) ++ increasing d (lo + 1) (k + 1), ?_, ?_⟩
      · rw [increasing, hrest]
        rfl
      refine hfollow.cons_append (fun z hz hnone ↦ ?_) hlengths
      rw [List.length_range'] at hz
      -- After the last list with `lo` in front come those without it, if there are any.
      rcases Nat.lt_or_ge k d with hlt | hge
      · obtain ⟨rest', hrest', hfollow'⟩ := ih (lo + 1) hlt
        rw [hrest']
        rw [hn] at hfollow'
        refine .step ?_ hfollow'
        rw [successor, hnone, hz]
        exact if_pos (by omega)
      · have hnil : increasing d (lo + 1) (k + 1) = [] :=
          List.length_eq_zero_iff.1 (by rw [length_increasing, Nat.choose_eq_zero_of_lt (by omega)])
        rw [hnil]
        refine .last ?_
        rw [successor, hnone, hz]
        exact if_neg (by omega)

end Zaciraci.Lib
