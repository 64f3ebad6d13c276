import Mathlib.Data.Finset.Sort
import Zaciraci.Lib.Loop
import Zaciraci.Lib.Subsets

namespace Zaciraci.Portfolio

open Lib

structure Combinations where
  indices : List ℕ
  n : ℕ
  k : ℕ
  first : Bool

namespace Combinations

def new (n k : ℕ) : Combinations := ⟨List.range k, n, k, true⟩

def rightmost (p : ℕ → Bool) : ℕ → Option ℕ
  | 0 => none
  | i + 1 => if p i then some i else rightmost p i

/-- The positions from `i` on are filled with consecutive numbers, in place. -/
def fill (indices : List ℕ) (i k : ℕ) : List ℕ :=
  (List.range' (i + 1) (k - (i + 1))).foldl (fun l j ↦ l.set j (l.getD (j - 1) 0 + 1))
    (indices.set i (indices.getD i 0 + 1))

def next (c : Combinations) : Option (List ℕ) × Combinations :=
  if c.k = 0 ∨ c.n < c.k then (none, c)
  else if c.first then (some c.indices, { c with first := false })
  else
    match rightmost (fun i ↦ c.indices.getD i 0 < c.n - c.k + i) c.k with
    | none => (none, c)
    | some i =>
      let indices := fill c.indices i c.k
      (some indices, { c with indices })

theorem rightmost_succ (p : ℕ → Bool) (i : ℕ) :
    rightmost p (i + 1) = match rightmost (fun j ↦ p (j + 1)) i with
      | some j => some (j + 1)
      | none => if p 0 then some 0 else none := by
  induction i with
  | zero => rfl
  | succ i ih =>
    rw [rightmost, ih, rightmost]
    by_cases hp : p (i + 1)
    · rw [if_pos hp, if_pos hp]
    · rw [if_neg hp, if_neg hp]

theorem foldl_fill (a b : List ℕ) (v : ℕ) :
    (List.range' (a.length + 1) b.length).foldl (fun l j ↦ l.set j (l.getD (j - 1) 0 + 1))
      (a ++ v :: b) = a ++ List.range' v (b.length + 1) := by
  induction b generalizing a v with
  | nil => simp
  | cons y b ih =>
    have hstep : (a ++ v :: y :: b).set (a.length + 1)
        ((a ++ v :: y :: b).getD (a.length + 1 - 1) 0 + 1) = (a ++ [v]) ++ (v + 1) :: b := by
      simp
    have hrest := ih (a ++ [v]) (v + 1)
    rw [List.length_append, List.length_singleton] at hrest
    rw [List.length_cons, List.range'_succ, List.foldl_cons, hstep, hrest, List.append_assoc]
    rfl

theorem fill_eq {indices : List ℕ} {i : ℕ} (h : i < indices.length) :
    fill indices i indices.length =
      indices.take i ++ List.range' (indices.getD i 0 + 1) (indices.length - i) := by
  obtain ⟨a, x, b, rfl, rfl⟩ : ∃ a x b, indices = a ++ x :: b ∧ a.length = i :=
    ⟨indices.take i, indices[i], indices.drop (i + 1), by simp, by simp; omega⟩
  have hfill := foldl_fill a b (x + 1)
  have hcount : (a ++ x :: b).length - (a.length + 1) = b.length := by simp; omega
  have hrest : (a ++ x :: b).length - a.length = b.length + 1 := by simp
  rw [fill, hcount, hrest]
  simpa using hfill

theorem successor_eq {n : ℕ} {l : List ℕ} (h : l.length ≤ n) :
    (rightmost (fun i ↦ l.getD i 0 < n - l.length + i) l.length).map
      (fun i ↦ l.take i ++ List.range' (l.getD i 0 + 1) (l.length - i)) = successor n l := by
  induction l with
  | nil => rfl
  | cons x l ih =>
    rw [List.length_cons] at h
    have htail := ih (by omega)
    have hshift : (fun j ↦ decide ((x :: l).getD (j + 1) 0 < n - (x :: l).length + (j + 1))) =
        fun j ↦ decide (l.getD j 0 < n - l.length + j) := by
      funext j
      rw [List.getD_cons_succ, List.length_cons,
        show n - (l.length + 1) + (j + 1) = n - l.length + j by omega]
    rw [List.length_cons, rightmost_succ, ← List.length_cons, hshift, successor, ← htail]
    cases rightmost (fun j ↦ decide (l.getD j 0 < n - l.length + j)) l.length with
    | some j => simp
    | none =>
      have hiff : x < n - (l.length + 1) ↔ x + l.length + 1 < n := by omega
      by_cases hx : x + l.length + 1 < n
      · simp [hx, hiff.2 hx]
      · simp [hx, mt hiff.1 hx]

theorem rightmost_lt {p : ℕ → Bool} {k i : ℕ} (h : rightmost p k = some i) : i < k := by
  induction k with
  | zero => cases h
  | succ k ih =>
    rw [rightmost] at h
    split_ifs at h
    · cases h
      exact Nat.lt_succ_self _
    · exact Nat.lt_succ_of_lt (ih h)

theorem next_first {n k : ℕ} (hk : 1 ≤ k) (hkn : k ≤ n) :
    (new n k).next = (some (List.range k), ⟨List.range k, n, k, false⟩) := by
  rw [next, if_neg (by simp only [new]; omega)]
  rfl

theorem next_eq {n : ℕ} {l : List ℕ} (hl : 1 ≤ l.length) (hln : l.length ≤ n) :
    (⟨l, n, l.length, false⟩ : Combinations).next =
      (successor n l, ⟨(successor n l).getD l, n, l.length, false⟩) := by
  rw [next, if_neg (by simp only; omega), if_neg (by simp), ← successor_eq hln]
  dsimp only
  cases h : rightmost (fun i ↦ decide (l.getD i 0 < n - l.length + i)) l.length with
  | none => rfl
  | some i =>
    dsimp only
    rw [fill_eq (rightmost_lt h)]
    rfl

theorem drains_of_follow {n : ℕ} {l : List ℕ} {rest : List (List ℕ)} (hl : 1 ≤ l.length)
    (hln : l.length ≤ n) (h : Follow (successor n) l rest)
    (hlength : ∀ z ∈ rest, z.length = l.length) :
    Drains next ⟨l, n, l.length, false⟩ rest := by
  induction h with
  | last hnone =>
    refine .done ?_
    rw [next_eq hl hln]
    exact hnone
  | @step l l' rest hsome _ ih =>
    obtain ⟨hl', hrest⟩ := List.forall_mem_cons.1 hlength
    have htail := ih (hl'.symm ▸ hl) (hl'.symm ▸ hln) fun z hz ↦ (hrest z hz).trans hl'.symm
    rw [hl'] at htail
    refine .item ?_ htail
    rw [next_eq hl hln, hsome]
    rfl

theorem drains_new {n k : ℕ} (hk : 1 ≤ k) (hkn : k ≤ n) :
    Drains next (new n k) (increasing n 0 k) := by
  obtain ⟨rest, hrest, hfollow⟩ := follow_increasing 0 hkn
  rw [Nat.zero_add] at hfollow
  have hlength (z) (hz : z ∈ rest) : z.length = (List.range' 0 k).length := by
    have hmem : z ∈ increasing n 0 k := hrest ▸ List.mem_cons_of_mem _ hz
    rw [(mem_increasing.1 hmem).1, List.length_range']
  have htail := drains_of_follow (by rwa [List.length_range']) (by rwa [List.length_range']) hfollow
    hlength
  rw [List.length_range', ← List.range_eq_range'] at htail
  rw [hrest, ← List.range_eq_range']
  exact .item (next_first hk hkn) htail

theorem sets_increasing (n k : ℕ) :
    ((increasing n 0 k).map List.toFinset).Nodup ∧
      ∀ s : Finset ℕ, s ∈ (increasing n 0 k).map List.toFinset ↔
        s ⊆ Finset.range n ∧ s.card = k := by
  constructor
  · refine List.Nodup.map_on ?_ ((increasing_sorted n 0 k).imp ne_of_lt)
    intro a ha b hb heq
    obtain ⟨-, hincr, -⟩ := mem_increasing.1 ha
    obtain ⟨-, hincr', -⟩ := mem_increasing.1 hb
    have hperm :=
      List.perm_of_nodup_nodup_toFinset_eq (hincr.imp ne_of_lt) (hincr'.imp ne_of_lt) heq
    exact hperm.eq_of_sortedLE (hincr.imp le_of_lt).sortedLE (hincr'.imp le_of_lt).sortedLE
  · intro s
    rw [List.mem_map]
    constructor
    · rintro ⟨l, hl, rfl⟩
      obtain ⟨hlength, hincr, hbound⟩ := mem_increasing.1 hl
      refine ⟨fun x hx ↦ ?_, ?_⟩
      · have := hbound x (List.mem_toFinset.1 hx)
        exact Finset.mem_range.2 (by omega)
      · rw [List.toFinset_card_of_nodup (hincr.imp ne_of_lt), hlength]
    · rintro ⟨hsub, hcard⟩
      refine ⟨s.sort, mem_increasing.2 ⟨?_, ?_, fun x hx ↦ ?_⟩, Finset.sort_toFinset ..⟩
      · rw [Finset.length_sort, hcard]
      · exact (Finset.sortedLT_sort s).pairwise
      · have := Finset.mem_range.1 (hsub ((Finset.mem_sort _).1 hx))
        omega

end Combinations

end Zaciraci.Portfolio
