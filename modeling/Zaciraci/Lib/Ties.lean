import Zaciraci.Lib.Grouping

namespace Zaciraci.Lib

variable {α β : Type} [LinearOrder β] {key : α → β} {rows l l' : List α} {r : α} {n : ℕ}

/-- `l` has the elements of `rows` with descending keys. Equal keys come in any order. -/
structure Descending (key : α → β) (rows l : List α) : Prop where
  perm : l.Perm rows
  sorted : l.Pairwise fun a b ↦ key b ≤ key a

namespace Descending

theorem insertionSort (key : α → β) (rows : List α) :
    Descending key rows (rows.insertionSort fun a b ↦ key b ≤ key a) := by
  have : IsTrans α fun a b ↦ key b ≤ key a := ⟨fun _ _ _ hab hbc ↦ hbc.trans hab⟩
  have : Std.Total fun a b : α ↦ key b ≤ key a := ⟨fun a b ↦ le_total (key b) (key a)⟩
  exact ⟨List.perm_insertionSort _ rows, List.pairwise_insertionSort _ rows⟩

theorem filter (h : Descending key rows l) (p : α → Bool) :
    Descending key (rows.filter p) (l.filter p) :=
  ⟨h.perm.filter p, h.sorted.filter p⟩

theorem head_eq {a b : α} (h : Descending key rows (a :: l)) (h' : Descending key rows (b :: l')) :
    key a = key b := by
  have hle {a b : α} {l l' : List α} (h : Descending key rows (a :: l))
      (h' : Descending key rows (b :: l')) : key b ≤ key a := by
    have hb : b ∈ a :: l := h.perm.mem_iff.2 (h'.perm.mem_iff.1 List.mem_cons_self)
    obtain rfl | hb := List.mem_cons.1 hb
    · exact le_rfl
    · exact (List.pairwise_cons.1 h.sorted).1 b hb
  exact le_antisymm (hle h' h) (hle h h')

theorem take_eq (h : Descending key rows l) (h' : Descending key rows l')
    (hties : ∀ r ∈ rows, rows.countP (key r < key ·) < n → ∀ s ∈ rows, key s = key r → s = r) :
    l.take n = l'.take n := by
  induction l generalizing rows l' n with
  | nil => rw [(h'.perm.trans h.perm.symm).eq_nil]
  | cons a l ih =>
    obtain _ | ⟨b, l'⟩ := l'
    · exact absurd (h.perm.trans h'.perm.symm).eq_nil (List.cons_ne_nil a l)
    obtain _ | n := n
    · rfl
    have ha : a ∈ rows := h.perm.mem_iff.1 List.mem_cons_self
    have hb : b ∈ rows := h'.perm.mem_iff.1 List.mem_cons_self
    obtain ⟨hmax, hsorted⟩ := List.pairwise_cons.1 h.sorted
    have hnone : rows.countP (key a < key ·) = 0 := by
      rw [← h.perm.countP_eq, List.countP_eq_zero]
      intro x hx
      obtain rfl | hx := List.mem_cons.1 hx
      · simp
      · simpa using hmax x hx
    obtain rfl : b = a := hties a ha (by omega) b hb (h.head_eq h').symm
    have hperm : l'.Perm l := (h'.perm.trans h.perm.symm).cons_inv
    rw [List.take_succ_cons, List.take_succ_cons, ih ⟨.refl l, hsorted⟩
      ⟨hperm, (List.pairwise_cons.1 h'.sorted).2⟩ ?_]
    intro r hr hcount s hs hkey
    have hmem {x : α} (hx : x ∈ l) : x ∈ rows := h.perm.mem_iff.1 (.tail b hx)
    refine hties r (hmem hr) ?_ s (hmem hs) hkey
    rw [← h.perm.countP_eq, List.countP_cons]
    split <;> omega

theorem exists_placed (hr : r ∈ rows) (q : α → Bool) (hq : ∀ x, q x → key r ≤ key x)
    (hq' : ∀ x, ¬ q x → key x ≤ key r) :
    ∃ l m, Descending key rows (l ++ r :: m) ∧ (∀ x ∈ l, q x) ∧ ∀ x ∈ m, ¬ q x := by
  obtain ⟨u, v, rfl⟩ := List.append_of_mem hr
  obtain ⟨l, hbefore⟩ : ∃ l, Descending key ((u ++ v).filter q) l := ⟨_, insertionSort key _⟩
  obtain ⟨m, hafter⟩ : ∃ m, Descending key ((u ++ v).filter (!q ·)) m := ⟨_, insertionSort key _⟩
  have hl (x) (hx : x ∈ l) : q x := List.of_mem_filter (hbefore.perm.mem_iff.1 hx)
  have hm (x) (hx : x ∈ m) : ¬ q x := by
    simpa using List.of_mem_filter (hafter.perm.mem_iff.1 hx)
  refine ⟨l, m, ⟨?_, ?_⟩, hl, hm⟩
  · refine List.perm_middle.trans (.trans ?_ List.perm_middle.symm)
    exact ((hbefore.perm.append hafter.perm).trans (List.filter_append_perm q _)).cons r
  · refine List.pairwise_append.2 ⟨hbefore.sorted, ?_, ?_⟩
    · exact List.pairwise_cons.2 ⟨fun x hx ↦ hq' x (hm x hx), hafter.sorted⟩
    · intro x hx y hy
      obtain rfl | hy := List.mem_cons.1 hy
      · exact hq x (hl x hx)
      · exact (hq' y (hm y hy)).trans (hq x (hl x hx))

/-- What has at least the key of an element is all that comes before it, and what is tied with it
behind. -/
theorem filter_perm {m : List α} (h : Descending key rows (l ++ r :: m)) :
    (rows.filter (key r ≤ key ·)).Perm (l ++ r :: m.filter (key r ≤ key ·)) := by
  have hl : l.filter (key r ≤ key ·) = l :=
    List.filter_eq_self.2 fun x hx ↦
      decide_eq_true ((List.pairwise_append.1 h.sorted).2.2 x hx r List.mem_cons_self)
  simpa [List.filter_append, hl] using h.perm.symm.filter (key r ≤ key ·)

theorem length_placed {m : List α} {q : α → Bool} (h : Descending key rows (l ++ r :: m))
    (hl : ∀ x ∈ l, q x) (hm : ∀ x ∈ m, ¬ q x) :
    rows.countP q = l.length + if q r then 1 else 0 := by
  rw [← h.perm.countP_eq, List.countP_append, List.countP_cons, List.countP_eq_length.2 hl,
    List.countP_eq_zero.2 hm, Nat.zero_add]

theorem exists_first (key : α → β) (hr : r ∈ rows) :
    ∃ l, Descending key rows l ∧ l[rows.countP (key r < key ·)]? = some r := by
  obtain ⟨l, m, h, hl, hm⟩ := exists_placed hr (fun x ↦ key r < key x)
    (fun x hx ↦ (of_decide_eq_true hx).le) fun x hx ↦ not_lt.1 (by simpa using hx)
  have hlength := h.length_placed hl hm
  refine ⟨_, h, ?_⟩
  simp [hlength]

theorem exists_last (hnodup : rows.Nodup) (hr : r ∈ rows)
    (h : n < rows.countP (key r ≤ key ·)) : ∃ l, Descending key rows l ∧ r ∉ l.take n := by
  obtain ⟨l, m, hplaced, hl, hm⟩ := exists_placed hr (fun x ↦ key r ≤ key x)
    (fun x hx ↦ of_decide_eq_true hx) fun x hx ↦ (not_le.1 (by simpa using hx)).le
  have hlength := hplaced.length_placed hl hm
  rw [hlength] at h
  simp only [le_refl, decide_true, if_true] at h
  refine ⟨_, hplaced, fun hmem ↦ ?_⟩
  rw [List.take_append_of_le_length (by omega)] at hmem
  have hdisjoint := List.nodup_append.1 (hplaced.perm.nodup_iff.2 hnodup)
  exact hdisjoint.2.2 r (List.mem_of_mem_take hmem) r List.mem_cons_self rfl

variable {p : α → Bool} {m : ℕ}

theorem take_filter_take_eq (h : Descending key rows l)
    (hlimit : ∀ r ∈ rows.filter p, (rows.filter p).countP (key r < key ·) < n →
      rows.countP (key r ≤ key ·) ≤ m) :
    ((l.take m).filter p).take n = (l.filter p).take n := by
  rw [take_filter_take_eq_iff]
  by_contra! hnot
  obtain ⟨hfew, hne⟩ := hnot
  have hsplit : l.filter p = (l.take m).filter p ++ (l.drop m).filter p := by
    rw [← List.filter_append, List.take_append_drop]
  cases hrest : (l.drop m).filter p with
  | nil =>
    rw [hrest, List.append_nil] at hsplit
    exact hne (by rw [List.countP_eq_length_filter, List.countP_eq_length_filter, hsplit])
  | cons r rest =>
    rw [hrest] at hsplit
    have hselected := h.filter p
    rw [hsplit] at hselected
    have hr : r ∈ rows.filter p := hselected.perm.mem_iff.1 (by simp)
    have hdrop : r ∈ l.drop m := List.mem_of_mem_filter (hrest ▸ List.mem_cons_self)
    -- what is selected above the first one beyond the limit is within the limit
    have habove : (rows.filter p).countP (key r < key ·) ≤ (l.take m).countP p := by
      have hafter := (List.pairwise_append.1 hselected.sorted).2.1
      have hzero : (r :: rest).countP (key r < key ·) = 0 := by
        rw [List.countP_eq_zero]
        intro x hx
        obtain rfl | hx := List.mem_cons.1 hx
        · simp
        · simpa using (List.pairwise_cons.1 hafter).1 x hx
      rw [← hselected.perm.countP_eq, List.countP_append, hzero,
        List.countP_eq_length_filter (p := p)]
      exact List.countP_le_length
    have hcount := hlimit r hr (by omega)
    have hbefore : (l.take m).countP (key r ≤ key ·) = m := by
      have hlong : m < l.length := by
        by_contra! hle
        rw [List.drop_eq_nil_of_le hle] at hdrop
        cases hdrop
      rw [List.countP_eq_length.2, List.length_take, min_eq_left hlong.le]
      intro x hx
      have hsorted := h.sorted
      rw [← List.take_append_drop m l] at hsorted
      exact decide_eq_true ((List.pairwise_append.1 hsorted).2.2 x hx r hdrop)
    have hone : 0 < (l.drop m).countP (key r ≤ key ·) :=
      List.countP_pos_iff.2 ⟨r, hdrop, by simp⟩
    have hall : rows.countP (key r ≤ key ·) =
        (l.take m).countP (key r ≤ key ·) + (l.drop m).countP (key r ≤ key ·) := by
      rw [← h.perm.countP_eq, ← List.countP_append, List.take_append_drop]
    omega

/-- In every order the first that are selected within a limit are the first of all that are
selected, exactly if no two of them have the same key and the limit holds whatever can come before
them. -/
theorem forall_take_filter_take_eq_iff (key : α → β) (p : α → Bool) (m n : ℕ)
    (hnodup : rows.Nodup) :
    (∀ l l', Descending key rows l → Descending key (rows.filter p) l' →
      ((l.take m).filter p).take n = l'.take n) ↔
    ∀ r ∈ rows.filter p, (rows.filter p).countP (key r < key ·) < n →
      (∀ s ∈ rows.filter p, key s = key r → s = r) ∧ rows.countP (key r ≤ key ·) ≤ m := by
  constructor
  · intro hall r hr hcount
    have hfirst {s : α} {l : List α} (hs : s ∈ rows.filter p) (hkey : key s = key r)
        (hl : Descending key rows l) : (((l.take m).filter p).take n)[
          (rows.filter p).countP (key r < key ·)]? = some s := by
      obtain ⟨l', hl', hget⟩ := exists_first key hs
      rw [hall l l' hl hl', List.getElem?_take_of_lt hcount, ← hget, hkey]
    constructor
    · intro s hs hkey
      have hsort := insertionSort key rows
      exact Option.some.inj ((hfirst hs hkey hsort).symm.trans (hfirst hr rfl hsort))
    · by_contra! hlt
      obtain ⟨l, hl, hnot⟩ := exists_last hnodup (List.mem_of_mem_filter hr) hlt
      have hmem := List.mem_of_getElem? (hfirst hr rfl hl)
      exact hnot (List.mem_of_mem_filter (List.mem_of_mem_take hmem))
  · intro h l l' hl hl'
    rw [hl.take_filter_take_eq fun r hr hcount ↦ (h r hr hcount).2]
    exact (hl.filter p).take_eq hl' fun r hr hcount ↦ (h r hr hcount).1

end Descending

end Zaciraci.Lib
