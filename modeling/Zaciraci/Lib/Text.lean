import Mathlib

namespace Zaciraci.Lib

/-- `char::is_whitespace`: the Unicode property `White_Space`. -/
def isWhitespace (c : Char) : Bool :=
  (9 ≤ c.toNat && c.toNat ≤ 13) || (0x2000 ≤ c.toNat && c.toNat ≤ 0x200a) ||
    [0x20, 0x85, 0xa0, 0x1680, 0x2028, 0x2029, 0x202f, 0x205f, 0x3000].contains c.toNat

/-- `char::is_control`: the Unicode category `Cc`. -/
def isControl (c : Char) : Bool := c.toNat < 32 || (127 ≤ c.toNat && c.toNat < 160)

theorem toLower_cases (c : Char) :
    c.toLower = c ∨ 97 ≤ c.toLower.toNat ∧ c.toLower.toNat ≤ 122 := by
  by_cases hupper : c.isUpper
  · have hlower : c.toLower.isLower := by
      rw [Char.isLower_toLower_eq_isAlpha, Char.isAlpha, hupper, Bool.true_or]
    right
    simpa [Char.isLower, UInt32.le_iff_toNat_le] using hlower
  · exact .inl (Char.toLower_eq_of_not_isUpper hupper)

theorem toLower_eq_at {c : Char} : c.toLower = '@' ↔ c = '@' := by
  constructor
  · intro h
    obtain hc | hc := toLower_cases c
    · rw [← hc, h]
    · simp [h] at hc
  · rintro rfl
    rfl

theorem isPlain_toLower {c : Char} (h : (isControl c || isWhitespace c) = false) :
    (isControl c.toLower || isWhitespace c.toLower) = false := by
  obtain hc | hc := toLower_cases c
  · rw [hc, h]
  · have hctl : isControl c.toLower = false := by
      simp only [isControl, Bool.or_eq_false_iff, Bool.and_eq_false_iff, decide_eq_false_iff_not]
      omega
    have hspace : isWhitespace c.toLower = false := by
      simp [isWhitespace]
      omega
    simp [hctl, hspace]

def trim (s : List Char) : List Char := (s.dropWhile isWhitespace).rdropWhile isWhitespace

theorem trim_eq_self {s : List Char} (h : ∀ c ∈ s, isWhitespace c = false) : trim s = s := by
  have hleft : s.dropWhile isWhitespace = s := by
    cases s with
    | nil => rfl
    | cons c cs => simp [h c]
  rw [trim, hleft, List.rdropWhile_eq_self_iff]
  intro hs
  simp [h _ (List.getLast_mem hs)]

def splitOnce (sep : Char) : List Char → Option (List Char × List Char)
  | [] => none
  | c :: cs => if c = sep then some ([], cs) else (splitOnce sep cs).map fun p ↦ (c :: p.1, p.2)

theorem splitOnce_eq_some {sep : Char} {s l r : List Char} :
    splitOnce sep s = some (l, r) ↔ s = l ++ sep :: r ∧ sep ∉ l := by
  induction s generalizing l with
  | nil => simp [splitOnce]
  | cons c cs ih =>
    by_cases hc : c = sep
    · subst hc
      cases l with
      | nil => simp [splitOnce]
      | cons d l => simp +contextual [splitOnce]
    · cases l with
      | nil => simp [splitOnce, hc]
      | cons d l =>
        simp only [splitOnce, hc, if_false, Option.map_eq_some_iff, Prod.exists, Prod.mk.injEq,
          List.cons.injEq, List.cons_append, List.mem_cons, not_or]
        constructor
        · rintro ⟨l', r', h, ⟨rfl, rfl⟩, rfl⟩
          obtain ⟨hs, hl⟩ := ih.mp h
          exact ⟨⟨rfl, hs⟩, Ne.symm hc, hl⟩
        · rintro ⟨⟨rfl, hs⟩, -, hl⟩
          exact ⟨l, r, ih.mpr ⟨hs, hl⟩, ⟨rfl, rfl⟩, rfl⟩

/-- `str::strip_prefix`. -/
def stripStart (start s : List Char) : Option (List Char) :=
  if start.isPrefixOf s then some (s.drop start.length) else none

/-- A header value, which is not always text. -/
abbrev HeaderValue := List UInt8

/-- `HeaderValue::to_str`: visible ASCII, blanks and tabs only. -/
def headerToStr (value : HeaderValue) : Option (List Char) :=
  if value.all fun b ↦ (32 ≤ b && b < 127) || b = 9 then
    some (value.map fun b ↦ Char.ofNat b.toNat)
  else none

end Zaciraci.Lib
