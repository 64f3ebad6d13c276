import Mathlib.Data.String.Basic
import Mathlib.Data.List.Sort
import Zaciraci.Lib.RustStd
import Zaciraci.Lib.SortedMap
import Zaciraci.Lib.Text

namespace Zaciraci.Auth

open Lib

/-- The canonical form of an address: one `@` with text on both sides, without blanks, control
characters and ASCII capitals. -/
structure IsCanonical (s : List Char) : Prop where
  parts : ∃ name domain, s = name ++ '@' :: domain ∧ name ≠ [] ∧ domain ≠ [] ∧
    '@' ∉ name ∧ '@' ∉ domain
  plain : ∀ c ∈ s, (isControl c || isWhitespace c) = false
  lower : ∀ c ∈ s, c.toLower = c

structure Email where
  text : String
  canonical : IsCanonical text.toList

inductive ParseEmailError
  | empty
  | invalidCharacter
  | missingAtSign
  | multipleAtSigns
  | emptyPart
deriving DecidableEq

def ParseEmailError.message : ParseEmailError → String
  | .empty => "email is empty"
  | .invalidCharacter => "email contains whitespace or control characters"
  | .missingAtSign => "email is missing the '@' separator"
  | .multipleAtSigns => "email contains multiple '@' separators"
  | .emptyPart => "email local or domain part is empty"

theorem at_notMem_map_toLower {s : List Char} (h : '@' ∉ s) : '@' ∉ s.map Char.toLower := by
  simpa [toLower_eq_at] using h

theorem isCanonical_map_toLower {s name domain : List Char}
    (hplain : (s.any fun c ↦ isControl c || isWhitespace c) = false)
    (hsplit : splitOnce '@' s = some (name, domain)) (hparts : ¬(name = [] ∨ domain = []))
    (hdomain : '@' ∉ domain) : IsCanonical (s.map Char.toLower) := by
  obtain ⟨rfl, hname⟩ := splitOnce_eq_some.mp hsplit
  rw [not_or] at hparts
  refine ⟨⟨name.map Char.toLower, domain.map Char.toLower, by simp, ?_, ?_, ?_, ?_⟩, ?_, ?_⟩
  · simpa using hparts.1
  · simpa using hparts.2
  · exact at_notMem_map_toLower hname
  · exact at_notMem_map_toLower hdomain
  · intro c hc
    obtain ⟨d, hd, rfl⟩ := List.mem_map.mp hc
    exact isPlain_toLower (by simpa using List.any_eq_false.mp hplain d hd)
  · intro c hc
    obtain ⟨d, -, rfl⟩ := List.mem_map.mp hc
    exact Char.toLower_toLower_eq_toLower d

namespace Email

theorem text_injective : Function.Injective Email.text := by
  rintro ⟨s, hs⟩ ⟨t, ht⟩ rfl
  rfl

instance : LinearOrder Email := LinearOrder.lift' text text_injective

def new (input : String) : Except ParseEmailError Email :=
  let trimmed := trim input.toList
  if trimmed = [] then .error .empty
  else if hplain : (trimmed.any fun c ↦ isControl c || isWhitespace c) = true then
    .error .invalidCharacter
  else match hsplit : splitOnce '@' trimmed with
    | none => .error .missingAtSign
    | some (name, domain) =>
      if hparts : name = [] ∨ domain = [] then .error .emptyPart
      else if hdomain : '@' ∈ domain then .error .multipleAtSigns
      else .ok ⟨String.ofList (trimmed.map Char.toLower), by
        rw [String.toList_ofList]
        exact isCanonical_map_toLower (by simpa using hplain) hsplit hparts hdomain⟩

theorem new_text (e : Email) : new e.text = .ok e := by
  obtain ⟨name, domain, hs, hname, hdomain, hatName, hatDomain⟩ := e.canonical.parts
  have htrim : trim e.text.toList = e.text.toList := by
    apply trim_eq_self
    intro c hc
    exact (Bool.or_eq_false_iff.mp (e.canonical.plain c hc)).2
  have hsplit : splitOnce '@' e.text.toList = some (name, domain) :=
    splitOnce_eq_some.mpr ⟨hs, hatName⟩
  have hlower : e.text.toList.map Char.toLower = e.text.toList :=
    List.map_congr_left (g := id) e.canonical.lower |>.trans (by simp)
  have hplain : (e.text.toList.any fun c ↦ isControl c || isWhitespace c) = false := by
    simpa using e.canonical.plain
  rw [new]
  simp only [htrim]
  rw [if_neg (by simp [hs]), dif_neg (by simp [hplain])]
  split
  · simp_all
  · next n d h =>
    obtain ⟨rfl, rfl⟩ : name = n ∧ domain = d := by simpa [htrim, hsplit] using h
    rw [dif_neg (by simp [hname, hdomain]), dif_neg hatDomain]
    congr
    simp [hlower]

end Email

def alice : Email where
  text := "alice@example.com"
  canonical :=
    { parts := ⟨"alice".toList, "example.com".toList, by decide⟩
      plain := List.forall_mem_iff_forall_getElem.2 (by decide)
      lower := List.forall_mem_iff_forall_getElem.2 (by decide) }

inductive Role
  | reader
  | writer
deriving DecidableEq

def Role.canWrite : Role → Bool
  | .reader => false
  | .writer => true

def Role.fromStr (s : String) : Option Role :=
  if s = "reader" then some .reader else if s = "writer" then some .writer else none

structure AuthenticatedUser where
  email : Email
  role : Role

def AuthenticatedUser.canWrite (user : AuthenticatedUser) : Bool := user.role.canWrite

structure DbAuthorizedUser where
  email : String
  role : String
deriving DecidableEq

def listAllHardLimit : ℕ := 10000

def toEntry (user : DbAuthorizedUser) : Option (Email × Role) := do
  let email ← (Email.new user.email).toOption
  let role ← Role.fromStr user.role
  return (email, role)

def listAll (table : List DbAuthorizedUser) : Except String (List (Email × Role)) :=
  let results := (table.insertionSort fun a b ↦ a.email ≤ b.email).take (listAllHardLimit + 1)
  if listAllHardLimit < results.length then
    .error (s!"authorized_users row count exceeds hard limit ({listAllHardLimit}); " ++
      "refusing to load to avoid runaway memory use")
  else .ok (results.filterMap toEntry)

/-- The snapshot in a `UserCache`. A later entry for an address replaces an earlier one. -/
def fromEntries (entries : List (Email × Role)) : SortedMap Email Role :=
  entries.foldl (fun users e ↦ users.insert e.1 e.2) .empty

def lookup (users : SortedMap Email Role) (email : Email) : Option Role := users.get email

end Zaciraci.Auth
