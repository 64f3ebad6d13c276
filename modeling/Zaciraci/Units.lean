import Mathlib.Data.BitVec
import Zaciraci.Lib.Decimal
import Zaciraci.Lib.RustStd
import Zaciraci.Types

namespace Zaciraci

open Lib

/-- A point in time or a span, in nanoseconds. -/
abbrev Time := ℤ

/-- Times are compared by what can be evaluated. -/
instance : Preorder Time := Int.instLinearOrder.toPreorder

def day : Time := 86400 * 10 ^ 9

/-- `TimeDelta::num_days`, which cuts off towards zero. -/
def numDays (span : Time) : ℤ := span.tdiv day

abbrev U128 := BitVec 128

abbrev BigDecimal := ℚ

namespace BigDecimal

/-- Division keeps a hundred significant digits. -/
def div (a b : BigDecimal) : BigDecimal :=
  if a / b < 0 then -roundSig quotientDigits (-(a / b)) else roundSig quotientDigits (a / b)

def trunc (q : BigDecimal) : ℤ := if q < 0 then -⌊-q⌋ else ⌊q⌋

/-- The integer part, if the value is not negative. -/
def toU128 (q : BigDecimal) : Option ℕ :=
  if 0 ≤ q ∧ ⌊q⌋ < u128Bound then some ⌊q⌋.toNat else none

theorem trunc_of_nonneg {q : BigDecimal} (h : 0 ≤ q) : trunc q = ⌊q⌋ := if_neg h.not_gt

theorem toU128_of_lt {q : BigDecimal} (h : 0 ≤ q) (hlt : q < u128Bound) :
    toU128 q = some ⌊q⌋₊ := by
  rw [toU128, if_pos ⟨h, Int.floor_lt.2 (by exact_mod_cast hlt)⟩, Int.floor_toNat]

theorem toU128_le {q : BigDecimal} {n : ℕ} (h : toU128 q = some n) : (n : ℚ) ≤ q := by
  rw [toU128] at h
  split_ifs at h with hrange
  cases h
  rw [Int.floor_toNat]
  exact Nat.floor_le hrange.1

end BigDecimal

def saturatingAdd (a b : ℕ) : ℕ := min (a + b) (u128Bound - 1)

def saturatingMul (a b : ℕ) : ℕ := min (a * b) (u128Bound - 1)

def yoctoPerNear : ℕ := 10 ^ 24

/-- A number of NEAR as yoctoNEAR, the amount `NearAmount::to_yocto` gives. -/
def nearToYocto (near : UInt32) : ℕ := near.toNat * yoctoPerNear

def yoctoToU128 (yocto : BigDecimal) : ℕ := (BigDecimal.toU128 yocto).getD 0

/-- How many of a token's smallest units one NEAR buys. -/
structure ExchangeRate where
  rawRate : BigDecimal
  decimals : ℕ
deriving DecidableEq, Repr

namespace ExchangeRate

def isZero (rate : ExchangeRate) : Bool := rate.rawRate = 0

def isEffectivelyZero (rate : ExchangeRate) : Bool := rate.rawRate < 1

def wnear : ExchangeRate := ⟨yoctoPerNear, 24⟩

def fromPrice (price : BigDecimal) (decimals : ℕ) : ExchangeRate :=
  if price = 0 then ⟨0, decimals⟩ else ⟨BigDecimal.div (10 ^ decimals) price, decimals⟩

def toPrice (rate : ExchangeRate) : BigDecimal :=
  if rate.isZero then 0 else BigDecimal.div (10 ^ rate.decimals) rate.rawRate

def scale (rate : ExchangeRate) (factor : BigDecimal) : ExchangeRate :=
  ⟨rate.rawRate * factor, rate.decimals⟩

end ExchangeRate

structure TokenAmount where
  smallestUnits : BigDecimal
  decimals : ℕ
deriving DecidableEq, Repr

namespace TokenAmount

def isZero (amount : TokenAmount) : Bool := amount.smallestUnits = 0

def value (amount : TokenAmount) (rate : ExchangeRate) : BigDecimal :=
  if rate.isZero then 0 else BigDecimal.div amount.smallestUnits rate.rawRate

def ofValue (near : BigDecimal) (rate : ExchangeRate) : TokenAmount :=
  ⟨if rate.isZero then 0 else near * rate.rawRate, rate.decimals⟩

end TokenAmount

def isSeparator (c : Char) : Bool := c = '-' || c = '_' || c = '.'

/-- Letters and digits, with single separators between them. -/
def wellFormedFrom : Bool → List Char → Bool
  | lastIsSeparator, [] => !lastIsSeparator
  | lastIsSeparator, c :: cs =>
    if ('a' ≤ c ∧ c ≤ 'z') ∨ ('0' ≤ c ∧ c ≤ '9') then wellFormedFrom false cs
    else isSeparator c && !lastIsSeparator && wellFormedFrom true cs

def parseAccountId (s : String) : Except String AccountId :=
  if s.length < 2 then .error "the Account ID is too short"
  else if 64 < s.length then .error "the Account ID is too long"
  else if wellFormedFrom true s.toList then .ok s
  else .error "the Account ID contains an invalid or a redundant character"

def parseToken (s : String) : Except String TokenAccount := (parseAccountId s).map .mk

end Zaciraci
