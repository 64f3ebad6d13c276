import Mathlib.Data.String.Basic
import Mathlib.Order.Lattice

namespace Zaciraci

abbrev AccountId := String

/-- A token is named by the account of its contract. The wrappers `TokenInAccount` and
`TokenOutAccount` of the source carry the same name and convert freely. -/
structure TokenAccount where
  account : AccountId
deriving Repr

namespace TokenAccount

theorem account_injective : Function.Injective TokenAccount.account := by
  rintro ⟨a⟩ ⟨b⟩ h
  exact congrArg TokenAccount.mk h

instance : LinearOrder TokenAccount := LinearOrder.lift' account account_injective

instance : ToString TokenAccount := ⟨account⟩

end TokenAccount

def wnearToken (isMainnet : Bool) : TokenAccount :=
  ⟨if isMainnet then "wrap.near" else "wrap.testnet"⟩

end Zaciraci
