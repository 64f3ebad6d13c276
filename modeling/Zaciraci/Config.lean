import Zaciraci.Lib.RustStd

namespace Zaciraci.Config

open Lib

/-- The places a configuration value can come from, each a map from key to text. -/
structure Sources where
  configStore : String → Option String
  dbStore : String → Option String
  env : String → Option String

def getFromEnv (src : Sources) (name : String) : Except String String :=
  match src.env name with
  | some value =>
    if value = "" then .error s!"Configuration key not found: {name}" else .ok value
  | none => .error s!"Configuration key not found: {name}"

/-- The priority chain `CONFIG_STORE > DB_STORE > env`. An empty text in one of the two
stores is an error and does not fall through to the next source. -/
def get (src : Sources) (name : String) : Except String String :=
  match src.configStore name with
  | some value => if value = "" then .error s!"{name} is empty" else .ok value
  | none =>
    match src.dbStore name with
    | some value => if value = "" then .error s!"{name} is empty" else .ok value
    | none => getFromEnv src name

/-- The numeric `resolve`: an absent or unreadable value gives the default. -/
def resolve {α : Type} (parse : String → Option α) (src : Sources) (key : String) (default : α) :
    α :=
  match get src key with
  | .ok value => (parse value).getD default
  | .error _ => default

def refStorageMaxTopUpYoctonear (src : Sources) : ℕ :=
  resolve (parseUnsigned u128Bound) src "REF_STORAGE_MAX_TOP_UP_YOCTONEAR"
    500000000000000000000000

def refStorageMaxTopUpAbsoluteCeiling : ℕ := 5000000000000000000000000

end Zaciraci.Config
