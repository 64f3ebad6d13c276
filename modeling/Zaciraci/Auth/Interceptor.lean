import Zaciraci.Auth.Jwks
import Zaciraci.Auth.User

namespace Zaciraci.Auth

open Lib

inductive AuthError
  | missingToken
  | invalidToken (detail : String)
  | emailNotVerified
  | userNotRegistered
  | insufficientRole
  | jwksUnavailable
deriving DecidableEq

inductive Algorithm
  | hs256 | hs384 | hs512 | es256 | es384 | rs256 | rs384 | rs512 | ps256 | ps384 | ps512 | edDsa
deriving DecidableEq

def Algorithm.debug : Algorithm → String
  | .hs256 => "HS256"
  | .hs384 => "HS384"
  | .hs512 => "HS512"
  | .es256 => "ES256"
  | .es384 => "ES384"
  | .rs256 => "RS256"
  | .rs384 => "RS384"
  | .rs512 => "RS512"
  | .ps256 => "PS256"
  | .ps384 => "PS384"
  | .ps512 => "PS512"
  | .edDsa => "EdDSA"

structure JwtHeader where
  alg : Algorithm
  kid : Option String

structure Claims where
  email : String
  emailVerified : Bool
  iat : ℕ

/-- The payload of a token. Issuer and audience may be lists, absent ones are empty. -/
structure Payload where
  iss : List String
  aud : List String
  sub : Option String
  exp : Option ℕ
  nbf : Option ℕ
  claims : Claims

structure Validation where
  algorithms : List Algorithm
  leeway : ℕ
  audience : List String
  issuer : List String
  validateExp : Bool
  validateNbf : Bool
  requiredSpecClaims : List String
deriving DecidableEq

/-- The library `jsonwebtoken`, where `decode` also gets the time it reads from the clock.
`verifies` and `payload` say what its results are about. -/
structure JsonWebToken (Key : Type) where
  decodeHeader : String → Except String JwtHeader
  decode : String → Key → Validation → ℕ → Except String Claims
  verifies : Algorithm → Key → String → Prop
  payload : String → Option Payload

/-- The checks of the registered claims at the time `now`. -/
structure Payload.Passes (payload : Payload) (validation : Validation) (now : ℕ) : Prop where
  iss : ∃ iss ∈ payload.iss, iss ∈ validation.issuer
  aud : ∃ aud ∈ payload.aud, aud ∈ validation.audience
  exp : validation.validateExp = true → "exp" ∈ validation.requiredSpecClaims →
    ∃ exp, payload.exp = some exp ∧ now ≤ exp + validation.leeway
  nbf : validation.validateNbf = true → ∀ nbf, payload.nbf = some nbf →
    nbf ≤ now + validation.leeway
  sub : "sub" ∈ validation.requiredSpecClaims → payload.sub.isSome

/-- A token is decoded only if one of the accepted algorithms verifies its signature and its
claims pass. -/
structure JsonWebToken.Sound {Key : Type} (lib : JsonWebToken Key) : Prop where
  decode : ∀ token key validation now claims,
    lib.decode token key validation now = .ok claims →
      (∃ alg ∈ validation.algorithms, lib.verifies alg key token) ∧
        ∃ payload, lib.payload token = some payload ∧ payload.claims = claims ∧
          payload.Passes validation now

def acceptedAlgorithm : Algorithm := .rs256

def leewaySeconds : ℕ := 60

def maxTokenAgeSeconds : ℕ := 60 * 60

def acceptedIssuers : List String := ["https://accounts.google.com", "accounts.google.com"]

def idTokenValidation (clientId : String) : Validation where
  algorithms := [acceptedAlgorithm]
  leeway := leewaySeconds
  audience := [clientId]
  issuer := acceptedIssuers
  validateExp := true
  validateNbf := true
  requiredSpecClaims := ["exp", "aud", "iss", "sub", "iat"]

/-- The readings of the clock during one call. The system clock may stand before the epoch. -/
structure Clock where
  decodeNow : ℕ
  systemNow : Option ℕ

def saturatingAddU64 (a b : ℕ) : ℕ := min (a + b) (2 ^ 64 - 1)

variable {Key : Type}

def validateIdToken (lib : JsonWebToken Key) (clock : Clock) (token clientId : String)
    (jwks : CachedJwks Key) : Except AuthError Claims := do
  ensure (clientId ≠ "") (.invalidToken "auth disabled: client_id not configured")
  let header ← (lib.decodeHeader token).mapError fun e ↦ .invalidToken s!"decode_header: {e}"
  ensure (header.alg = acceptedAlgorithm)
    (.invalidToken s!"unsupported alg: {header.alg.debug}")
  let kid ← okOr (.invalidToken "missing kid") header.kid
  let key ← okOr (if jwks.isEmpty then .jwksUnavailable else .invalidToken "unknown kid")
    (jwks.get kid)
  let claims ← (lib.decode token key (idTokenValidation clientId) clock.decodeNow).mapError
    fun e ↦ .invalidToken s!"decode: {e}"
  let now ← okOr (.invalidToken "system clock before unix epoch") clock.systemNow
  ensure (claims.iat ≤ saturatingAddU64 now leewaySeconds) (.invalidToken "iat is in the future")
  ensure (now - claims.iat ≤ saturatingAddU64 maxTokenAgeSeconds leewaySeconds)
    (.invalidToken "token too old")
  ensure claims.emailVerified .emailNotVerified
  return claims

structure Accepts (lib : JsonWebToken Key) (clock : Clock) (clientId : String)
    (jwks : CachedJwks Key) (token : String) (claims : Claims) : Prop where
  configured : clientId ≠ ""
  signed : ∃ kid key, lib.decodeHeader token = .ok ⟨.rs256, some kid⟩ ∧
    jwks.get kid = some key ∧ lib.verifies .rs256 key token
  payload : ∃ payload, lib.payload token = some payload ∧ payload.claims = claims ∧
    (∃ iss ∈ payload.iss, iss ∈ acceptedIssuers) ∧ clientId ∈ payload.aud ∧
    (∃ exp, payload.exp = some exp ∧ clock.decodeNow ≤ exp + 60) ∧
    ∀ nbf, payload.nbf = some nbf → nbf ≤ clock.decodeNow + 60
  iat : ∃ now, clock.systemNow = some now ∧ now ≤ claims.iat + 3660 ∧ claims.iat ≤ now + 60
  emailVerified : claims.emailVerified = true

theorem accepts_of_validateIdToken {lib : JsonWebToken Key} (hlib : lib.Sound) {clock : Clock}
    {clientId token : String} {jwks : CachedJwks Key} {claims : Claims}
    (h : validateIdToken lib clock token clientId jwks = .ok claims) :
    Accepts lib clock clientId jwks token claims := by
  simp only [validateIdToken, except_bind_eq_ok, mapError_eq_ok, okOr_eq_ok, ensure_eq_ok] at h
  obtain ⟨-, hclient, ⟨alg, _⟩, hheader, -, rfl, kid, rfl, key, hkey, decoded, hdecode, now, hnow,
    -, hfuture, -, hage, -, hverified, hclaims⟩ := h
  cases hclaims
  obtain ⟨⟨alg, halg, hverifies⟩, payload, hpayload, hclaims, hpass⟩ :=
    hlib.decode _ _ _ _ _ hdecode
  obtain rfl : alg = .rs256 := List.mem_singleton.mp halg
  obtain ⟨aud, haud, haud'⟩ := hpass.aud
  obtain rfl : aud = clientId := List.mem_singleton.mp haud'
  simp only [saturatingAddU64, leewaySeconds, maxTokenAgeSeconds] at hfuture hage
  refine ⟨hclient, ⟨kid, key, hheader, hkey, hverifies⟩, ?_, ⟨now, hnow, by omega, by omega⟩,
    hverified⟩
  exact ⟨payload, hpayload, hclaims, hpass.iss, haud, hpass.exp rfl (.head _), hpass.nbf rfl⟩

structure GoogleAuthenticator (Key : Type) where
  clientId : String
  jwks : CachedJwks Key
  users : SortedMap Email Role

def authenticate (lib : JsonWebToken Key) (clock : Clock) (auth : GoogleAuthenticator Key)
    (bearerToken : String) : Except AuthError AuthenticatedUser := do
  let claims ← validateIdToken lib clock bearerToken auth.clientId auth.jwks
  let email ← (Email.new claims.email).mapError fun e ↦
    .invalidToken s!"email parse failed: {e.message}"
  let role ← okOr .userNotRegistered (lookup auth.users email)
  return ⟨email, role⟩

abbrev Metadata := List (String × HeaderValue)

def extractBearerToken (metadata : Metadata) : Except AuthError String := do
  let value ← okOr .missingToken (metadata.lookup "authorization")
  let text ← okOr (.invalidToken "non-ascii authorization header") (headerToStr value)
  let scheme := text.take "Bearer".length
  let afterScheme := text.drop "Bearer".length
  ensure (scheme.map Char.toLower = "Bearer".toList.map Char.toLower ∧
    afterScheme.head? = some ' ') (.invalidToken "missing Bearer prefix")
  let token := trim (text.drop ("Bearer".length + 1))
  ensure (token ≠ []) (.invalidToken "empty bearer token")
  return String.ofList token

/-- A header with the scheme `Bearer` in any case, one space and the token. -/
structure Bears (metadata : Metadata) (token : String) : Prop where
  header : ∃ value scheme rest, metadata.lookup "authorization" = some value ∧
    headerToStr value = some (scheme ++ ' ' :: rest) ∧
    scheme.map Char.toLower = "bearer".toList ∧ token = String.ofList (trim rest)
  nonempty : token ≠ ""

theorem bears_of_extractBearerToken {metadata : Metadata} {token : String}
    (h : extractBearerToken metadata = .ok token) : Bears metadata token := by
  simp only [extractBearerToken, except_bind_eq_ok, okOr_eq_ok, ensure_eq_ok] at h
  obtain ⟨value, hvalue, text, htext, -, ⟨hscheme, hspace⟩, -, hnonempty, htoken⟩ := h
  cases htoken
  obtain ⟨rest, hrest⟩ := List.head?_eq_some_iff.mp hspace
  have hdrop : text.drop ("Bearer".length + 1) = rest := by
    rw [← List.drop_drop, hrest, List.drop_one, List.tail_cons]
  refine ⟨⟨value, text.take "Bearer".length, rest, hvalue, ?_, hscheme, by rw [hdrop]⟩, ?_⟩
  · rw [htext, ← hrest, List.take_append_drop]
  · simpa using hnonempty

inductive Code
  | unauthenticated
  | permissionDenied
  | unavailable
  | invalidArgument
  | failedPrecondition
  | internal
deriving DecidableEq

structure Status where
  code : Code
  message : String
deriving DecidableEq

def AuthError.toStatus : AuthError → Status
  | .missingToken | .invalidToken _ | .emailNotVerified | .userNotRegistered =>
    ⟨.unauthenticated, "authentication required"⟩
  | .insufficientRole => ⟨.permissionDenied, "insufficient permissions"⟩
  | .jwksUnavailable => ⟨.unavailable, "auth service temporarily unavailable"⟩

/-- `AuthInterceptor::call`: the user it puts into the extensions of the request. -/
def intercept (lib : JsonWebToken Key) (clock : Clock) (auth : GoogleAuthenticator Key)
    (metadata : Metadata) : Except Status AuthenticatedUser := do
  let token ← (extractBearerToken metadata).mapError AuthError.toStatus
  (authenticate lib clock auth token).mapError AuthError.toStatus

theorem intercept_eq_ok {lib : JsonWebToken Key} (hlib : lib.Sound) {clock : Clock}
    {auth : GoogleAuthenticator Key} {metadata : Metadata} {user : AuthenticatedUser}
    (h : intercept lib clock auth metadata = .ok user) :
    ∃ token claims, Bears metadata token ∧
      Accepts lib clock auth.clientId auth.jwks token claims ∧
      Email.new claims.email = .ok user.email ∧ lookup auth.users user.email = some user.role := by
  simp only [intercept, authenticate, except_bind_eq_ok, mapError_eq_ok, okOr_eq_ok] at h
  obtain ⟨token, htoken, claims, hclaims, email, hemail, role, hrole, huser⟩ := h
  cases huser
  exact ⟨token, claims, bears_of_extractBearerToken htoken,
    accepts_of_validateIdToken hlib hclaims, hemail, hrole⟩

end Zaciraci.Auth
