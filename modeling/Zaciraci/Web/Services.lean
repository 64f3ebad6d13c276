import Zaciraci.Auth.Interceptor
import Zaciraci.Lib.Program
import Zaciraci.Persistence.Database

namespace Zaciraci.Web

open Lib Auth Persistence

/-- A row of `portfolio_holdings`, with the outcome of parsing its JSON column. -/
structure DbPortfolioHolding where
  timestamp : Time
  tokenHoldings : Except String (List TokenHolding)

inductive Query
  | getAllForInstance (instanceId : String)
  | getOne (instanceId key : String)
  | upsert (instanceId key value : String) (description : Option String)
  | delete (instanceId key : String)
  | cleanupOldHistory (retentionDays : UInt32)
  | getPaginated (page pageSize : ℤ)
  | countAll
  | getByPeriod (periodId : String)
  | getSpotRatesAtTime (tokens : List TokenAccount) (base : TokenAccount) (timestamp : Time)

abbrev Answer : Query → Type
  | .getAllForInstance _ => Except String (SortedMap String String)
  | .getOne .. => Except String (Option String)
  | .upsert .. | .delete .. | .cleanupOldHistory _ => Except String Unit
  | .getPaginated .. => Except String (List EvaluationPeriod)
  | .countAll => Except String ℤ
  | .getByPeriod _ => Except String (List DbPortfolioHolding)
  | .getSpotRatesAtTime .. => Except String (SortedMap TokenAccount ExchangeRate)

def Query.isWrite : Query → Bool
  | .upsert .. | .delete .. => true
  | _ => false

abbrev Handler := Program Query Answer Status

structure ConfigEntry where
  key : String
  value : String
  instanceId : String

structure KeyDefinition where
  key : String
  description : String
  valueType : String
  resolvedValue : String

structure PeriodEntry where
  periodId : String
  startSeconds : ℤ
  initialValue : BigDecimal
  selectedTokens : List String

structure HoldingEntry where
  token : String
  balance : BigDecimal
  decimals : ℕ
  valueWnear : BigDecimal

structure HoldingsEntry where
  seconds : ℤ
  tokenHoldings : List HoldingEntry
  totalValueWnear : BigDecimal

/-- The calls of `ConfigService` and `PortfolioService`. -/
inductive Rpc
  | getAll (instanceId : String)
  | getOne (instanceId key : String)
  | upsert (instanceId key value : String) (description : Option String)
  | delete (instanceId key : String)
  | listKeyDefinitions
  | getEvaluationPeriods (page pageSize : ℤ)
  | getPortfolioHoldings (periodId : String)

inductive Response
  | entries (entries : List ConfigEntry)
  | value (value : Option String)
  | done
  | definitions (definitions : List KeyDefinition)
  | periods (periods : List PeriodEntry) (totalCount : ℤ)
  | holdings (holdings : List HoldingsEntry)

structure Service where
  wnear : TokenAccount
  historyRetentionDays : UInt32
  resolved : List KeyDefinition

def requireReader (user : Option AuthenticatedUser) : Except Status AuthenticatedUser :=
  okOr AuthError.missingToken.toStatus user

def requireWriter (user : Option AuthenticatedUser) : Except Status AuthenticatedUser := do
  let user ← okOr AuthError.missingToken.toStatus user
  ensure user.canWrite AuthError.insufficientRole.toStatus
  return user

def internalError : Status := ⟨.internal, "internal error"⟩

def invalidArgument (message : String) : Status := ⟨.invalidArgument, message⟩

def resolveInstanceId (instanceId : String) : String := if instanceId = "" then "*" else instanceId

def orInternal {α : Type} (reply : Except String α) : Handler α :=
  .ofExcept (reply.mapError fun _ ↦ internalError)

def seconds (t : Time) : ℤ := t / 10 ^ 9

def periodToProto (period : EvaluationPeriod) : PeriodEntry where
  periodId := period.periodId
  startSeconds := seconds period.startTime
  initialValue := period.initialValue
  selectedTokens := (period.selectedTokens.getD []).filterMap id

def holdingToProto (wnear : TokenAccount) (rates : SortedMap TokenAccount ExchangeRate)
    (holding : TokenHolding) : Except Status HoldingEntry := do
  let amount : TokenAmount := ⟨holding.balance, holding.decimals⟩
  let missing : Status :=
    ⟨.failedPrecondition, s!"No rates found for {holding.token} at holding timestamp"⟩
  let rate ← okOr missing
    (if holding.token = wnear then some .wnear else rates.get holding.token)
  return ⟨holding.token.account, holding.balance, holding.decimals,
    amount.value rate * yoctoPerNear⟩

def dbHoldingToProto (wnear : TokenAccount) (timestamp : Time) (parsed : List TokenHolding)
    (rates : SortedMap TokenAccount ExchangeRate) : Except Status HoldingsEntry := do
  let tokenHoldings ← parsed.mapM' (holdingToProto wnear rates)
  return ⟨seconds timestamp, tokenHoldings, (tokenHoldings.map (·.valueWnear)).sum⟩

def parseAndFetchRates (wnear : TokenAccount) (holding : DbPortfolioHolding) :
    Handler (List TokenHolding × SortedMap TokenAccount ExchangeRate) := do
  let parsed ← orInternal holding.tokenHoldings
  let tokens := (parsed.filter (·.token ≠ wnear)).map (·.token)
  if tokens = [] then return (parsed, .empty)
  else
    let rates ← orInternal (← .perform (Query.getSpotRatesAtTime tokens wnear holding.timestamp))
    return (parsed, rates)

namespace Service

def getAll (user : Option AuthenticatedUser) (instanceId : String) : Handler Response := do
  let _ ← .ofExcept (requireReader user)
  let instanceId := resolveInstanceId instanceId
  let configs ← orInternal (← .perform (Query.getAllForInstance instanceId))
  return .entries (configs.entries.map fun e ↦ ⟨e.1, e.2, instanceId⟩)

def getOne (user : Option AuthenticatedUser) (instanceId key : String) : Handler Response := do
  let _ ← .ofExcept (requireReader user)
  .ofExcept (ensure (key ≠ "") (invalidArgument "key must not be empty"))
  let value ← orInternal (← .perform (Query.getOne (resolveInstanceId instanceId) key))
  return .value value

def upsert (svc : Service) (user : Option AuthenticatedUser) (instanceId key value : String)
    (description : Option String) : Handler Response := do
  let _ ← .ofExcept (requireWriter user)
  .ofExcept (ensure (key ≠ "") (invalidArgument "key must not be empty"))
  orInternal
    (← .perform (Query.upsert (resolveInstanceId instanceId) key value description))
  let _ ← .perform (Query.cleanupOldHistory svc.historyRetentionDays)
  return .done

def delete (svc : Service) (user : Option AuthenticatedUser) (instanceId key : String) :
    Handler Response := do
  let _ ← .ofExcept (requireWriter user)
  .ofExcept (ensure (key ≠ "") (invalidArgument "key must not be empty"))
  orInternal (← .perform (Query.delete (resolveInstanceId instanceId) key))
  let _ ← .perform (Query.cleanupOldHistory svc.historyRetentionDays)
  return .done

def listKeyDefinitions (svc : Service) (user : Option AuthenticatedUser) : Handler Response := do
  let _ ← .ofExcept (requireReader user)
  return .definitions (svc.resolved.map fun d ↦
    { d with description := String.ofList (trim d.description.toList) })

def getEvaluationPeriods (user : Option AuthenticatedUser) (page pageSize : ℤ) :
    Handler Response := do
  let _ ← .ofExcept (requireReader user)
  let periods ← orInternal
    (← .perform (Query.getPaginated (max page 0) (max 1 (min pageSize 200))))
  let totalCount ← orInternal (← .perform Query.countAll)
  return .periods (periods.map periodToProto) totalCount

def getPortfolioHoldings (svc : Service) (user : Option AuthenticatedUser) (periodId : String) :
    Handler Response := do
  let _ ← .ofExcept (requireReader user)
  .ofExcept (ensure (periodId ≠ "") (invalidArgument "period_id must not be empty"))
  let dbHoldings ← orInternal (← .perform (Query.getByPeriod periodId))
  let holdings ← dbHoldings.mapM' fun holding ↦ do
    let (parsed, rates) ← parseAndFetchRates svc.wnear holding
    .ofExcept (dbHoldingToProto svc.wnear holding.timestamp parsed rates)
  return .holdings holdings

def handle (svc : Service) (user : Option AuthenticatedUser) : Rpc → Handler Response
  | .getAll instanceId => getAll user instanceId
  | .getOne instanceId key => getOne user instanceId key
  | .upsert instanceId key value description => svc.upsert user instanceId key value description
  | .delete instanceId key => svc.delete user instanceId key
  | .listKeyDefinitions => svc.listKeyDefinitions user
  | .getEvaluationPeriods page pageSize => getEvaluationPeriods user page pageSize
  | .getPortfolioHoldings periodId => svc.getPortfolioHoldings user periodId

variable {Key : Type}

/-- A request to one of the two services, behind the interceptor. -/
def serve (svc : Service) (lib : JsonWebToken Key) (clock : Clock)
    (auth : GoogleAuthenticator Key) (metadata : Metadata) (rpc : Rpc) : Handler Response := do
  let user ← .ofExcept (intercept lib clock auth metadata)
  svc.handle (some user) rpc

end Service

section AccessControl

open Program

abbrev ReadsOnly {α : Type} (p : Handler α) : Prop := Uses (fun q ↦ q.isWrite = false) p

theorem readsOnly_orInternal {α : Type} (reply : Except String α) :
    ReadsOnly (orInternal reply) := uses_ofExcept _

theorem readsOnly_query {α : Type} {q : Query} (hq : q.isWrite = false) {f : Answer q → Handler α}
    (hf : ∀ a, ReadsOnly (f a)) : ReadsOnly (perform q >>= f) := ⟨hq, hf⟩

theorem readsOnly_parseAndFetchRates (wnear : TokenAccount) (holding : DbPortfolioHolding) :
    ReadsOnly (parseAndFetchRates wnear holding) := by
  refine (readsOnly_orInternal _).bind fun parsed ↦ ?_
  dsimp only
  split_ifs
  · trivial
  · refine readsOnly_query rfl fun reply ↦ ?_
    exact (readsOnly_orInternal reply).bind fun _ ↦ trivial

theorem readsOnly_of_requireWriter {user : AuthenticatedUser} (h : user.role.canWrite = false)
    (f : AuthenticatedUser → Handler Response) :
    ReadsOnly (do let u ← .ofExcept (requireWriter (some user)); f u) := by
  have hensure : ensure user.canWrite AuthError.insufficientRole.toStatus =
      .error AuthError.insufficientRole.toStatus := if_neg (by simp [AuthenticatedUser.canWrite, h])
  have herror : requireWriter (some user) = .error AuthError.insufficientRole.toStatus := by
    change (ensure user.canWrite _ >>= fun _ ↦ pure user) = _
    rw [hensure]
    rfl
  rw [herror]
  trivial

theorem readsOnly_handle (svc : Service) {user : AuthenticatedUser}
    (h : user.role.canWrite = false) (rpc : Rpc) : ReadsOnly (svc.handle (some user) rpc) := by
  cases rpc with
  | getAll instanceId =>
    refine (uses_ofExcept _).bind fun _ ↦ readsOnly_query rfl fun _ ↦ ?_
    exact (readsOnly_orInternal _).bind fun _ ↦ trivial
  | getOne instanceId key =>
    refine (uses_ofExcept _).bind fun _ ↦ (uses_ofExcept _).bind fun _ ↦
      readsOnly_query rfl fun _ ↦ ?_
    exact (readsOnly_orInternal _).bind fun _ ↦ trivial
  | upsert instanceId key value description => exact readsOnly_of_requireWriter h _
  | delete instanceId key => exact readsOnly_of_requireWriter h _
  | listKeyDefinitions => exact (uses_ofExcept _).bind fun _ ↦ trivial
  | getEvaluationPeriods page pageSize =>
    refine (uses_ofExcept _).bind fun _ ↦ readsOnly_query rfl fun _ ↦
      (readsOnly_orInternal _).bind fun _ ↦ readsOnly_query rfl fun _ ↦ ?_
    exact (readsOnly_orInternal _).bind fun _ ↦ trivial
  | getPortfolioHoldings periodId =>
    refine (uses_ofExcept _).bind fun _ ↦ (uses_ofExcept _).bind fun _ ↦
      readsOnly_query rfl fun _ ↦ (readsOnly_orInternal _).bind fun _ ↦ ?_
    refine (uses_mapM (fun holding ↦ ?_) _).bind fun _ ↦ trivial
    exact (readsOnly_parseAndFetchRates _ _).bind fun _ ↦ uses_ofExcept _

variable {Key : Type}

def Authorised (lib : JsonWebToken Key) (clock : Clock) (auth : GoogleAuthenticator Key)
    (metadata : Metadata) (user : AuthenticatedUser) : Prop :=
  ∃ token claims, Bears metadata token ∧
    Accepts lib clock auth.clientId auth.jwks token claims ∧
    Email.new claims.email = .ok user.email ∧ lookup auth.users user.email = some user.role

/-- A change of the configuration needs a writer's token, and any answer a registered user's. -/
theorem access_control {lib : JsonWebToken Key} (hlib : lib.Sound) (svc : Service)
    (clock : Clock) (auth : GoogleAuthenticator Key) (metadata : Metadata) (rpc : Rpc) :
    (svc.serve lib clock auth metadata rpc).Always fun τ o ↦
      ((∃ x ∈ τ, x.request.isWrite = true) →
        ∃ user, Authorised lib clock auth metadata user ∧ user.role.canWrite = true) ∧
      ∀ response, o = .ok response → ∃ user, Authorised lib clock auth metadata user := by
  rw [Service.serve]
  cases hcall : intercept lib clock auth metadata with
  | error status => simp
  | ok user =>
    have huser : Authorised lib clock auth metadata user := intercept_eq_ok hlib hcall
    intro τ o hexec
    refine ⟨?_, fun _ _ ↦ ⟨user, huser⟩⟩
    intro ⟨x, hx, hwrite⟩
    refine ⟨user, huser, ?_⟩
    by_contra hrole
    have hreads := readsOnly_handle svc (Bool.eq_false_of_not_eq_true hrole) rpc
    have hread := hreads.always τ o hexec x hx
    simp [hwrite] at hread

def aliceClaims : Claims := ⟨alice.text, true, 4000⟩

def alicePayload : Payload :=
  ⟨["accounts.google.com"], ["client"], some "1", some 5000, none, aliceClaims⟩

def aliceToken : String := "aGVhZGVy.cGF5bG9hZA.c2lnbmF0dXJl"

/-- A library that knows one token, at one moment. -/
def oneToken : JsonWebToken Unit where
  decodeHeader token :=
    if token = aliceToken then .ok ⟨.rs256, some "k"⟩ else .error "InvalidToken"
  decode token _ validation now :=
    if token = aliceToken ∧ validation = idTokenValidation "client" ∧ now = 4500 then
      .ok aliceClaims
    else .error "InvalidToken"
  verifies alg _ token := alg = .rs256 ∧ token = aliceToken
  payload token := if token = aliceToken then some alicePayload else none

theorem oneToken_sound : oneToken.Sound := by
  refine ⟨fun token key validation now claims h ↦ ?_⟩
  simp only [oneToken] at h
  split_ifs at h with hknown
  obtain ⟨rfl, rfl, rfl⟩ := hknown
  cases h
  refine ⟨⟨.rs256, .head _, rfl, rfl⟩, alicePayload, by simp [oneToken], rfl, ?_⟩
  exact
    { iss := ⟨"accounts.google.com", .head _, .tail _ (.head _)⟩
      aud := ⟨"client", .head _, .head _⟩
      exp := fun _ _ ↦ ⟨5000, rfl, by decide⟩
      nbf := fun _ nbf h ↦ by cases h
      sub := fun _ ↦ rfl }

def aliceAuthenticator : GoogleAuthenticator Unit where
  clientId := "client"
  jwks := ⟨SortedMap.empty.insert "k" (), some 0, some (fromSecs 3600)⟩
  users := fromEntries [(alice, .writer)]

def aliceMetadata : Metadata :=
  [("authorization", ("bearer " ++ aliceToken).toList.map fun c ↦ c.toNat.toUInt8)]

def aliceClock : Clock := ⟨4500, some 4500⟩

theorem intercept_alice :
    intercept oneToken aliceClock aliceAuthenticator aliceMetadata = .ok ⟨alice, .writer⟩ := by
  have htoken : extractBearerToken aliceMetadata = .ok aliceToken := rfl
  have hclaims : validateIdToken oneToken aliceClock aliceToken aliceAuthenticator.clientId
      aliceAuthenticator.jwks = .ok aliceClaims := rfl
  have hemail : Email.new aliceClaims.email = .ok alice := Email.new_text alice
  have hrole : lookup aliceAuthenticator.users alice = some .writer := by
    simp [lookup, aliceAuthenticator, fromEntries]
  simp only [intercept, authenticate, except_bind_eq_ok, mapError_eq_ok, okOr_eq_ok]
  exact ⟨aliceToken, htoken, aliceClaims, hclaims, alice, hemail, .writer, hrole, rfl⟩

def mainnetService : Service := ⟨wnearToken true, 90, []⟩

def disableTrading : Handler Response :=
  mainnetService.serve oneToken aliceClock aliceAuthenticator aliceMetadata
    (.upsert "" "TRADE_ENABLED" "false" none)

theorem exec_disableTrading :
    Exec disableTrading [⟨.upsert "*" "TRADE_ENABLED" "false" none, .ok ()⟩,
      ⟨.cleanupOldHistory 90, .ok ()⟩] (.ok .done) := by
  rw [disableTrading, Service.serve, intercept_alice]
  exact .ask _ (.ask _ (.done _))

/-- A writer's request reaches the database. -/
theorem disableTrading_authorised :
    ∃ user, Authorised oneToken aliceClock aliceAuthenticator aliceMetadata user ∧
      user.role.canWrite = true :=
  (access_control oneToken_sound _ _ _ _ _ _ _ exec_disableTrading).1 ⟨_, .head _, rfl⟩

end AccessControl

end Zaciraci.Web
