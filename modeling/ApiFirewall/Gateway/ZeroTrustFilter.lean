import ApiFirewall.Gateway.Services
import Mathlib.Algebra.Order.Floor.Defs

/-!
# The zero-trust filter

What the gateway does with one request: resolve the client, authenticate, look the client up in
the blocklist, read the body, advance the three counters at once, build and publish the signal,
and hand the request on, or have it scored first if it is high-risk. Where the program throws,
the source fails.
-/

namespace ApiFirewall.Gateway

open ApiFirewall.Wire ApiFirewall.KeyValue ApiFirewall.Reactive

/-- Library functions that the filter applies to texts and numbers. -/
structure Platform (K : Type) where
  /-- Read a text as a JSON object, if it is one. -/
  readMap : String → Option (List (Text × Json K))
  /-- The text of a double. -/
  showDouble : Double K → String

namespace ZeroTrustFilter

/-- Paths that need no credentials. -/
def publicPaths : List String := ["/api/auth/login", "/api/auth/register", "/actuator/health"]

/-- Marks of automation in a user agent. -/
def knownAutomationUaMarkers : List String :=
  ["python-requests", "curl/", "scrapy", "headlesschrome", "go-http-client"]

/-- The identity of the client: the first forwarded address, else the address of the peer. -/
def resolveClientIp (exchange : Exchange) : Option String :=
  let remote := exchange.remoteAddress.getD "unknown"
  match exchange.getFirst "X-Forwarded-For" with
  | some forwarded => if isBlank forwarded then some remote else (split ',' forwarded)[0]?.map trim
  | none => some remote

/-- Set the status and the header of a rejection, and continue. Both are set where the rejection
is assembled, which can be before the calls that it waits for. -/
def rejectHead {K : Type} (status : ℕ) (next : Program K Unit) : Program K Unit :=
  (Mono.await (Op.setStatusCode status)).flatMap fun _ =>
    (Mono.await (Op.addHeader "Content-Type" (some "application/json"))).flatMap fun _ => next

/-- Write the body of a rejection. -/
def rejectBody {K : Type} (reason : String) : Program K Unit :=
  Mono.await (Op.writeWith ("\x7b\"error\":\"" ++ reason ++ "\"\x7d"))

/-- Reject the request. -/
def reject {K : Type} (status : ℕ) (reason : String) : Program K Unit :=
  rejectHead status (rejectBody reason)

/-- The user agent is missing or marks an automated client. -/
def isKnownAutomationUa (exchange : Exchange) : Bool :=
  match exchange.getFirst "User-Agent" with
  | none => true
  | some ua => knownAutomationUaMarkers.any (contains (toLowerCase ua))

/-- Outside business hours. -/
def isOffHours (hour : ℕ) : Bool := hour < 6 || 22 < hour

variable {K : Type} [Field K] [LinearOrder K]

section Body

variable (platform : Platform K)

/-- The members of a body that is a JSON object. -/
def readBodyMap (body : String) : Option (Dict (Json K)) :=
  if isBlank body then none else (platform.readMap body).map Dict.ofMembers

/-- How many members the body has at top level. -/
def countTopLevelFields (body : String) : ℤ := ((readBodyMap platform body).map Dict.size).getD 0

/-- A JSON number as a double. -/
def numberValue : Json K → Option (Double K)
  | .int n => some (.ofInt n)
  | .real x => some x
  | _ => none

/-- The numbers that the body has at top level. -/
def extractNumericFields (body : String) : Dict (Double K) :=
  ((readBodyMap platform body).map (Dict.filterMap numberValue)).getD .empty

end Body

/-- Narrow to 32 bits. -/
def toInt (n : ℤ) : ℤ := n.bmod (2 ^ 32)

/-- Narrowing keeps small counts. -/
theorem toInt_of_lt {n : ℤ} (h0 : 0 ≤ n) (h : n < 2 ^ 31) : toInt n = n :=
  Int.bmod_eq_of_le (by omega) (by omega)

/-- How long ago the token was issued, in whole seconds. -/
def sessionAge (claims : Option Claims) (clocks : Clocks) : Double K :=
  match claims with
  | some c => .ofInt ((clocks.now - c.issuedAt.getD clocks.issuedAtDefault) / 10 ^ 9)
  | none => .finite 0

section Pipeline

variable (platform : Platform K) (properties : SecurityProperties K)

/-- The signal of a request. -/
def buildSignal (rate10s rate60s failStreak : ℤ) (clocks : Clocks) (exchange : Exchange)
    (claims : Option Claims) (path bodyString : String) : RequestSignalDTO K :=
  let numericFields := extractNumericFields platform bodyString
  { reqRate10s := .ofInt rate10s
    reqRate60s := .ofInt rate60s
    failedAuthStreak := toInt failStreak
    distinctEndpoints60s := 1
    sessionAgeSeconds := sessionAge claims clocks
    geoVelocityKmph := .finite 0
    knownBadUaFlag := if isKnownAutomationUa exchange then 1 else 0
    responseErrorRate5m := .finite 0
    offHoursFlag := if isOffHours clocks.hour then 1 else 0
    rawBody := bodyString
    paramCount := countTopLevelFields platform bodyString
    baselineParamCount := 8
    numericFields
    baselineNumericRanges := numericFields.map fun field _ => properties.baselineFor path field }

/-- The response headers that tell the score. -/
def tagRisk (result : ScoreResponseDTO K) : Program K Unit :=
  (Mono.await (Op.addHeader "X-Risk-Level" result.decision)).flatMap fun _ =>
    Mono.await (Op.addHeader "X-Risk-Score" (some (platform.showDouble result.finalScore)))

/-- The path is high-risk, or the client is too fast for it. -/
def isHighRisk (path : String) (rate10s : ℤ) : Bool :=
  properties.highRiskEndpoints.any (startsWith path) ||
    decide (properties.rateEscalationThreshold < rate10s)

/-- A missing text in a message. -/
def orNull (s : Option String) : String := s.getD "null"

/-- Act on a score: block and reject, or tag the response and hand the request on. -/
def enforce (exchange : Exchange) (clientIp : String) (result : ScoreResponseDTO K) :
    Program K Unit :=
  if result.decision = some "BLOCK" then
    rejectHead 403
      ((RedisStateService.blockImmediately properties clientIp result.reason).andThen
        (rejectBody ("Request blocked by threat engine: " ++ orNull result.reason)))
  else (tagRisk platform result).flatMap fun _ => Mono.await (Op.chain exchange)

/-- Hand the request on, or have it scored if it is high-risk. -/
def route (exchange : Exchange) (clientIp path : String) (rate10s : ℤ)
    (signal : RequestSignalDTO K) : Program K Unit :=
  if isHighRisk properties path rate10s then
    (ThreatEngineClient.score signal).flatMap (enforce platform properties exchange clientIp)
  else Mono.await (Op.chain exchange)

/-- Publish the signal, then hand the request on or have it scored. -/
def decideOn (exchange : Exchange) (clientIp method path : String) (rate10s : ℤ)
    (signal : RequestSignalDTO K) : Program K Unit :=
  (KafkaRequestPublisher.publishAsync clientIp method path signal).flatMap fun _ =>
    route platform properties exchange clientIp path rate10s signal

/-- Build the signal from the three counts and decide. -/
def assess (exchange : Exchange) (clientIp method path : String) (claims : Option Claims)
    (bodyString : String) : ℤ × ℤ × ℤ → Program K Unit
  | (rate10s, rate60s, failStreak) =>
    (Mono.await Op.readClocks).flatMap fun clocks =>
      decideOn platform properties exchange clientIp method path rate10s
        (buildSignal platform properties rate10s rate60s failStreak clocks exchange claims path
          bodyString)

/-- Whose failed-authentication streak a request extends. -/
def identityKey (claims : Option Claims) (clientIp : String) : String :=
  (claims.bind Claims.subject).getD clientIp

/-- Advance the three counters at once and decide. -/
def continuePipeline (exchange : Exchange) (clientIp method path : String)
    (claims : Option Claims) (bodyString : String) : Program K Unit :=
  let rate10s := RedisStateService.incrementWindowCounter clientIp path (seconds 10)
  let rate60s := RedisStateService.incrementWindowCounter clientIp path (seconds 60)
  let failStreak :=
    (RedisStateService.incrementFailedAuthStreak (identityKey claims clientIp)).defaultIfEmpty 0
  (Mono.zip rate10s rate60s failStreak Mono.done).flatMap
    (assess platform properties exchange clientIp method path claims bodyString)

/-- Methods whose requests may have a body. -/
def mayHaveBody (method : String) : Bool := method ∈ ["POST", "PUT", "PATCH"]

/-- The body as one buffer, if it has any buffer. -/
def joinBody (body : List Bytes) : Program K Bytes :=
  (Mono.await (Op.readBody body)).flatMap fun buffers =>
    if buffers = [] then .done .empty else .just buffers.flatten

/-- Read the body, if the method may have one, and continue with a request that replays it. -/
def processBody (exchange : Exchange) (clientIp method path : String)
    (claims : Option Claims) : Program K Unit :=
  if mayHaveBody method then
    ((joinBody exchange.body).defaultIfEmpty []).flatMap fun bytes =>
      continuePipeline platform properties { exchange with body := [bytes] } clientIp method path
        claims (decodeUtf8 bytes)
  else continuePipeline platform properties exchange clientIp method path claims ""

/-- Look the client up and continue unless it is blocked. -/
def checkBlocklist (exchange : Exchange) (clientIp method path : String)
    (claims : Option Claims) : Program K Unit :=
  (RedisStateService.isBlocked clientIp).flatMap fun blocked =>
    if blocked then reject 403 "Client is temporarily blocked"
    else processBody platform properties exchange clientIp method path claims

/-- The claims of the request, unless its path needs none. -/
def authenticate (exchange : Exchange) : Program K (Option Claims) :=
  if exchange.path ∈ publicPaths then .just none
  else JwtAuthValidator.validate (exchange.getFirst "Authorization")

/-- The whole filter. -/
def filter (exchange : Exchange) : Program K Unit :=
  match resolveClientIp exchange with
  | none => .done .error
  | some clientIp =>
    (authenticate exchange).flatMap fun claims =>
      if exchange.path ∉ publicPaths ∧ claims.isNone then
        reject 401 "Missing or invalid credentials"
      else
        checkBlocklist platform properties exchange clientIp exchange.method exchange.path claims

end Pipeline

end ZeroTrustFilter

end ApiFirewall.Gateway
