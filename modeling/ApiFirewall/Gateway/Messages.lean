import ApiFirewall.Gateway.JavaText
import ApiFirewall.Wire.Json

/-!
# Requests, signals and configuration of the gateway

The data that the gateway receives, configures and writes. A signal is written as JSON with one
member for each field, in the order of the fields; doubles that are not finite are written as
texts. The envelope adds the identity of the request.
-/

namespace ApiFirewall.Gateway

open ApiFirewall.Wire

/-- A request as the gateway receives it: the raw path, the header lines in order, the address
of the peer if there is one, and the body as the buffers in which it arrives. -/
structure Exchange where
  path : String
  method : String
  headers : List (String × String)
  remoteAddress : Option String
  body : List Bytes
  deriving DecidableEq, Repr

/-- The first value of a header; names are compared without case. -/
def Exchange.getFirst (exchange : Exchange) (name : String) : Option String :=
  (exchange.headers.find? fun h => toLowerCase h.1 = toLowerCase name).map Prod.snd

/-- The claims of a token that the gateway reads; instants are in nanoseconds. -/
structure Claims where
  subject : Option String
  issuedAt : Option ℤ
  deriving DecidableEq, Repr

/-- The configuration under `firewall`. -/
structure SecurityProperties (K : Type) where
  highRiskEndpoints : List String
  rateEscalationThreshold : ℤ
  blocklistTtlSeconds : ℤ
  numericBaselines : Dict (List (Double K))

variable {K : Type} [Field K] [LinearOrder K]

namespace SecurityProperties

/-- The range of a field that nobody has configured. -/
def unconstrained : List (Double K) := [.finite (-powerOfTen 9), .finite (powerOfTen 9)]

/-- The configured range of a field of an endpoint. -/
def baselineFor (properties : SecurityProperties K) (endpoint : String) (field : Text) :
    List (Double K) :=
  (properties.numericBaselines.lookup (endpoint ++ ":" ++ field)).getD unconstrained

/-- The key of a map entry after binding: outside brackets only letters, digits, `-`, `_` and
`.` are kept. -/
def bindKey (key : String) : String :=
  match key.toList with
  | '[' :: rest => if rest.getLast? = some ']' then .ofList rest.dropLast else .ofList rest
  | cs => .ofList (cs.filter fun c => c.isAlphanum || c = '-' || c = '_' || c = '.')

/-- The deployed configuration. -/
def deployed : SecurityProperties K where
  highRiskEndpoints := ["/api/auth/login", "/api/checkout"]
  rateEscalationThreshold := 15
  blocklistTtlSeconds := 900
  numericBaselines := .ofMembers
    [(bindKey "/api/checkout:qty", [.finite 1, .finite 10]),
     (bindKey "/api/checkout:price", [.finite 1, .finite 10000]),
     (bindKey "/api/checkout:discount_pct", [.finite 0, .finite 30])]

end SecurityProperties

/-- The signal that the gateway builds for a request. -/
structure RequestSignalDTO (K : Type) where
  reqRate10s : Double K
  reqRate60s : Double K
  distinctEndpoints60s : ℤ
  failedAuthStreak : ℤ
  sessionAgeSeconds : Double K
  geoVelocityKmph : Double K
  knownBadUaFlag : ℤ
  responseErrorRate5m : Double K
  offHoursFlag : ℤ
  rawBody : Text
  paramCount : ℤ
  baselineParamCount : ℤ
  numericFields : Dict (Double K)
  baselineNumericRanges : Dict (List (Double K))
  deriving DecidableEq, Repr

/-- The engine's answer; members missing from the text are null. -/
structure ScoreResponseDTO (K : Type) where
  isolationScore : Double K
  xgboostScore : Double K
  finalScore : Double K
  decision : Option String
  reason : Option String
  deriving DecidableEq, Repr

/-- What the gateway publishes about a request. -/
structure Envelope (K : Type) where
  requestId : String
  clientIp : String
  method : String
  endpoint : String
  timestamp : String
  signal : RequestSignalDTO K
  deriving DecidableEq, Repr

/-- A record for the message broker. -/
structure ProducerRecord (K : Type) where
  topic : String
  key : String
  value : Envelope K
  deriving DecidableEq, Repr

omit [Field K] [LinearOrder K]

/-- A double as JSON; one that is not finite becomes a text. -/
def writeDouble : Double K → Json K
  | .finite x => .real (.finite x)
  | .posInf => .str "Infinity"
  | .negInf => .str "-Infinity"
  | .nan => .str "NaN"

/-- A dictionary as JSON. -/
def writeDict {α : Type} (write : α → Json K) (d : Dict α) : Json K :=
  .obj (d.map fun _ => write).entries

/-- A signal as JSON. -/
def RequestSignalDTO.toJson (signal : RequestSignalDTO K) : Json K :=
  .obj
    [("req_rate_10s", writeDouble signal.reqRate10s),
     ("req_rate_60s", writeDouble signal.reqRate60s),
     ("distinct_endpoints_60s", .int signal.distinctEndpoints60s),
     ("failed_auth_streak", .int signal.failedAuthStreak),
     ("session_age_seconds", writeDouble signal.sessionAgeSeconds),
     ("geo_velocity_kmph", writeDouble signal.geoVelocityKmph),
     ("known_bad_ua_flag", .int signal.knownBadUaFlag),
     ("response_error_rate_5m", writeDouble signal.responseErrorRate5m),
     ("off_hours_flag", .int signal.offHoursFlag),
     ("raw_body", .str signal.rawBody),
     ("param_count", .int signal.paramCount),
     ("baseline_param_count", .int signal.baselineParamCount),
     ("numeric_fields", writeDict writeDouble signal.numericFields),
     ("baseline_numeric_ranges",
       writeDict (fun range => .arr (range.map writeDouble)) signal.baselineNumericRanges)]

/-- An envelope as JSON. -/
def Envelope.toJson (envelope : Envelope K) : Json K :=
  .obj
    [("request_id", .str envelope.requestId),
     ("client_ip", .str envelope.clientIp),
     ("method", .str envelope.method),
     ("endpoint", .str envelope.endpoint),
     ("timestamp", .str envelope.timestamp),
     ("signal", envelope.signal.toJson)]

end ApiFirewall.Gateway
