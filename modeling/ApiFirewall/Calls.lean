import ApiFirewall.Engine.EnsembleThreatModel
import ApiFirewall.Gateway.Messages
import ApiFirewall.KeyValue.Store
import ApiFirewall.Reactive.Mono

/-!
# The calls of the deployed programs

Everything a request or a consumed message does outside its own thread is one of these calls:
reading the clock or the body, checking a token, talking to the shared store, the broker or the
engine, handing the request to the backend, and writing the response. Each names the data it
carries and the type of its reply.
-/

namespace ApiFirewall

open ApiFirewall.Wire ApiFirewall.Gateway ApiFirewall.Engine ApiFirewall.KeyValue

/-- What the token library makes of a token: its claims, or an exception that means the token
is not acceptable. -/
inductive TokenVerdict where
  | claims (c : Claims)
  | rejected
  deriving DecidableEq, Repr

/-- The clock readings of one signal: two instants in nanoseconds and the hour of the day. -/
structure Clocks where
  issuedAtDefault : ℤ
  now : ℤ
  hour : ℕ
  deriving DecidableEq, Repr

/-- The identifier and the time stamp of one envelope. -/
structure Stamp where
  requestId : String
  timestamp : String
  deriving DecidableEq, Repr

/-- The record of one decision; members of the envelope are copied as they are. -/
structure AuditEvent (K : Type) where
  requestId : Json K
  clientIp : Json K
  endpoint : Json K
  method : Json K
  timestamp : Json K
  isolationScore : K
  xgboostScore : K
  finalScore : K
  decision : String
  reason : String

/-- The calls. -/
inductive Op (K : Type) where
  | parseSignedClaims (token : String)
  | redis (command : Command String)
  | readBody (body : List Bytes)
  | readClocks
  | stamp
  | send (record : ProducerRecord K)
  | postScore (signal : RequestSignalDTO K)
  | chain (exchange : Exchange)
  | setStatusCode (status : ℕ)
  | addHeader (name : String) (value : Option String)
  | writeWith (body : String)
  | sendAudit (topic : String) (event : AuditEvent K)

/-- The replies. -/
@[reducible] def Res {K : Type} : Op K → Type
  | .parseSignedClaims _ => TokenVerdict
  | .redis command => command.Result
  | .readBody _ => List Bytes
  | .readClocks => Clocks
  | .stamp => Stamp
  | .postScore _ => ScoreResponseDTO K
  | .send _ | .chain _ | .setStatusCode _ | .addHeader _ _ | .writeWith _ | .sendAudit _ _ => Unit

/-- A program of the deployment. -/
abbrev Program (K α : Type) := Reactive.Mono (Op K) Res α

/-- One call to the store. -/
def redis {K : Type} (command : Command String) : Program K command.Result :=
  Reactive.Mono.await (Op.redis command)

end ApiFirewall
