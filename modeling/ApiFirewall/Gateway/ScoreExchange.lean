import ApiFirewall.Gateway.Services
import ApiFirewall.Gateway.ZeroTrustFilter

/-!
# The exchange that asks for a score

How a request to the engine can end, and what the gateway's reactive source makes of each end. An
error status, a body that cannot be read and every failure of the exchange are errors, which the
client absorbs; a body that is empty, or `null`, is neither an error nor a value.
-/

namespace ApiFirewall.Gateway

open ApiFirewall.Wire ApiFirewall.Reactive

/-- The body of a response: nothing, a JSON text, or what is not declared or readable as one. -/
inductive Body (K : Type) where
  | empty
  | json (value : Json K)
  | unreadable

/-- A response with its status. -/
structure Response (K : Type) where
  status : ℕ
  body : Body K

/-- How an exchange ends. -/
inductive Outcome (K : Type) where
  | response (r : Response K)
  | connectionFailure
  | timeout
  | circuitOpen

/-- The status tells an error of the client or of the server. -/
def isErrorStatus (status : ℕ) : Bool := 400 ≤ status && status < 600

/-- How the reader takes values of other types for the ones that it expects. -/
structure ScalarTexts (K : Type) where
  /-- A text read as a double. -/
  double : Text → Option (Double K)
  /-- A number or a truth value as a text. -/
  showScalar : Json K → String

namespace ThreatEngineClient

variable {K : Type} [Field K] (texts : ScalarTexts K)

/-- A member of type double; null is zero. -/
def readDouble : Json K → Option (Double K)
  | .null => some (.finite 0)
  | .str s =>
    if s = "Infinity" then some .posInf
    else if s = "-Infinity" then some .negInf
    else if s = "NaN" then some .nan
    else texts.double s
  | value => ZeroTrustFilter.numberValue value

/-- A member of type text, which can be null. The text is only compared with texts without surrogates and
written by lenient encoders, so it is kept as these write it. -/
def readString : Json K → Option (Option String)
  | .null => some none
  | .str s => some (some s.encodable)
  | .arr _ => none
  | .obj _ => none
  | value => some (some (texts.showScalar value))

/-- Set the field of a member; other members are ignored. -/
def setMember (dto : ScoreResponseDTO K) (m : Text × Json K) : Option (ScoreResponseDTO K) :=
  if m.1 = "isolation_score" then
    (readDouble texts m.2).map fun isolationScore => { dto with isolationScore }
  else if m.1 = "xgboost_score" then
    (readDouble texts m.2).map fun xgboostScore => { dto with xgboostScore }
  else if m.1 = "final_score" then
    (readDouble texts m.2).map fun finalScore => { dto with finalScore }
  else if m.1 = "decision" then (readString texts m.2).map fun decision => { dto with decision }
  else if m.1 = "reason" then (readString texts m.2).map fun reason => { dto with reason }
  else some dto

/-- The fields that no member sets. -/
def unset : ScoreResponseDTO K where
  isolationScore := .finite 0
  xgboostScore := .finite 0
  finalScore := .finite 0
  decision := none
  reason := none

/-- What the reader makes of a JSON text; null is no value at all. -/
def readScoreResponse : Json K → Signal (ScoreResponseDTO K)
  | .null => .empty
  | .obj members => ((members.foldlM (setMember texts) unset).map Signal.value).getD .error
  | _ => .error

/-- The value of a response. -/
def bodyToMono (r : Response K) : Signal (ScoreResponseDTO K) :=
  if isErrorStatus r.status then .error
  else match r.body with
    | .empty => .empty
    | .json value => readScoreResponse texts value
    | .unreadable => .error

/-- The value of an exchange, before the client absorbs errors. -/
def exchanged : Outcome K → Signal (ScoreResponseDTO K)
  | .response r => bodyToMono texts r
  | .connectionFailure => .error
  | .timeout => .error
  | .circuitOpen => .error

/-- The response has no error status, and its body is empty or null. -/
def IsVoid : Outcome K → Prop
  | .response ⟨status, .empty⟩ => isErrorStatus status = false
  | .response ⟨status, .json .null⟩ => isErrorStatus status = false
  | _ => False

/-- Only such a response leaves the exchange without a value and without an error. -/
theorem exchanged_eq_empty {outcome : Outcome K} :
    exchanged texts outcome = .empty ↔ IsVoid outcome := by
  rcases outcome with ⟨status, body⟩ | _ | _ | _
  · by_cases hstatus : isErrorStatus status = true
    · cases body with
      | json value => cases value <;> simp [exchanged, bodyToMono, IsVoid, hstatus]
      | _ => simp [exchanged, bodyToMono, IsVoid, hstatus]
    · cases body with
      | empty => simp [exchanged, bodyToMono, IsVoid, hstatus]
      | unreadable => simp [exchanged, bodyToMono, IsVoid, hstatus]
      | json value =>
        cases value with
        | null => simp [exchanged, bodyToMono, readScoreResponse, IsVoid, hstatus]
        | obj members =>
          cases hread : members.foldlM (setMember texts) unset <;>
            simp [exchanged, bodyToMono, readScoreResponse, IsVoid, hstatus, hread]
        | _ => simp [exchanged, bodyToMono, readScoreResponse, IsVoid, hstatus]
  all_goals simp [exchanged, IsVoid]

end ThreatEngineClient

/-- A reader that takes no values of other types. -/
def sampleTexts : ScalarTexts ℚ where
  double := fun _ => none
  showScalar := fun _ => ""

end ApiFirewall.Gateway
