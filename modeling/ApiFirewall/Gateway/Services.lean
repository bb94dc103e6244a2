import ApiFirewall.Calls

/-!
# The services behind the gateway filter

Token validation, the state in the shared store, the engine client and the telemetry publisher.
Durations are in milliseconds. A source that fails carries its error to whoever continues it;
only the engine client and the publisher absorb errors.
-/

namespace ApiFirewall.Gateway

open ApiFirewall.Wire ApiFirewall.KeyValue ApiFirewall.Reactive

variable {K : Type}

/-- Seconds in milliseconds; a negative duration is none at all. -/
def seconds (n : ℤ) : ℕ := (n * 1000).toNat

/-- Minutes in milliseconds. -/
def minutes (n : ℤ) : ℕ := seconds (n * 60)

namespace JwtAuthValidator

/-- The token of an authorization header with the bearer scheme. -/
def bearerToken (header : Option String) : Option String :=
  match header with
  | none => none
  | some bearer =>
    if startsWith bearer "Bearer " then some (.ofList (bearer.toList.drop 7)) else none

/-- The claims of a bearer token; a missing or unacceptable token has none. -/
def validate (header : Option String) : Program K (Option Claims) :=
  match bearerToken header with
  | none => .just none
  | some token =>
    (Mono.await (Op.parseSignedClaims token)).flatMap fun
      | .claims c => .just (some c)
      | .rejected => .just none

end JwtAuthValidator

namespace RedisStateService

/-- The key under which a client is blocked. -/
def blocklistKey (clientIp : String) : String := "blocklist:" ++ clientIp

/-- The key of the request counter of a client at an endpoint. -/
def countKey (clientIp endpoint : String) : String := "count:" ++ clientIp ++ ":" ++ endpoint

/-- The key of the failed-authentication streak of an identity. -/
def failstreakKey (identityKey : String) : String := "failstreak:" ++ identityKey

/-- Clients have different blocklist keys. -/
@[simp] theorem blocklistKey_inj {c c' : String} : blocklistKey c = blocklistKey c' ↔ c = c' := by
  simp [blocklistKey]

/-- A request counter is not a blocklist entry. -/
@[simp] theorem countKey_ne_blocklistKey {c clientIp endpoint : String} :
    countKey clientIp endpoint ≠ blocklistKey c := by
  intro h
  have hlist := congrArg String.toList h
  simp [countKey, blocklistKey] at hlist

/-- A streak is not a blocklist entry. -/
@[simp] theorem failstreakKey_ne_blocklistKey {c identity : String} :
    failstreakKey identity ≠ blocklistKey c := by
  intro h
  have hlist := congrArg String.toList h
  simp [failstreakKey, blocklistKey] at hlist

/-- A streak is not a request counter. -/
@[simp] theorem failstreakKey_ne_countKey {identity clientIp endpoint : String} :
    failstreakKey identity ≠ countKey clientIp endpoint := by
  intro h
  have hlist := congrArg String.toList h
  simp [failstreakKey, countKey] at hlist

/-- Identities have different streaks. -/
@[simp] theorem failstreakKey_inj {i i' : String} : failstreakKey i = failstreakKey i' ↔ i = i' := by
  simp [failstreakKey]

/-- A blocklist entry is not a request counter. -/
@[simp] theorem blocklistKey_ne_countKey {c clientIp endpoint : String} :
    blocklistKey c ≠ countKey clientIp endpoint := countKey_ne_blocklistKey.symm

/-- A blocklist entry is not a streak. -/
@[simp] theorem blocklistKey_ne_failstreakKey {c identity : String} :
    blocklistKey c ≠ failstreakKey identity := failstreakKey_ne_blocklistKey.symm

/-- A request counter is not a streak. -/
@[simp] theorem countKey_ne_failstreakKey {identity clientIp endpoint : String} :
    countKey clientIp endpoint ≠ failstreakKey identity := failstreakKey_ne_countKey.symm

/-- Is this client blocked? -/
def isBlocked (clientIp : String) : Program K Bool := redis (.hasKey (blocklistKey clientIp))

/-- Block a client; without a reason there is nothing to write. -/
def blockImmediately (properties : SecurityProperties K) (clientIp : String)
    (reason : Option String) : Program K Bool :=
  match reason with
  | none => .done .error
  | some text => redis (.set (blocklistKey clientIp) text (seconds properties.blocklistTtlSeconds))

/-- Count a request; the request that is counted first starts the window. -/
def incrementWindowCounter (clientIp endpoint : String) (window : ℕ) : Program K ℤ :=
  (redis (.increment (countKey clientIp endpoint))).flatMap fun count =>
    if count = 1 then (redis (.expire (countKey clientIp endpoint) window)).thenReturn count
    else .just count

/-- Extend the streak of an identity by one, and its life to fifteen minutes from now. -/
def incrementFailedAuthStreak (identityKey : String) : Program K ℤ :=
  (redis (.increment (failstreakKey identityKey))).flatMap fun count =>
    (redis (.expire (failstreakKey identityKey) (minutes 15))).thenReturn count

/-- End the streak of an identity. -/
def resetFailedAuthStreak (identityKey : String) : Program K Bool :=
  redis (.delete (failstreakKey identityKey))

end RedisStateService

namespace ThreatEngineClient

/-- The answer that stands for a failed call. -/
def unscored [Field K] : ScoreResponseDTO K where
  isolationScore := .finite (-1)
  xgboostScore := .finite (-1)
  finalScore := .finite (-1)
  decision := some "UNSCORED"
  reason := some "Threat engine timeout/circuit-open - allowed with async follow-up"

/-- Score a signal; every failure is answered by `unscored`. -/
def score [Field K] (signal : RequestSignalDTO K) : Program K (ScoreResponseDTO K) :=
  (Mono.await (Op.postScore signal)).onErrorResume (.just unscored)

end ThreatEngineClient

namespace KafkaRequestPublisher

/-- The topic of request telemetry. -/
def rawTopic : String := "api.requests.raw"

/-- Hand the telemetry of a request to the broker; a failure is only logged. -/
def publishAsync (clientIp method endpoint : String) (signal : RequestSignalDTO K) :
    Program K Unit :=
  ((Mono.await Op.stamp).flatMap fun stamp =>
    let envelope : Envelope K :=
      { requestId := stamp.requestId, clientIp, method, endpoint, timestamp := stamp.timestamp,
        signal }
    Mono.await (Op.send { topic := rawTopic, key := clientIp, value := envelope })).onErrorResume
      (.just ())

end KafkaRequestPublisher

end ApiFirewall.Gateway
