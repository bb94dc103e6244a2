import ApiFirewall.Arithmetic.HalfEven
import ApiFirewall.Engine.Features

/-!
# The ensemble score

Two trained models judge a feature vector; they are parameters, and either may fail on a vector.
The first one's raw score is flipped and scaled by the bounds recorded at training time, and the
weighted sum decides. Arithmetic is exact, and reported scores are rounded to four digits with
ties to even.
-/

namespace ApiFirewall.Engine

open ApiFirewall.Arithmetic ApiFirewall.Wire

/-- What the engine recommends. -/
inductive Decision where
  | allow
  | challenge
  | block
  deriving DecidableEq, Repr

/-- The decision as it is written to messages. -/
def Decision.text : Decision → String
  | .allow => "ALLOW"
  | .challenge => "CHALLENGE"
  | .block => "BLOCK"

/-- The text of a decision tells whether it blocks. -/
theorem Decision.text_eq_block {decision : Decision} :
    decision.text = Decision.block.text ↔ decision = .block := by
  cases decision <;> simp [Decision.text]

/-- The result of scoring one vector. -/
structure ScoreResult (K : Type) where
  isolationScore : K
  xgboostScore : K
  finalScore : K
  decision : Decision
  reason : String
  deriving DecidableEq, Repr

/-- The trained models and the bounds of the first one's raw scores. -/
structure EnsembleThreatModel (K : Type) where
  decisionFunction : List (Double K) → Option K
  predictProba : List (Double K) → Option K
  isoScoreMin : K
  isoScoreMax : K

variable {K : Type} [Field K] [LinearOrder K] [FloorRing K]

/-- Round to four digits, ties to even. -/
def round4 (x : K) : K :=
  let scaled : K := x * powerOfTen 4
  let k : ℤ := ⌊scaled⌋
  let digits : ℤ :=
    if scaled - k < 1 / 2 then k else if 1 / 2 < scaled - k then k + 1 else k + k % 2
  digits / powerOfTen 4

/-- Rounding to four digits is rounding to an integer in units of the last digit. -/
theorem round4_eq [IsStrictOrderedRing K] (x : K) :
    round4 x = (roundHalfEven (x * powerOfTen 4) : K) / powerOfTen 4 := by
  have hbelow (y : K) : y - ⌊y⌋ < 1 / 2 ↔ y - ⌊y⌋ < ⌊y⌋ + 1 - y := by
    constructor <;> intro h <;> linarith
  have habove (y : K) : 1 / 2 < y - ⌊y⌋ ↔ ⌊y⌋ + 1 - y < y - ⌊y⌋ := by
    constructor <;> intro h <;> linarith
  simp only [round4, roundHalfEven, hbelow, habove]

namespace EnsembleThreatModel

/-- The weight of the isolation score. -/
def isoWeight : K := 35 / 100

/-- The weight of the attack probability. -/
def xgbWeight : K := 65 / 100

/-- The final score from which a request is blocked. -/
def blockThreshold : K := 85 / 100

/-- The final score from which a request is challenged. -/
def challengeThreshold : K := 60 / 100

/-- The reason of a block. -/
def blockReason : String := "High combined anomaly + attack-pattern probability"

variable (model : EnsembleThreatModel K)

/-- The raw isolation score flipped and scaled to the unit interval. -/
def normalizeIso (rawScore : K) : K :=
  let span := max (model.isoScoreMax - model.isoScoreMin) (1 / powerOfTen 6)
  let anomaly := (model.isoScoreMax - rawScore) / span
  min (max anomaly 0) 1

/-- Score a feature vector; fails if one of the models does. -/
def score (featureVector : List (Double K)) : Option (ScoreResult K) := do
  let rawIso ← model.decisionFunction featureVector
  let isoNorm := model.normalizeIso rawIso
  let xgbProb ← model.predictProba featureVector
  let final := isoWeight * isoNorm + xgbWeight * xgbProb
  let (decision, reason) :=
    if blockThreshold ≤ final then (Decision.block, blockReason)
    else if challengeThreshold ≤ final then
      (Decision.challenge, "Elevated risk -- require step-up auth (OTP/CAPTCHA)")
    else (Decision.allow, "Risk within normal operating range")
  return { isolationScore := round4 isoNorm, xgboostScore := round4 xgbProb,
           finalScore := round4 final, decision, reason }

/-- Every block has the same reason. -/
theorem reason_of_block {featureVector : List (Double K)} {result : ScoreResult K}
    (h : model.score featureVector = some result) (hblock : result.decision = .block) :
    result.reason = blockReason := by
  obtain ⟨rawIso, -, h⟩ := Option.bind_eq_some_iff.mp h
  obtain ⟨xgbProb, -, h⟩ := Option.bind_eq_some_iff.mp h
  dsimp only at h
  split at h
  · obtain rfl := Option.some.inj h
    rfl
  · split at h <;>
    · obtain rfl := Option.some.inj h
      simp at hblock

end EnsembleThreatModel

end ApiFirewall.Engine
