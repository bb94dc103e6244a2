import ApiFirewall.Engine.TrainingData
import ApiFirewall.Guarantees.BodyExtension
import ApiFirewall.Guarantees.PayloadEntropy

/-!
# Serving outside the training support

The trainer clips the entropy of a payload to at most eight, the entropy of bytes. The engine computes
the entropy of characters and does not clip it. A text with at most 256 distinct characters stays
inside the interval; one in which more than 256 occur equally often does not. In between, the counts
of the characters decide by an inequality between natural numbers.
-/

namespace ApiFirewall.Guarantees

open ApiFirewall.Arithmetic ApiFirewall.Wire ApiFirewall.Gateway ApiFirewall.Engine
open Deployment SecurityProperties
open Real (logb)

/-- The clipped components of the vector of a body: the entropy of the body, and no error rate. -/
theorem clipped_of_extracts {K : Type} [Field K] [LinearOrder K] [FloorRing K]
    {config : EngineConfig K} {context : SignalContext K} {body : String}
    {vector : List (Double K)} (h : context.Extracts config body vector) :
    featureOf vector "payload_entropy" = some (.finite (shannonEntropy config.log2 body)) ∧
      featureOf vector "response_error_rate_5m" = some (.finite 0) := by
  obtain ⟨s, hvalid, hvector⟩ := h
  have hfields := fieldsOf_of_validate config.texts hvalid
  have hbody : s.rawBody = body := congrArg RequestSignalDTO.rawBody hfields
  have hrate : s.responseErrorRate5m.val = .finite 0 :=
    congrArg RequestSignalDTO.responseErrorRate5m hfields
  obtain ⟨_, _, _, _, _, _, -, -, -, -, -, -, rfl⟩ := extractFeatures_eq_some_iff.mp hvector
  constructor
  · rw [← hbody]
    rfl
  · exact congrArg some hrate

/-- Eight is the logarithm of the number of bytes. -/
theorem decimal_eight : (decimal 8 0 : ℝ) = logb 2 (256 : ℕ) := by
  have hpower : ((256 : ℕ) : ℝ) = 2 ^ 8 := by norm_num
  rw [hpower, Real.logb_pow, Real.logb_self_eq_one one_lt_two]
  norm_num [decimal, powerOfTen]

variable {config : EngineConfig ℝ} {context : SignalContext ℝ} {body : String}
variable {vector : List (Double ℝ)}

/-- The vector of a body lies in the support exactly if the entropy of the body is at most eight. -/
theorem inSupport_iff_entropy_le
    (h : context.Extracts { config with log2 := logb 2 } body vector) :
    InSupport vector ↔ entropy 2 (body : Text) ≤ logb 2 (256 : ℕ) := by
  obtain ⟨hentropy, hrate⟩ := clipped_of_extracts h
  change featureOf vector "payload_entropy" = some (.finite (shannonEntropy (logb 2) body))
    at hentropy
  rw [shannonEntropy_eq_entropy] at hentropy
  rw [← decimal_eight]
  constructor
  · intro hsupport
    obtain ⟨x, hx, -, hle⟩ := hsupport ("payload_entropy", 0, decimal 8 0) (List.mem_cons_self ..)
    rw [hentropy] at hx
    obtain rfl := Option.some.inj hx
    exact of_decide_eq_true hle
  · intro hle entry hentry
    simp only [clippedFeatures, List.mem_cons, List.not_mem_nil, or_false] at hentry
    rcases hentry with rfl | rfl
    · exact ⟨_, hentropy, decide_eq_true (entropy_nonneg one_lt_two _), decide_eq_true hle⟩
    · exact ⟨_, hrate, decide_eq_true le_rfl, decide_eq_true zero_le_one⟩

/-- A vector outside the support is not among those on which the models were trained. -/
theorem not_mem_trainingVectors {σ : Type} {rng : Generator ℝ σ}
    {shuffle : DataFrame ℝ → DataFrame ℝ} (hshuffle : ∀ frame, (shuffle frame).Perm frame)
    {state : σ} {vectors : List (List (Double ℝ))}
    (htrained : trainingVectors rng shuffle state = some vectors)
    (h : context.Extracts { config with log2 := logb 2 } body vector)
    (hlt : 256 ^ (body : Text).length * countPowers (body : Text) <
      (body : Text).length ^ (body : Text).length) : vector ∉ vectors := by
  intro hmem
  have hsupport := trainingVectors_inSupport hshuffle htrained vector hmem
  rw [inSupport_iff_entropy_le h, entropy_le_logb_iff one_lt_two _ (by norm_num)] at hsupport
  exact hsupport.not_gt hlt

end ApiFirewall.Guarantees
