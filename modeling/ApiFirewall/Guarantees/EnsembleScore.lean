import ApiFirewall.Engine.EnsembleThreatModel
import Mathlib.Algebra.Order.Field.Basic
import Mathlib.Order.Interval.Set.Basic
import Mathlib.Tactic.FieldSimp
import Mathlib.Tactic.NormNum

/-!
# The ensemble score

For arbitrary bounds from training, which may be equal or in the wrong order, the normalized score
and the weighted sum stay in the unit interval, and the decision is monotone in both models' outputs.
The reported scores are rounded, and the decision is taken on the sum before it is rounded: right
below each threshold there is a band of sums that round up to the threshold without reaching it.
-/

namespace ApiFirewall.Guarantees

open ApiFirewall.Wire
open ApiFirewall.Engine
open ApiFirewall.Arithmetic

/-- How severe a decision is. -/
def severity : Decision → ℕ
  | .allow => 0
  | .challenge => 1
  | .block => 2

section Definitions

variable {K : Type} [Field K] [LinearOrder K]

/-- The weighted sum for a raw isolation score and a probability, before it is rounded. -/
def weightedSum (model : EnsembleThreatModel K) (raw p : K) : K :=
  EnsembleThreatModel.isoWeight * model.normalizeIso raw + EnsembleThreatModel.xgbWeight * p

/-- The decision on a weighted sum. -/
def decisionOf (final : K) : Decision :=
  if EnsembleThreatModel.blockThreshold ≤ final then .block
  else if EnsembleThreatModel.challengeThreshold ≤ final then .challenge
  else .allow

/-- The decision on a larger sum is at least as severe. -/
theorem severity_mono {x y : K} (h : x ≤ y) : severity (decisionOf x) ≤ severity (decisionOf y) := by
  unfold decisionOf
  by_cases hblock : EnsembleThreatModel.blockThreshold ≤ x
  · rw [if_pos hblock, if_pos (hblock.trans h)]
  · rw [if_neg hblock]
    by_cases hchallenge : EnsembleThreatModel.challengeThreshold ≤ x
    · rw [if_pos hchallenge, if_pos (hchallenge.trans h)]
      split <;> decide
    · rw [if_neg hchallenge]
      exact Nat.zero_le _

end Definitions

section Bounds

variable {K : Type} [Field K] [LinearOrder K] [IsStrictOrderedRing K]

theorem powerOfTen_pos (n : ℕ) : (0 : K) < powerOfTen n := by
  unfold powerOfTen
  positivity

/-- The normalized score lies in the unit interval. -/
theorem normalizeIso_mem (model : EnsembleThreatModel K) (raw : K) :
    0 ≤ model.normalizeIso raw ∧ model.normalizeIso raw ≤ 1 :=
  ⟨le_min (le_max_right _ _) zero_le_one, min_le_right _ _⟩

/-- A lower raw score is normalized to a higher one. -/
theorem normalizeIso_anti (model : EnsembleThreatModel K) : Antitone model.normalizeIso := by
  intro raw raw' h
  have hspan : (0 : K) < max (model.isoScoreMax - model.isoScoreMin) (1 / powerOfTen 6) :=
    (one_div_pos.mpr (powerOfTen_pos 6)).trans_le (le_max_right _ _)
  apply min_le_min _ le_rfl
  apply max_le_max _ le_rfl
  exact div_le_div_of_nonneg_right (sub_le_sub_left h _) hspan.le

/-- On the training interval nothing is clipped. -/
theorem normalizeIso_of_mem {model : EnsembleThreatModel K}
    (hspan : 1 / powerOfTen 6 ≤ model.isoScoreMax - model.isoScoreMin) {raw : K}
    (h : raw ∈ Set.Icc model.isoScoreMin model.isoScoreMax) :
    model.normalizeIso raw =
      (model.isoScoreMax - raw) / (model.isoScoreMax - model.isoScoreMin) := by
  have hpos : 0 < model.isoScoreMax - model.isoScoreMin :=
    (one_div_pos.mpr (powerOfTen_pos 6)).trans_le hspan
  have hlow : 0 ≤ (model.isoScoreMax - raw) / (model.isoScoreMax - model.isoScoreMin) :=
    div_nonneg (sub_nonneg.mpr h.2) hpos.le
  have hhigh : (model.isoScoreMax - raw) / (model.isoScoreMax - model.isoScoreMin) ≤ 1 :=
    (div_le_one hpos).mpr (sub_le_sub_left h.1 _)
  unfold EnsembleThreatModel.normalizeIso
  dsimp only
  rw [max_eq_left hspan, max_eq_left hlow, min_eq_left hhigh]

/-- The training interval is mapped onto the unit interval, strictly decreasing. -/
theorem normalizeIso_bijective {model : EnsembleThreatModel K}
    (hspan : 1 / powerOfTen 6 ≤ model.isoScoreMax - model.isoScoreMin) :
    StrictAntiOn model.normalizeIso (Set.Icc model.isoScoreMin model.isoScoreMax) ∧
      model.normalizeIso '' Set.Icc model.isoScoreMin model.isoScoreMax = Set.Icc 0 1 := by
  have hpos : 0 < model.isoScoreMax - model.isoScoreMin :=
    (one_div_pos.mpr (powerOfTen_pos 6)).trans_le hspan
  constructor
  · intro raw hraw raw' hraw' hlt
    rw [normalizeIso_of_mem hspan hraw, normalizeIso_of_mem hspan hraw']
    exact div_lt_div_of_pos_right (sub_lt_sub_left hlt _) hpos
  · apply Set.Subset.antisymm
    · rintro y ⟨raw, -, rfl⟩
      exact normalizeIso_mem model raw
    · rintro y ⟨hlow, hhigh⟩
      have hstretch : 0 ≤ y * (model.isoScoreMax - model.isoScoreMin) := mul_nonneg hlow hpos.le
      have hshrink : y * (model.isoScoreMax - model.isoScoreMin) ≤
          model.isoScoreMax - model.isoScoreMin := mul_le_of_le_one_left hpos.le hhigh
      have hmem : model.isoScoreMax - y * (model.isoScoreMax - model.isoScoreMin) ∈
          Set.Icc model.isoScoreMin model.isoScoreMax := ⟨by linarith, by linarith⟩
      refine ⟨_, hmem, ?_⟩
      rw [normalizeIso_of_mem hspan hmem, sub_sub_cancel, mul_div_cancel_right₀ _ hpos.ne']

/-- The weighted sum lies in the unit interval if the probability does. -/
theorem weightedSum_mem (model : EnsembleThreatModel K) (raw : K) {p : K} (hp : 0 ≤ p ∧ p ≤ 1) :
    0 ≤ weightedSum model raw p ∧ weightedSum model raw p ≤ 1 := by
  obtain ⟨hlow, hhigh⟩ := normalizeIso_mem model raw
  unfold weightedSum EnsembleThreatModel.isoWeight EnsembleThreatModel.xgbWeight
  constructor <;> linarith [hp.1, hp.2]

/-- The weighted sum grows as the raw score falls and the probability rises. -/
theorem weightedSum_mono (model : EnsembleThreatModel K) {raw raw' p p' : K} (hraw : raw' ≤ raw)
    (hp : p ≤ p') : weightedSum model raw p ≤ weightedSum model raw' p' := by
  have hiso := normalizeIso_anti model hraw
  unfold weightedSum EnsembleThreatModel.isoWeight EnsembleThreatModel.xgbWeight
  linarith

end Bounds

variable {K : Type} [Field K] [LinearOrder K] [FloorRing K]

variable [IsStrictOrderedRing K]

/-- A multiple of the last digit with an even numerator is below a rounded number from half a digit
below it on. -/
theorem le_round4_iff {n : ℤ} (hn : n % 2 = 0) (x : K) :
    (n : K) / powerOfTen 4 ≤ round4 x ↔ (n : K) / powerOfTen 4 - 1 / 2 / powerOfTen 4 ≤ x := by
  have hunit : (0 : K) < powerOfTen 4 := powerOfTen_pos 4
  rw [round4_eq, div_le_div_iff_of_pos_right hunit, Int.cast_le, le_roundHalfEven_iff_of_even hn,
    ← sub_div, div_le_iff₀ hunit]

/-- Rounding keeps a number in the unit interval. -/
theorem round4_mem {x : K} (h : 0 ≤ x ∧ x ≤ 1) : 0 ≤ round4 x ∧ round4 x ≤ 1 := by
  have hunit : (0 : K) < powerOfTen 4 := powerOfTen_pos 4
  have hten : (powerOfTen 4 : K) = ((10000 : ℤ) : K) := by norm_num [powerOfTen]
  rw [round4_eq]
  constructor
  · apply div_nonneg _ hunit.le
    have hlow := roundHalfEven_mono (mul_nonneg h.1 hunit.le)
    rw [← Int.cast_zero, roundHalfEven_intCast] at hlow
    exact_mod_cast hlow
  · rw [div_le_one hunit]
    have hhigh := roundHalfEven_mono (mul_le_of_le_one_left hunit.le h.2)
    rw [hten, roundHalfEven_intCast, ← hten] at hhigh
    calc (roundHalfEven (x * powerOfTen 4) : K) ≤ ((10000 : ℤ) : K) := by exact_mod_cast hhigh
      _ = powerOfTen 4 := hten.symm

omit [IsStrictOrderedRing K] in
/-- Where both models answer, the score is the rounded sum with the decision on the sum itself. -/
theorem score_spec {model : EnsembleThreatModel K} {v : List (Double K)} {raw p : K}
    (hraw : model.decisionFunction v = some raw) (hp : model.predictProba v = some p) :
    ∃ result, model.score v = some result ∧
      result.isolationScore = round4 (model.normalizeIso raw) ∧
      result.finalScore = round4 (weightedSum model raw p) ∧
      result.decision = decisionOf (weightedSum model raw p) := by
  unfold EnsembleThreatModel.score decisionOf
  rw [hraw, hp]
  refine ⟨_, rfl, rfl, rfl, ?_⟩
  change (if _ then _ else _ : Decision × String).1 = _
  rw [weightedSum]
  split
  · rfl
  · split <;> rfl

/-- Models with the default bounds that give every vector the same raw score and probability. -/
def defaultModel (raw p : ℚ) : EnsembleThreatModel ℚ where
  decisionFunction := fun _ => some raw
  predictProba := fun _ => some p
  isoScoreMin := -1 / 2
  isoScoreMax := 1 / 2

/-- For every pair of bounds the scores stay in the unit interval and the decision is monotone; where
the bounds are apart, the training interval is normalized onto the unit interval. -/
theorem ensemble_score_law (model : EnsembleThreatModel K) :
    (∀ v raw p, model.decisionFunction v = some raw → model.predictProba v = some p →
      0 ≤ p → p ≤ 1 →
      (0 ≤ model.normalizeIso raw ∧ model.normalizeIso raw ≤ 1) ∧
      (0 ≤ weightedSum model raw p ∧ weightedSum model raw p ≤ 1) ∧
      ∃ result, model.score v = some result ∧
        (0 ≤ result.isolationScore ∧ result.isolationScore ≤ 1) ∧
        (0 ≤ result.finalScore ∧ result.finalScore ≤ 1)) ∧
    (∀ v raw p v' raw' p', model.decisionFunction v = some raw → model.predictProba v = some p →
      model.decisionFunction v' = some raw' → model.predictProba v' = some p' →
      raw' ≤ raw → p ≤ p' →
      ∃ result result', model.score v = some result ∧ model.score v' = some result' ∧
        severity result.decision ≤ severity result'.decision) ∧
    (1 / powerOfTen 6 ≤ model.isoScoreMax - model.isoScoreMin →
      StrictAntiOn model.normalizeIso (Set.Icc model.isoScoreMin model.isoScoreMax) ∧
      model.normalizeIso '' Set.Icc model.isoScoreMin model.isoScoreMax = Set.Icc 0 1 ∧
      (∀ raw ∈ Set.Icc model.isoScoreMin model.isoScoreMax, model.normalizeIso raw =
        (model.isoScoreMax - raw) / (model.isoScoreMax - model.isoScoreMin)) ∧
      model.normalizeIso model.isoScoreMin = 1 ∧ model.normalizeIso model.isoScoreMax = 0) := by
  refine ⟨?_, ?_, ?_⟩
  · intro v raw p hraw hp hlow hhigh
    obtain ⟨result, hscore, hiso, hfinal, -⟩ := score_spec hraw hp
    have hnorm := normalizeIso_mem model raw
    have hsum := weightedSum_mem model raw ⟨hlow, hhigh⟩
    refine ⟨hnorm, hsum, result, hscore, ?_, ?_⟩
    · rw [hiso]
      exact round4_mem hnorm
    · rw [hfinal]
      exact round4_mem hsum
  · intro v raw p v' raw' p' hraw hp hraw' hp' hle hle'
    obtain ⟨result, hscore, -, -, hdecision⟩ := score_spec hraw hp
    obtain ⟨result', hscore', -, -, hdecision'⟩ := score_spec hraw' hp'
    refine ⟨result, result', hscore, hscore', ?_⟩
    rw [hdecision, hdecision']
    exact severity_mono (weightedSum_mono model hle hle')
  · intro hspan
    have hpos : 0 < model.isoScoreMax - model.isoScoreMin :=
      (one_div_pos.mpr (powerOfTen_pos 6)).trans_le hspan
    obtain ⟨hanti, himage⟩ := normalizeIso_bijective hspan
    have hle : model.isoScoreMin ≤ model.isoScoreMax := (sub_pos.mp hpos).le
    refine ⟨hanti, himage, fun raw => normalizeIso_of_mem hspan, ?_, ?_⟩
    · rw [normalizeIso_of_mem hspan ⟨le_rfl, hle⟩, div_self hpos.ne']
    · rw [normalizeIso_of_mem hspan ⟨hle, le_rfl⟩, sub_self, zero_div]

/-- A model with the default bounds that tells an ordinary vector from all others. -/
def dividingModel : EnsembleThreatModel ℚ where
  decisionFunction := fun v => some (if v = [.finite 0] then 1 / 4 else -1 / 2)
  predictProba := fun v => some (if v = [.finite 0] then 1 / 10 else 1)
  isoScoreMin := -1 / 2
  isoScoreMax := 1 / 2

/-- A vector with a lower raw score and a higher probability is blocked where the other one is allowed. -/
theorem ensemble_score_law_dividing : ∃ result result',
    dividingModel.score [.finite 0] = some result ∧ dividingModel.score [.finite 1] = some result' ∧
      severity result.decision ≤ severity result'.decision ∧
      result.decision = .allow ∧ result'.decision = .block ∧
      (0 ≤ result'.finalScore ∧ result'.finalScore ≤ 1) ∧
      dividingModel.normalizeIso (-1 / 2) = 1 := by
  obtain ⟨hbounds, hmono, hends⟩ := ensemble_score_law dividingModel
  obtain ⟨result, result', hscore, hscore', hle⟩ :=
    hmono [.finite 0] (1 / 4) (1 / 10) [.finite 1] (-1 / 2) 1 rfl rfl rfl rfl (by norm_num) (by norm_num)
  obtain ⟨-, -, blocked, hblocked, -, hfinal⟩ :=
    hbounds [.finite 1] (-1 / 2) 1 rfl rfl zero_le_one le_rfl
  obtain rfl := Option.some.inj (hscore'.symm.trans hblocked)
  have hallow : (dividingModel.score [.finite 0]).map (fun r => r.decision) = some .allow := by
    decide +kernel
  have hblock : (dividingModel.score [.finite 1]).map (fun r => r.decision) = some .block := by
    decide +kernel
  rw [hscore] at hallow
  rw [hscore'] at hblock
  refine ⟨result, result', hscore, hscore', hle, Option.some.inj hallow, Option.some.inj hblock, hfinal, ?_⟩
  exact (hends (by norm_num [dividingModel, powerOfTen])).2.2.2.1

/-- The decision is the one the reported score stands for. -/
def Explained (result : ScoreResult K) : Prop :=
  (result.decision = .block ↔ EnsembleThreatModel.blockThreshold ≤ result.finalScore) ∧
  (result.decision = .challenge ↔ EnsembleThreatModel.challengeThreshold ≤ result.finalScore ∧
    result.finalScore < EnsembleThreatModel.blockThreshold) ∧
  (result.decision = .allow ↔ result.finalScore < EnsembleThreatModel.challengeThreshold)

/-- The probability puts the weighted sum less than half a digit below a threshold. -/
def JustBelow (model : EnsembleThreatModel K) (raw p threshold : K) : Prop :=
  (threshold - 1 / 20000 - EnsembleThreatModel.isoWeight * model.normalizeIso raw) /
      EnsembleThreatModel.xgbWeight ≤ p ∧
    p < (threshold - EnsembleThreatModel.isoWeight * model.normalizeIso raw) /
      EnsembleThreatModel.xgbWeight

omit [FloorRing K] in
theorem justBelow_iff {model : EnsembleThreatModel K} {raw p threshold : K} :
    JustBelow model raw p threshold ↔
      threshold - 1 / 20000 ≤ weightedSum model raw p ∧ weightedSum model raw p < threshold := by
  have hweight : (0 : K) < EnsembleThreatModel.xgbWeight := by
    norm_num [EnsembleThreatModel.xgbWeight]
  unfold JustBelow weightedSum
  rw [div_le_iff₀ hweight, lt_div_iff₀ hweight, mul_comm p]
  constructor <;> rintro ⟨hlow, hhigh⟩ <;> constructor <;> linarith

omit [FloorRing K] in
theorem thresholds_lt :
    (EnsembleThreatModel.challengeThreshold : K) < EnsembleThreatModel.blockThreshold := by
  norm_num [EnsembleThreatModel.challengeThreshold, EnsembleThreatModel.blockThreshold]

omit [FloorRing K] [IsStrictOrderedRing K] in
theorem decisionOf_eq_block (x : K) :
    decisionOf x = .block ↔ EnsembleThreatModel.blockThreshold ≤ x := by
  unfold decisionOf
  split
  · rename_i h
    exact iff_of_true rfl h
  · rename_i h
    refine iff_of_false ?_ h
    split <;> simp

omit [FloorRing K] in
theorem decisionOf_eq_allow (x : K) :
    decisionOf x = .allow ↔ x < EnsembleThreatModel.challengeThreshold := by
  unfold decisionOf
  split
  · rename_i h
    exact iff_of_false (by simp) (thresholds_lt.le.trans h).not_gt
  · split
    · rename_i h
      exact iff_of_false (by simp) h.not_gt
    · rename_i h
      exact iff_of_true rfl (not_le.mp h)

omit [FloorRing K] in
theorem decisionOf_eq_challenge (x : K) : decisionOf x = .challenge ↔
    EnsembleThreatModel.challengeThreshold ≤ x ∧ x < EnsembleThreatModel.blockThreshold := by
  rw [← not_lt, ← decisionOf_eq_allow, ← not_le, ← decisionOf_eq_block]
  cases decisionOf x <;> simp

omit [FloorRing K] in
/-- Two sums have the same decision exactly if they are on the same side of both thresholds. -/
theorem decisionOf_eq_iff {x y : K} : decisionOf x = decisionOf y ↔
    (EnsembleThreatModel.blockThreshold ≤ x ↔ EnsembleThreatModel.blockThreshold ≤ y) ∧
    (EnsembleThreatModel.challengeThreshold ≤ x ↔ EnsembleThreatModel.challengeThreshold ≤ y) := by
  constructor
  · intro h
    rw [← decisionOf_eq_block, ← decisionOf_eq_block, ← not_lt, ← not_lt, ← decisionOf_eq_allow,
      ← decisionOf_eq_allow, h]
    exact ⟨Iff.rfl, Iff.rfl⟩
  · rintro ⟨hblock, hchallenge⟩
    unfold decisionOf
    simp only [hblock, hchallenge]

omit [FloorRing K] in
/-- A result is explained exactly if its decision is the one on its reported score. -/
theorem explained_iff {result : ScoreResult K} :
    Explained result ↔ result.decision = decisionOf result.finalScore := by
  unfold Explained
  rw [← decisionOf_eq_block, ← decisionOf_eq_challenge, ← decisionOf_eq_allow]
  cases result.decision <;> cases decisionOf result.finalScore <;> simp

/-- The rounded sum reaches the first threshold half a digit early. -/
theorem blockThreshold_le_round4 (x : K) : EnsembleThreatModel.blockThreshold ≤ round4 x ↔
    EnsembleThreatModel.blockThreshold - 1 / 20000 ≤ x := by
  have hthreshold : (EnsembleThreatModel.blockThreshold : K) = ((8500 : ℤ) : K) / powerOfTen 4 := by
    norm_num [EnsembleThreatModel.blockThreshold, powerOfTen]
  have hdigit : (1 / 2 / powerOfTen 4 : K) = 1 / 20000 := by norm_num [powerOfTen]
  rw [hthreshold, le_round4_iff (by decide), hdigit]

/-- The rounded sum reaches the second threshold half a digit early. -/
theorem challengeThreshold_le_round4 (x : K) : EnsembleThreatModel.challengeThreshold ≤ round4 x ↔
    EnsembleThreatModel.challengeThreshold - 1 / 20000 ≤ x := by
  have hthreshold : (EnsembleThreatModel.challengeThreshold : K) =
      ((6000 : ℤ) : K) / powerOfTen 4 := by
    norm_num [EnsembleThreatModel.challengeThreshold, powerOfTen]
  have hdigit : (1 / 2 / powerOfTen 4 : K) = 1 / 20000 := by norm_num [powerOfTen]
  rw [hthreshold, le_round4_iff (by decide), hdigit]

omit [FloorRing K] in
/-- A sum and its rounding are on the same side of a threshold except in the band below it. -/
theorem same_side_iff (threshold x : K) :
    (threshold ≤ x ↔ threshold - 1 / 20000 ≤ x) ↔ ¬ (threshold - 1 / 20000 ≤ x ∧ x < threshold) := by
  constructor
  · rintro hiff ⟨hlow, hhigh⟩
    exact (hiff.mpr hlow).not_gt hhigh
  · intro h
    constructor
    · intro hle
      linarith
    · intro hlow
      by_contra hlt
      exact h ⟨hlow, not_le.mp hlt⟩

/-- The reported score explains the decision exactly where the weighted sum is not less than half a
digit below one of the thresholds. -/
theorem explained_iff_not_justBelow {model : EnsembleThreatModel K} {v : List (Double K)} {raw p : K}
    (hraw : model.decisionFunction v = some raw) (hp : model.predictProba v = some p) :
    ∃ result, model.score v = some result ∧
      (Explained result ↔ ¬ JustBelow model raw p EnsembleThreatModel.blockThreshold ∧
        ¬ JustBelow model raw p EnsembleThreatModel.challengeThreshold) := by
  obtain ⟨result, hscore, -, hfinal, hdecision⟩ := score_spec hraw hp
  refine ⟨result, hscore, ?_⟩
  rw [explained_iff, hdecision, hfinal, decisionOf_eq_iff, blockThreshold_le_round4,
    challengeThreshold_le_round4, same_side_iff, same_side_iff, justBelow_iff, justBelow_iff]

/-- A score far from the thresholds is explained. -/
theorem explained_iff_not_justBelow_half :
    ∃ result, (defaultModel 0 0).score [.finite 0] = some result ∧ Explained result := by
  obtain ⟨result, hscore, hiff⟩ :=
    explained_iff_not_justBelow (show (defaultModel 0 0).decisionFunction [.finite 0] = some 0 from rfl)
      (show (defaultModel 0 0).predictProba [.finite 0] = some 0 from rfl)
  refine ⟨result, hscore, hiff.mpr ?_⟩
  constructor <;> norm_num [JustBelow, defaultModel, EnsembleThreatModel.normalizeIso, powerOfTen,
    EnsembleThreatModel.isoWeight, EnsembleThreatModel.xgbWeight,
    EnsembleThreatModel.blockThreshold, EnsembleThreatModel.challengeThreshold]

/-- A request whose score is reported as the blocking threshold and which is only challenged. -/
theorem not_explained_challenge :
    ¬ ∀ (model : EnsembleThreatModel ℚ) (v : List (Double ℚ)) (raw p : ℚ) (result : ScoreResult ℚ),
      model.decisionFunction v = some raw → model.predictProba v = some p → 0 ≤ p → p ≤ 1 →
      model.score v = some result → Explained result := by
  intro h
  let model := defaultModel (-1 / 2) (49997 / 65000)
  obtain ⟨result, hscore, -, hfinal, hdecision⟩ :=
    score_spec (show model.decisionFunction [.finite 0] = some (-1 / 2) from rfl)
      (show model.predictProba [.finite 0] = some (49997 / 65000) from rfl)
  have hsum : weightedSum model (-1 / 2) (49997 / 65000) = 84997 / 100000 := by
    norm_num [model, weightedSum, defaultModel, EnsembleThreatModel.normalizeIso, powerOfTen,
      EnsembleThreatModel.isoWeight, EnsembleThreatModel.xgbWeight]
  have hexplained := h _ _ _ _ result rfl rfl (by norm_num) (by norm_num) hscore
  rw [hsum] at hfinal hdecision
  have hblock : result.decision = .block := by
    rw [hexplained.1, hfinal, blockThreshold_le_round4]
    norm_num [EnsembleThreatModel.blockThreshold]
  rw [hdecision, decisionOf_eq_block] at hblock
  norm_num [EnsembleThreatModel.blockThreshold] at hblock

end ApiFirewall.Guarantees
