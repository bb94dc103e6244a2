import ApiFirewall.Arithmetic.Entropy
import ApiFirewall.Engine.Features

/-!
# The entropy of a payload

Over the exact reals, with the logarithm to base two, the engine computes the entropy of the
characters of a text. The laws of entropies of lists are those of texts.
-/

namespace ApiFirewall.Guarantees

open ApiFirewall.Arithmetic ApiFirewall.Engine ApiFirewall.Wire
open Real

/-- The summand of one character. -/
theorem neg_frequency_mul_logb (s : Text) (c : CodePoint) :
    -(frequency s c * logb 2 (frequency s c)) = negMulLog (share s c) / log 2 := by
  change -(share s c * (log (share s c) / log 2)) = _
  rw [negMulLog, mul_div_assoc', ← neg_div, neg_mul]

/-- The engine computes the entropy of the characters. -/
theorem shannonEntropy_eq_entropy (s : Text) : shannonEntropy (logb 2) s = entropy 2 s := by
  unfold shannonEntropy
  split
  · rename_i hnil
    rw [hnil, entropy_nil]
  · have hfinset : s.dedup.toFinset = s.toFinset := by
      ext c
      simp
    calc -(s.dedup.map fun c => frequency s c * logb 2 (frequency s c)).sum
        = -∑ c ∈ s.toFinset, frequency s c * logb 2 (frequency s c) := by
          rw [← List.sum_toFinset _ s.nodup_dedup, hfinset]
      _ = ∑ c ∈ s.toFinset, negMulLog (share s c) / log 2 := by
          rw [← Finset.sum_neg_distrib]
          exact Finset.sum_congr rfl fun c _ => neg_frequency_mul_logb s c
      _ = entropy 2 s := (Finset.sum_div _ _ _).symm

/-- The number of distinct characters of a text. -/
def distinctCharacters (s : Text) : ℕ := s.dedup.length

theorem card_toFinset_text (s : Text) : s.toFinset.card = distinctCharacters s :=
  List.card_toFinset s

/-- A text a number of times over. -/
def repeated (k : ℕ) (s : Text) : Text := (List.replicate k s).flatten

/-- The entropy of a text lies between zero and the logarithm of the number of its distinct characters,
which it reaches exactly if all occur equally often. It is zero exactly if there is at most one,
and it depends neither on the order of the characters nor on how often the text is repeated. -/
theorem shannonEntropy_law (s : Text) :
    0 ≤ shannonEntropy (logb 2) s ∧
    shannonEntropy (logb 2) s ≤ logb 2 (distinctCharacters s) ∧
    (shannonEntropy (logb 2) s = logb 2 (distinctCharacters s) ↔
      ∀ c ∈ s, ∀ d ∈ s, s.count c = s.count d) ∧
    (shannonEntropy (logb 2) s = 0 ↔ distinctCharacters s ≤ 1) ∧
    (∀ t : Text, s.Perm t →
      shannonEntropy (logb 2) t = shannonEntropy (logb 2) s) ∧
    ∀ k, 0 < k → shannonEntropy (logb 2) (repeated k s) = shannonEntropy (logb 2) s := by
  simp only [shannonEntropy_eq_entropy, ← card_toFinset_text]
  refine ⟨entropy_nonneg one_lt_two _, entropy_le_logb_card one_lt_two _, entropy_eq_logb_card_iff one_lt_two _,
    entropy_eq_zero_iff one_lt_two _, fun t h => (entropy_perm h).symm, fun k hk => entropy_repeat _ hk⟩

example : distinctCharacters ("aaaaaaaaaaaaaaaa" : String) = 1 := by decide

end ApiFirewall.Guarantees
