import Mathlib.Analysis.SpecialFunctions.Log.Basic
import SpeechGrammar.Proofs.ExactProbability

/-!
# Language weights as factors

A positive language weight is a factor of all log weights: one changes
nothing, any of them keeps the order of weights, and it can be divided out
again.  Real numbers with the natural logarithm are of this kind, and so are
rational numbers with what stands for a logarithm there.
-/

namespace SpeechGrammar

/-- Logarithms that a positive language weight multiplies, and can be divided out of again. -/
class ExactScaling (P W : Type) [ExactBranchWeight P] [ExactWeight W] extends
    ExactLikelihood P W where
  isFinite_one : BranchWeight.isFinite (1 : P) = true
  scale_one (weight : W) : scale (1 : P) weight = weight
  scale_lt_scale {languageWeight : P} {first second : W} (hpositive : 0 < languageWeight)
    (hless : first < second) : scale languageWeight first < scale languageWeight second
  likelihood_scale {languageWeight : P} (hpositive : 0 < languageWeight) (weight : W) :
    likelihood languageWeight (scale languageWeight weight) = likelihood 1 weight

/-- Numbers with a least element below them are multiplied in order by a positive factor. -/
theorem map_mul_lt_map_mul {R : Type} [Field R] [LinearOrder R] [IsStrictOrderedRing R]
    {factor : R} (hpositive : 0 < factor) {first second : WithBot R} (hless : first < second) :
    first.map (factor * ·) < second.map (factor * ·) := by
  cases second with
  | bot => exact absurd hless not_lt_bot
  | coe second =>
      cases first with
      | bot => exact WithBot.bot_lt_coe _
      | coe first =>
          exact WithBot.coe_lt_coe.mpr
            (mul_lt_mul_of_pos_left (WithBot.coe_lt_coe.mp hless) hpositive)

instance : ExactScaling ℚ (WithBot ℚ) where
  isFinite_one := rfl
  scale_one weight := by
    cases weight with
    | bot => rfl
    | coe number => exact congrArg WithBot.some (one_mul number)
  scale_lt_scale hpositive hless := map_mul_lt_map_mul hpositive hless
  likelihood_scale {languageWeight} hpositive weight := by
    cases weight with
    | bot => rfl
    | coe number =>
        change 1 + languageWeight * number / languageWeight = 1 + number / 1
        rw [mul_div_cancel_left₀ number hpositive.ne', div_one]

noncomputable def roundedReal (places : Nat) (weight : ℝ) : Numeral :=
  .finite (decide (weight < 0)) (round (weight * 10 ^ places)).natAbs (-places)

noncomputable instance : BranchWeight ℝ where
  decideLess := inferInstance
  decideAtMost := inferInstance
  ofCount count := count
  isFinite _ := true
  ofNumeral
    | .finite negative digits exponent =>
        (if negative then -1 else 1) * (digits : ℝ) * 10 ^ exponent
    | _ => 0
  numeral := roundedReal 12
  rounded := roundedReal

noncomputable instance : ExactBranchWeight ℝ where
  __ := (inferInstance : BranchWeight ℝ)
  __ := (inferInstance : Field ℝ)
  __ := (inferInstance : LinearOrder ℝ)
  __ := (inferInstance : IsStrictOrderedRing ℝ)
  ofCount_eq _ := rfl
  ofDecimal_nonneg digits exponent := by
    have hpower : (0 : ℝ) ≤ 10 ^ exponent := zpow_nonneg (by norm_num) _
    change (0 : ℝ) ≤ 1 * (digits : ℝ) * 10 ^ exponent
    exact mul_nonneg (mul_nonneg zero_le_one (Nat.cast_nonneg digits)) hpower

noncomputable instance : ExactScaling ℝ (WithBot ℝ) where
  ln probability := if 0 < probability then (Real.log probability : WithBot ℝ) else ⊥
  scale languageWeight weight := weight.map (languageWeight * ·)
  likelihood languageWeight weight :=
    (weight.map fun scaled => Real.exp (scaled / languageWeight)).unbotD 0
  scale_zero languageWeight := by
    change ((languageWeight * 0 : ℝ) : WithBot ℝ) = 0
    rw [mul_zero]
    rfl
  scale_add languageWeight first second := by
    cases first with
    | bot => rfl
    | coe first =>
        cases second with
        | bot => rfl
        | coe second => exact congrArg WithBot.some (mul_add languageWeight first second)
  floor_lt_ln hpositive := by
    rw [if_pos hpositive]
    exact WithBot.bot_lt_coe _
  ln_nonpos hpositive hle := by
    rw [if_pos hpositive]
    exact WithBot.coe_le_coe.mpr (Real.log_nonpos hpositive.le hle)
  floor_lt_scale {languageWeight weight} _ hfinite := by
    cases weight with
    | bot => exact absurd hfinite (lt_irrefl _)
    | coe number => exact WithBot.bot_lt_coe _
  scale_nonpos {languageWeight weight} hpositive hweight := by
    cases weight with
    | bot => exact bot_le
    | coe number =>
        exact WithBot.coe_le_coe.mpr
          (mul_nonpos_of_nonneg_of_nonpos hpositive.le (WithBot.coe_le_coe.mp hweight))
  isFinite_one := rfl
  scale_one weight := by
    cases weight with
    | bot => rfl
    | coe number => exact congrArg WithBot.some (one_mul number)
  scale_lt_scale hpositive hless := map_mul_lt_map_mul hpositive hless
  likelihood_scale {languageWeight} hpositive weight := by
    cases weight with
    | bot => rfl
    | coe number =>
        change Real.exp (languageWeight * number / languageWeight) = Real.exp (number / 1)
        rw [mul_div_cancel_left₀ number hpositive.ne', div_one]

end SpeechGrammar
