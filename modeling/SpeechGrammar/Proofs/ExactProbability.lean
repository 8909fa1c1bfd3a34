import Mathlib.Algebra.Order.Field.Basic
import Mathlib.Algebra.Order.Field.Rat
import Mathlib.Algebra.Order.Round
import Mathlib.Data.Rat.Floor
import SpeechGrammar.Proofs.ExactWeight

/-!
# Exact probabilities

Where branch weights are numbers of an ordered field, the share of a branch is
at most one.  Logarithms are told apart from other functions by two signs
only: that of a probability is finite and not positive, and scaling by a
positive language weight keeps that.

Rational numbers serve as weights of branches that are computed exactly.  What
stands for the logarithm of a probability is its distance from one, which is
not positive up to one either.
-/

namespace SpeechGrammar

/-- Branch weights that are computed with exactly. -/
class ExactBranchWeight (P : Type) extends BranchWeight P, Field P, LinearOrder P,
    IsStrictOrderedRing P where
  ofCount_eq (count : Nat) : BranchWeight.ofCount count = (count : P)
  ofDecimal_nonneg (digits : Nat) (exponent : Int) :
    (0 : P) ≤ BranchWeight.ofDecimal digits exponent

/-- Logarithms of which those of probabilities are finite and not positive. -/
class ExactLikelihood (P W : Type) [BranchWeight P] [ExactWeight W] extends
    ExactLogarithm P W where
  floor_lt_ln {probability : P} (hpositive : 0 < probability) :
    LogWeight.floor < (ln probability : W)
  ln_nonpos {probability : P} (hpositive : 0 < probability) (hle : probability ≤ 1) :
    (ln probability : W) ≤ 0
  floor_lt_scale {languageWeight : P} {weight : W} (hpositive : 0 < languageWeight)
    (hfinite : LogWeight.floor < weight) : LogWeight.floor < scale languageWeight weight
  scale_nonpos {languageWeight : P} {weight : W} (hpositive : 0 < languageWeight)
    (hweight : weight ≤ 0) : scale languageWeight weight ≤ 0

def roundedRational (places : Nat) (weight : ℚ) : Numeral :=
  .finite (decide (weight < 0)) (round (weight * 10 ^ places)).natAbs (-places)

instance : BranchWeight ℚ where
  decideLess := inferInstance
  decideAtMost := inferInstance
  ofCount count := count
  isFinite _ := true
  ofNumeral
    | .finite negative digits exponent =>
        (if negative then -1 else 1) * (digits : ℚ) * 10 ^ exponent
    | _ => 0
  numeral := roundedRational 12
  rounded := roundedRational

instance : ExactLogarithm ℚ (WithBot ℚ) where
  ln probability := (probability - 1 : ℚ)
  scale languageWeight weight := weight.map (languageWeight * ·)
  likelihood languageWeight weight :=
    (weight.map fun scaled => 1 + scaled / languageWeight).unbotD 0
  scale_zero languageWeight := by
    change ((languageWeight * 0 : ℚ) : WithBot ℚ) = 0
    rw [mul_zero]
    rfl
  scale_add languageWeight first second := by
    cases first with
    | bot => rfl
    | coe first =>
        cases second with
        | bot => rfl
        | coe second => exact congrArg WithBot.some (mul_add languageWeight first second)

instance : ExactBranchWeight ℚ where
  __ := (inferInstance : BranchWeight ℚ)
  __ := (inferInstance : Field ℚ)
  __ := (inferInstance : LinearOrder ℚ)
  __ := (inferInstance : IsStrictOrderedRing ℚ)
  ofCount_eq _ := rfl
  ofDecimal_nonneg digits exponent := by
    have hpower : (0 : ℚ) ≤ 10 ^ exponent := zpow_nonneg (by norm_num) _
    change (0 : ℚ) ≤ 1 * (digits : ℚ) * 10 ^ exponent
    exact mul_nonneg (mul_nonneg zero_le_one (Nat.cast_nonneg digits)) hpower

instance : ExactLikelihood ℚ (WithBot ℚ) where
  floor_lt_ln _ := WithBot.bot_lt_coe _
  ln_nonpos _ hle := WithBot.coe_le_coe.mpr (sub_nonpos.mpr hle)
  floor_lt_scale {languageWeight weight} _ hfinite := by
    cases weight with
    | bot => exact absurd hfinite (lt_irrefl _)
    | coe number => exact WithBot.bot_lt_coe _
  scale_nonpos {languageWeight weight} hpositive hweight := by
    cases weight with
    | bot => exact bot_le
    | coe number =>
        exact WithBot.coe_le_coe.mpr
          (mul_nonpos_of_nonneg_of_nonpos hpositive.le (WithBot.coe_le_coe.mp hweight))

end SpeechGrammar
