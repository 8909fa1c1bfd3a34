import Mathlib.Algebra.Order.BigOperators.Group.List
import SpeechGrammar.Proofs.ExactProbability

/-!
# Saturating weights

Numbers are exact up to the largest one of single precision.  What would be
larger is infinite; a number divided by infinity is zero, and infinity divided
by itself has no value.  As weights are not negative, a sum of them is infinite
exactly if one of them is or their exact sum is too large.
-/

namespace SpeechGrammar

/-- Numbers that become infinite beyond a largest one. -/
inductive Saturating where
  | number (value : ℚ)
  | infinite
  | undefined
  deriving DecidableEq, Repr

namespace Saturating

def largest : ℚ := (2 ^ 24 - 1) * 2 ^ 104

def saturate (value : ℚ) : Saturating :=
  if value ≤ largest then .number value else .infinite

def add : Saturating → Saturating → Saturating
  | .number first, .number second => saturate (first + second)
  | .undefined, _ => .undefined
  | _, .undefined => .undefined
  | _, _ => .infinite

def divide : Saturating → Saturating → Saturating
  | .number first, .number second =>
      if second = 0 then (if first = 0 then .undefined else .infinite)
      else saturate (first / second)
  | .number _, .infinite => .number 0
  | .infinite, .number _ => .infinite
  | _, _ => .undefined

/-- Whether one number is less than another; nothing undefined is. -/
def isLess : Saturating → Saturating → Bool
  | .number first, .number second => first < second
  | .number _, .infinite => true
  | _, _ => false

def isAtMost : Saturating → Saturating → Bool
  | .number first, .number second => first ≤ second
  | .number _, .infinite => true
  | .infinite, .infinite => true
  | _, _ => false

instance : BranchWeight Saturating where
  zero := .number 0
  one := .number 1
  add := add
  div := divide
  lt first second := first.isLess second = true
  le first second := first.isAtMost second = true
  decideLess first second := inferInstanceAs (Decidable (first.isLess second = true))
  decideAtMost first second := inferInstanceAs (Decidable (first.isAtMost second = true))
  ofCount count := .number count
  isFinite
    | .number _ => true
    | _ => false
  ofNumeral
    | .finite negative digits exponent =>
        saturate ((if negative then -1 else 1) * (digits : ℚ) * 10 ^ exponent)
    | .infinite _ => .infinite
    | .notANumber => .undefined
  numeral
    | .number value => roundedRational 12 value
    | .infinite => .infinite false
    | .undefined => .notANumber
  rounded places
    | .number value => roundedRational places value
    | .infinite => .infinite false
    | .undefined => .notANumber

/-- The number there is, or zero. -/
def value : Saturating → ℚ
  | .number value => value
  | _ => 0

theorem zero_le_largest : 0 ≤ largest := by
  norm_num [largest]

theorem saturate_of_le {value : ℚ} (hle : value ≤ largest) : saturate value = .number value :=
  if_pos hle

theorem saturate_of_lt {value : ℚ} (hless : largest < value) : saturate value = .infinite :=
  if_neg (not_le.mpr hless)

theorem number_add (first second : ℚ) : number first + number second = saturate (first + second) :=
  rfl

theorem number_div_of_ne {first second : ℚ} (hsecond : second ≠ 0) :
    number first / number second = saturate (first / second) :=
  if_neg hsecond

theorem number_div_infinite (value : ℚ) : number value / infinite = 0 := rfl

theorem infinite_div_infinite : infinite / infinite = undefined := rfl

theorem number_pos_iff {value : ℚ} : (0 : Saturating) < number value ↔ 0 < value :=
  decide_eq_true_iff

theorem number_nonpos_iff {value : ℚ} : number value ≤ (0 : Saturating) ↔ value ≤ 0 :=
  decide_eq_true_iff

theorem saturate_pos {value : ℚ} (hpositive : 0 < value) : 0 < saturate value := by
  unfold saturate
  split
  · exact number_pos_iff.mpr hpositive
  · rfl

theorem saturate_ne_undefined (value : ℚ) : saturate value ≠ undefined := by
  unfold saturate
  split <;> simp

/-- Weights are infinite, or numbers that are not negative. -/
def IsWeight (weight : Saturating) : Prop :=
  weight = .infinite ∨ ∃ value, 0 ≤ value ∧ weight = .number value

theorem isWeight_zero : IsWeight 0 := .inr ⟨0, le_rfl, rfl⟩

theorem not_pos_div_infinite {weight : Saturating} (hweight : IsWeight weight) :
    ¬0 < weight / infinite := by
  rcases hweight with rfl | ⟨value, -, rfl⟩
  · rw [infinite_div_infinite]
    exact Bool.false_ne_true
  · rw [number_div_infinite]
    exact mt number_pos_iff.mp (lt_irrefl 0)

/-- Whatever decimal is written down is a weight. -/
theorem isWeight_ofDecimal (digits : Nat) (exponent : Int) :
    IsWeight (BranchWeight.ofDecimal digits exponent) := by
  have hpower : (0 : ℚ) ≤ 10 ^ exponent := zpow_nonneg (by norm_num) _
  have hvalue : (0 : ℚ) ≤ 1 * (digits : ℚ) * 10 ^ exponent :=
    mul_nonneg (mul_nonneg zero_le_one (Nat.cast_nonneg digits)) hpower
  change IsWeight (saturate (1 * (digits : ℚ) * 10 ^ exponent))
  unfold saturate
  split
  · exact .inr ⟨_, hvalue, rfl⟩
  · exact .inl rfl

/-- Weights whose exact sum is not too large. -/
def Summable (weights : List Saturating) : Prop :=
  ∃ values : List ℚ, weights = values.map number ∧ values.sum ≤ largest

variable {weights : List Saturating}

/-- Nothing that is added to infinity brings it back. -/
theorem foldl_add_infinite (hweights : ∀ weight ∈ weights, IsWeight weight) :
    weights.foldl (· + ·) infinite = infinite := by
  induction weights with
  | nil => rfl
  | cons weight weights ih =>
      obtain ⟨hweight, hothers⟩ := List.forall_mem_cons.mp hweights
      have hadd : infinite + weight = infinite := by
        rcases hweight with rfl | ⟨value, -, rfl⟩ <;> rfl
      rw [List.foldl_cons, hadd, ih hothers]

theorem foldl_add_numbers {values : List ℚ} (hvalues : ∀ value ∈ values, 0 ≤ value) (before : ℚ)
    (hsum : before + values.sum ≤ largest) :
    (values.map number).foldl (· + ·) (number before) = number (before + values.sum) := by
  induction values generalizing before with
  | nil => simp
  | cons value values ih =>
      obtain ⟨-, hothers⟩ := List.forall_mem_cons.mp hvalues
      have hrest : 0 ≤ values.sum := List.sum_nonneg hothers
      rw [List.sum_cons, ← add_assoc] at hsum
      rw [List.map_cons, List.foldl_cons, number_add, saturate_of_le (by linarith),
        ih hothers _ hsum, List.sum_cons, add_assoc]

/-- Weights are added up to infinity if one is infinite or their exact sum is too large. -/
theorem foldl_add_of_exceeds (hweights : ∀ weight ∈ weights, IsWeight weight) {before : ℚ}
    (hbefore : before ≤ largest)
    (hexceeds : ¬∃ values : List ℚ, weights = values.map number ∧
      before + values.sum ≤ largest) :
    weights.foldl (· + ·) (number before) = infinite := by
  induction weights generalizing before with
  | nil => exact absurd ⟨[], rfl, by simpa using hbefore⟩ hexceeds
  | cons weight weights ih =>
      obtain ⟨hweight, hothers⟩ := List.forall_mem_cons.mp hweights
      rw [List.foldl_cons]
      rcases hweight with rfl | ⟨value, -, rfl⟩
      · exact foldl_add_infinite hothers
      · rw [number_add]
        rcases le_or_gt (before + value) largest with hle | hlarge
        · rw [saturate_of_le hle]
          refine ih hothers hle ?_
          rintro ⟨values, rfl, hsum⟩
          exact hexceeds ⟨value :: values, rfl, by rwa [List.sum_cons, ← add_assoc]⟩
        · rw [saturate_of_lt hlarge]
          exact foldl_add_infinite hothers

theorem total_numbers {values : List ℚ} (hvalues : ∀ value ∈ values, 0 ≤ value)
    (hsum : values.sum ≤ largest) : BranchWeight.total (values.map number) = number values.sum := by
  have htotal := foldl_add_numbers hvalues (0 : ℚ) (by rwa [zero_add])
  rwa [zero_add] at htotal

theorem total_of_not_summable (hweights : ∀ weight ∈ weights, IsWeight weight)
    (hexceeds : ¬Summable weights) : BranchWeight.total weights = infinite := by
  refine foldl_add_of_exceeds hweights zero_le_largest ?_
  simp only [zero_add]
  exact hexceeds

end Saturating

end SpeechGrammar
