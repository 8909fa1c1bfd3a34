import Mathlib.Order.Compare
import SpeechGrammar.Proofs.Automaton.Closing
import SpeechGrammar.Proofs.Automaton.Reweighing
import SpeechGrammar.Proofs.ExactScaling

/-!
# Scaling an automaton

Multiplying all weights of an automaton by a language weight multiplies its
scores by it, and an automaton may be closed before or after that.  The text of
an automaton gives probabilities, from which the language weight is divided
out, so it stays the same.
-/

namespace SpeechGrammar

variable {P W : Type} [ExactBranchWeight P] [ExactWeight W] [ExactScaling P W]
  {languageWeight : P}

theorem strictMono_scale (hpositive : 0 < languageWeight) :
    StrictMono (Logarithm.scale languageWeight : W → W) :=
  fun _ _ hless => ExactScaling.scale_lt_scale hpositive hless

theorem keepsSums_scale (hpositive : 0 < languageWeight) :
    Automaton.KeepsSums (Logarithm.scale languageWeight : W → W) := by
  constructor
  case zero => exact ExactLogarithm.scale_zero languageWeight
  case add => exact ExactLogarithm.scale_add languageWeight
  case le_iff => exact fun _ _ => (strictMono_scale hpositive).le_iff_le
  case order_eq =>
    intro first second
    rw [ExactWeight.order_eq_compare, ExactWeight.order_eq_compare, ← cmp_eq_compare,
      ← cmp_eq_compare, (strictMono_scale hpositive).cmp_map_eq]

namespace Automaton

def scaled (languageWeight : P) (automaton : Automaton P W) : Automaton P W :=
  automaton.reweigh (Logarithm.scale languageWeight) languageWeight

variable {automaton : Automaton P W}

/-- An automaton may be scaled before or after it is closed. -/
theorem close_scaled (hpositive : 0 < languageWeight) (automaton : Automaton P W) :
    (automaton.scaled languageWeight).close = automaton.close.scaled languageWeight :=
  (keepsSums_scale hpositive).close_reweigh automaton

theorem WellFormed.scaled (hwf : automaton.WellFormed) (hpositive : 0 < languageWeight) :
    (automaton.scaled languageWeight).WellFormed := by
  have hold : ∀ step ∈ (automaton.scaled languageWeight).transitions,
      ∃ old ∈ automaton.transitions, old.mapWeight (Logarithm.scale languageWeight) = step :=
    fun step hstep => List.mem_map.mp hstep
  refine ⟨hwf.start_lt, fun step hstep => ?_, fun step hstep => ?_, fun step hstep => ?_,
    fun step hstep => ?_⟩ <;>
    obtain ⟨old, hmem, rfl⟩ := hold step hstep
  · exact hwf.source_lt old hmem
  · exact hwf.target_lt old hmem
  · exact ExactLikelihood.floor_lt_scale hpositive (hwf.finite old hmem)
  · exact ExactLikelihood.scale_nonpos hpositive (hwf.nonpositive old hmem)

theorem pathIn_scaled_iff {first last : Nat} {steps : List (Transition W)} :
    PathIn (automaton.scaled languageWeight).transitions first steps last ↔
      ∃ old, PathIn automaton.transitions first old last ∧
        old.map (·.mapWeight (Logarithm.scale languageWeight)) = steps := by
  induction steps generalizing first with
  | nil => simp
  | cons step steps ih =>
      rw [PathIn.cons_iff, ih]
      constructor
      · rintro ⟨hmem, rfl, rest, hrest, rfl⟩
        obtain ⟨old, hold, rfl⟩ := List.mem_map.mp hmem
        exact ⟨old :: rest, ⟨hold, rfl, hrest⟩, rfl⟩
      · rintro ⟨_ | ⟨old, rest⟩, hpath, hsame⟩
        · cases hsame
        · obtain ⟨rfl, rfl⟩ := List.cons_eq_cons.mp hsame
          obtain ⟨hold, rfl, hrest⟩ := hpath
          exact ⟨List.mem_map_of_mem hold, rfl, rest, hrest, rfl⟩

omit [ExactBranchWeight P] [ExactWeight W] [ExactScaling P W] in
theorem wordsOf_map_mapWeight (change : W → W) (steps : List (Transition W)) :
    wordsOf (steps.map (·.mapWeight change)) = wordsOf steps := by
  rw [wordsOf, List.filterMap_map]
  rfl

theorem weightOf_map_scale (steps : List (Transition W)) :
    weightOf (steps.map (·.mapWeight (Logarithm.scale languageWeight))) =
      Logarithm.scale languageWeight (weightOf steps) := by
  induction steps with
  | nil => exact (ExactLogarithm.scale_zero languageWeight).symm
  | cons step steps ih =>
      rw [List.map_cons, weightOf_cons, weightOf_cons, ih, ExactLogarithm.scale_add]
      rfl

theorem pathWeights_scaled (tokens : List String) :
    (automaton.scaled languageWeight).pathWeights tokens =
      Logarithm.scale languageWeight '' automaton.pathWeights tokens := by
  ext weight
  constructor
  · rintro ⟨steps, ⟨hwords, final, hfinal, hpath⟩, rfl⟩
    obtain ⟨old, hold, rfl⟩ := pathIn_scaled_iff.mp hpath
    rw [wordsOf_map_mapWeight] at hwords
    exact ⟨weightOf old, ⟨old, ⟨hwords, final, hfinal, hold⟩, rfl⟩,
      (weightOf_map_scale old).symm⟩
  · rintro ⟨_, ⟨old, ⟨hwords, final, hfinal, hold⟩, rfl⟩, rfl⟩
    refine ⟨_, ⟨?_, final, hfinal, pathIn_scaled_iff.mpr ⟨old, hold, rfl⟩⟩, weightOf_map_scale old⟩
    rw [wordsOf_map_mapWeight, hwords]

theorem score?_scaled (hwf : automaton.WellFormed) (hpositive : 0 < languageWeight)
    (tokens : List String) :
    (automaton.scaled languageWeight).score? tokens =
      (automaton.score? tokens).map (Logarithm.scale languageWeight) := by
  have hmono := strictMono_scale (W := W) hpositive
  apply Option.ext
  intro score
  rw [score?_eq_some_iff (hwf.scaled hpositive), pathWeights_scaled, Option.map_eq_some_iff]
  constructor
  · rintro ⟨⟨weight, hweight, rfl⟩, habove⟩
    refine ⟨weight, (score?_eq_some_iff hwf tokens weight).mpr ⟨hweight, fun other hother => ?_⟩,
      rfl⟩
    exact hmono.le_iff_le.mp (habove ⟨other, hother, rfl⟩)
  · rintro ⟨weight, hweight, rfl⟩
    exact hmono.monotone.map_isGreatest ((score?_eq_some_iff hwf tokens weight).mp hweight)

/-- The text of an automaton does not tell which language weight it is scaled by. -/
theorem text_scaled (hpositive : 0 < languageWeight) (hunit : automaton.languageWeight = 1) :
    (automaton.scaled languageWeight).text = automaton.text := by
  have hlines : (automaton.scaled languageWeight).transitions.map
      (transitionLine languageWeight) = automaton.transitions.map (transitionLine (1 : P)) := by
    rw [scaled, reweigh, List.map_map]
    apply List.map_congr_left
    intro step _
    have hlikelihood : Logarithm.likelihood languageWeight
        (step.mapWeight (Logarithm.scale languageWeight)).weight =
          (Logarithm.likelihood 1 step.weight : P) :=
      ExactScaling.likelihood_scale hpositive step.weight
    rw [Function.comp_apply]
    unfold transitionLine
    dsimp only
    rw [hlikelihood]
    rfl
  have hscaled : (automaton.scaled languageWeight).languageWeight = languageWeight := rfl
  rw [text, text, linesOf, linesOf, hscaled, hunit, hlines]
  rfl

end Automaton

end SpeechGrammar
