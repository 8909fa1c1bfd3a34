import Mathlib.Algebra.Order.Ring.Int
import SpeechGrammar.Proofs.Automaton.Bypass
import SpeechGrammar.Proofs.Automaton.Pruning
import SpeechGrammar.Proofs.Automaton.Scoring

/-!
# What a closed automaton computes

Closing keeps the tokens that are accepted.  Epsilons between two words are
bypassed together with the word behind them, so their weights count; epsilons
behind the last word are dropped when final states are found, so theirs do not.
The score of a closed automaton is the greatest weight up to the last word.
It is the score of the automaton itself only where no better path loses weight
behind its last word.
-/

namespace SpeechGrammar

namespace Automaton

variable {P W : Type} [ExactWeight W] {automaton : Automaton P W}

theorem WellFormed.close (hwf : automaton.WellFormed) : automaton.close.WellFormed :=
  hwf.withoutEpsilons.prune

theorem pathWeights_close (hwf : automaton.WellFormed) (tokens : List String) :
    automaton.close.pathWeights tokens = automaton.withoutEpsilons.pathWeights tokens :=
  pathWeights_prune hwf.withoutEpsilons
    (fun _ hfinal => ((mem_finals_withoutEpsilons hwf.numbered).mp hfinal).1) tokens

/-- The score of a closed automaton is the greatest weight up to the last word. -/
theorem score?_close_eq_some_iff (hwf : automaton.WellFormed) (tokens : List String) (score : W) :
    automaton.close.score? tokens = some score ↔
      IsGreatest (automaton.spokenWeights tokens) score := by
  rw [score?_eq_some_iff hwf.close, pathWeights_close hwf,
    isGreatest_pathWeights_withoutEpsilons hwf]

theorem exists_accepting_close_iff (hwf : automaton.WellFormed) (tokens : List String) :
    (∃ steps, automaton.close.Accepting tokens steps) ↔
      ∃ steps, automaton.Accepting tokens steps := by
  constructor
  · rintro ⟨steps, hsteps⟩
    have hweight : weightOf steps ∈ automaton.close.pathWeights tokens := ⟨steps, hsteps, rfl⟩
    rw [pathWeights_close hwf] at hweight
    obtain ⟨raw, hraw, -⟩ := pathWeights_withoutEpsilons_subset hwf tokens hweight
    exact ⟨raw, hraw⟩
  · rintro ⟨steps, hsteps⟩
    obtain ⟨weight, hweight, -⟩ := exists_le_of_mem_spokenWeights hwf ⟨steps, hsteps, rfl⟩
    rw [← pathWeights_close hwf] at hweight
    obtain ⟨closed, hclosed, -⟩ := hweight
    exact ⟨closed, hclosed⟩

theorem accepts_close (hwf : automaton.WellFormed) (tokens : List String) :
    automaton.close.accepts tokens = automaton.accepts tokens := by
  rw [Bool.eq_iff_iff, accepts_iff_exists_accepting hwf.close, accepts_iff_exists_accepting hwf,
    exists_accepting_close_iff hwf]

/--
States 1 and 2 form a cycle of epsilon transitions, and an epsilon transition of weight -1 leads to
the final state.
-/
def costlyEnding : Automaton ℕ (WithBot ℤ) where
  name := "costly"
  stateCount := 4
  start := 0
  finals := .ofList [3]
  transitions :=
    [⟨0, 1, some "a", 0, .empty⟩, ⟨1, 2, none, (-1 : ℤ), .empty⟩, ⟨2, 1, none, 0, .empty⟩,
      ⟨2, 3, some "b", 0, .empty⟩, ⟨2, 3, none, (-1 : ℤ), .empty⟩]
  languageWeight := 1

theorem wellFormed_costlyEnding : costlyEnding.WellFormed where
  start_lt := by decide
  source_lt := by decide
  target_lt := by decide
  finite := by decide
  nonpositive := by decide

/--
A closed automaton accepts what the automaton itself accepts, and its score is
the greatest weight, up to the last word, of a path that is accepted.
-/
theorem close_scores_up_to_last_word (hwf : automaton.WellFormed) (tokens : List String) :
    automaton.close.accepts tokens = automaton.accepts tokens ∧
      (automaton.accepts tokens = true ↔ ∃ steps, automaton.Accepting tokens steps) ∧
      ∀ score, automaton.close.score? tokens = some score ↔
        IsGreatest (automaton.spokenWeights tokens) score :=
  ⟨accepts_close hwf tokens, accepts_iff_exists_accepting hwf tokens,
    score?_close_eq_some_iff hwf tokens⟩

/--
The greatest weights up to the last word are 0 for `a` and -1 for `a b`, read off the scores of the
closed automaton.
-/
theorem costlyEnding_scores_up_to_last_word :
    costlyEnding.WellFormed ∧
      IsGreatest (costlyEnding.spokenWeights ["a"]) 0 ∧
      IsGreatest (costlyEnding.spokenWeights ["a", "b"]) (-1 : ℤ) :=
  ⟨wellFormed_costlyEnding,
    ((close_scores_up_to_last_word wellFormed_costlyEnding ["a"]).2.2 0).mp (by decide +kernel),
    ((close_scores_up_to_last_word wellFormed_costlyEnding ["a", "b"]).2.2 (-1 : ℤ)).mp
      (by decide +kernel)⟩

/--
Closing keeps the score of some tokens exactly if no path that is accepted
weighs more up to its last word than the best one does on the whole.
-/
theorem score?_close_eq_score?_iff (hwf : automaton.WellFormed) (tokens : List String) :
    automaton.close.score? tokens = automaton.score? tokens ↔
      ∀ steps, automaton.Accepting tokens steps →
        ∃ other, automaton.Accepting tokens other ∧
          weightToLastWord steps ≤ weightOf other := by
  constructor
  · intro heq steps hsteps
    obtain ⟨score, hscore, -⟩ := exists_score?_of_accepting hwf hsteps
    obtain ⟨other, hother, hweight⟩ := score?_mem_pathWeights hwf hscore
    have hgreatest := (score?_close_eq_some_iff hwf tokens score).mp (heq.trans hscore)
    exact ⟨other, hother, hweight ▸ hgreatest.2 ⟨steps, hsteps, rfl⟩⟩
  · intro hlossless
    have hspoken : ∀ steps, automaton.Accepting tokens steps →
        weightOf steps ≤ weightToLastWord steps := by
      rintro steps ⟨-, final, -, hpath⟩
      exact weightOf_le_weightToLastWord fun step hstep => hwf.nonpositive step (hpath.subset hstep)
    refine Option.ext fun score => ?_
    rw [score?_close_eq_some_iff hwf, score?_eq_some_iff hwf]
    constructor
    · rintro ⟨⟨steps, hsteps, rfl⟩, habove⟩
      obtain ⟨other, hother, hle⟩ := hlossless steps hsteps
      have hspokenLe := habove ⟨other, hother, rfl⟩
      refine ⟨⟨other, hother, le_antisymm ((hspoken other hother).trans hspokenLe) hle⟩, ?_⟩
      rintro _ ⟨third, hthird, rfl⟩
      exact (hspoken third hthird).trans (habove ⟨third, hthird, rfl⟩)
    · rintro ⟨⟨steps, hsteps, rfl⟩, habove⟩
      have hupper : weightOf steps ∈ upperBounds (automaton.spokenWeights tokens) := by
        rintro _ ⟨third, hthird, rfl⟩
        obtain ⟨other, hother, hle⟩ := hlossless third hthird
        exact hle.trans (habove ⟨other, hother, rfl⟩)
      have hspokenLe : weightToLastWord steps ≤ weightOf steps := hupper ⟨steps, hsteps, rfl⟩
      exact ⟨⟨steps, hsteps, le_antisymm hspokenLe (hspoken steps hsteps)⟩, hupper⟩

/--
The token list `a` has the score -2 in `costlyEnding` and the score 0 in the closed automaton.
-/
theorem score?_close_costlyEnding_ne :
    costlyEnding.WellFormed ∧ costlyEnding.close.score? ["a"] = some 0 ∧
      costlyEnding.score? ["a"] = some (-2 : ℤ) ∧
      costlyEnding.close.score? ["a"] ≠ costlyEnding.score? ["a"] :=
  ⟨wellFormed_costlyEnding, by decide +kernel, by decide +kernel, by decide +kernel⟩

/--
For `a b` each weight up to the last word is at most the weight of an accepting path, read off the
equal scores before and after closing.
-/
theorem costlyEnding_lossless_of_two_words :
    costlyEnding.WellFormed ∧
      ∀ steps, costlyEnding.Accepting ["a", "b"] steps →
        ∃ other, costlyEnding.Accepting ["a", "b"] other ∧
          weightToLastWord steps ≤ weightOf other :=
  ⟨wellFormed_costlyEnding,
    (score?_close_eq_score?_iff wellFormed_costlyEnding ["a", "b"]).mp (by decide +kernel)⟩

end Automaton

end SpeechGrammar
