import SpeechGrammar.Proofs.Agreement
import SpeechGrammar.Proofs.Unfolding.Faultless

/-!
# Automata that accept more than their grammars

Where rules return to open ones inexactly an automaton accepts more than can be
derived.  It accepts no less if all returns are contained: then whatever is
derived is read along an accepting path with the weight of the derivation, so
the automaton scores it no lower.  Otherwise derivations may be lost, namely
where a rule that is gone on behind may be left through the exit of another.
-/

namespace SpeechGrammar.Scope

variable {P W : Type}

section Returns

variable [BranchWeight P]

def containsReturns (scope : Scope P) (name : String) (languageWeight : P) : Bool :=
  match scope.unfoldPublic name languageWeight with
  | .ok unfolding => unfolding.contained 0
  | .error _ => true

theorem unfoldPublic_eq_ok {scope : Scope P} {name : String} {languageWeight : P}
    (hfinite : BranchWeight.isFinite languageWeight = true) (hpositive : 0 < languageWeight)
    {target : Target} {top : Rule P} (hpublic : scope.grammar.public name = .ok (target, top)) :
    scope.unfoldPublic name languageWeight = .ok (scope.publicUnfolding target top) := by
  rw [unfoldPublic_eq_map name hfinite hpositive, hpublic]
  rfl

theorem buildRaw_eq_ok [LogWeight W] [Logarithm P W] {scope : Scope P} {rule : String}
    {languageWeight : P} {target : Target} {top : Rule P}
    (hfinite : BranchWeight.isFinite languageWeight = true) (hpositive : 0 < languageWeight)
    (hpublic : scope.grammar.public rule = .ok (target, top))
    (hfaultless : (scope.publicUnfolding target top).Faultless) :
    (scope.buildRaw rule languageWeight : Except (Refusal P) (Automaton P W)) =
      .ok ((scope.publicUnfolding target top).automaton (scope.automatonName rule)
        languageWeight) := by
  have hnone : (scope.publicUnfolding target top).report.fault? = none := hfaultless
  rw [buildRaw, unfoldPublic_eq_ok hfinite hpositive hpublic]
  dsimp only [bind, Except.bind]
  rw [hnone]
  rfl

end Returns

variable [ExactBranchWeight P] [ExactWeight W] [ExactLikelihood P W] {scope : Scope P}
  {rule : String} {languageWeight : P}

/-- The literals of a derivation tree are accepted with a score of at least the tree's weight. -/
theorem exists_score?_of_derivesPublic {target : Target} {top : Rule P} {automaton : Automaton P W}
    (hautomaton : automaton = (scope.publicUnfolding target top).automaton
      (scope.automatonName rule) languageWeight)
    (hwellFormed : automaton.WellFormed)
    (hpublic : scope.grammar.public rule = .ok (target, top))
    (hcovered : (scope.publicUnfolding target top).Covered [] 0) {tree : Tree P}
    (htree : scope.DerivesPublic rule tree) :
    ∃ score, automaton.score? tree.yield = some score ∧
      Logarithm.scale languageWeight tree.weight ≤ score := by
  obtain ⟨steps, hpath, hreading⟩ := exists_path_of_tree (W := W) hpublic hcovered htree
  have haccepting : automaton.Accepting tree.yield steps := by
    subst hautomaton
    exact ⟨congrArg Reading.words hreading, _, List.mem_singleton_self _, hpath⟩
  obtain ⟨score, hscore, hle⟩ := Automaton.exists_score?_of_accepting hwellFormed haccepting
  exact ⟨score, hscore, (congrArg Reading.weight hreading).symm.trans_le hle⟩

/--
Where all literals that a rule comes to are single words and returns are
contained, an automaton is built of every rule that tokens can be matched
against, and accepts the tokens with a score of at least that of each
derivation, scaled.
-/
theorem scores_at_least_derivations (hscope : scope.Identified) (hspeaks : scope.SpeaksWords rule)
    (hfinite : BranchWeight.isFinite languageWeight = true) (hpositive : 0 < languageWeight)
    (hcontains : scope.containsReturns rule languageWeight = true) {tokens : List String}
    {assignments : List Assignment} {deduction : Deduction W}
    (hdeduce : scope.deduce rule tokens assignments literally = .ok deduction) :
    ∃ automaton : Automaton P W, scope.buildRaw rule languageWeight = .ok automaton ∧
      ∀ found ∈ deduction.derivations, ∃ score, automaton.score? tokens = some score ∧
        Logarithm.scale languageWeight found.score ≤ score := by
  obtain ⟨target, top, hpublic, husable, -⟩ := exists_of_deduce_eq_ok hdeduce
  have hfaultless := faultless_publicUnfolding hscope.linked hpublic husable
  have hbuild := buildRaw_eq_ok (W := W) hfinite hpositive hpublic hfaultless
  rw [containsReturns, unfoldPublic_eq_ok hfinite hpositive hpublic] at hcontains
  have hcovered := covered_publicUnfolding hfaultless hcontains
  refine ⟨_, hbuild, fun found hfound => ?_⟩
  obtain ⟨-, tree, htree, -, hscore⟩ := exists_admits_of_mem_derivations hdeduce hfound
  have hyield : tree.yield = tokens := by
    have hprefix : tree.words <+: tokens := (Query.wordsMatch_iff_prefix rfl rfl).mp htree.spells
    rw [← hspeaks.words_eq htree.derives]
    exact hprefix.eq_of_length htree.consumes
  rw [hscore, ← hyield]
  exact exists_score?_of_derivesPublic rfl (wellFormed_of_buildRaw_eq_ok hscope.prepared hbuild)
    hpublic hcovered htree.derives

def nestingText : String :=
  "public <row> = <part> and <row> | <part>; <part> = item | open <row> close;"

def nesting : Scope ℚ := (parseLenient ⟨0⟩ nestingText none).1

/-- Tokens with a derivation of the score -3 are accepted with at least that score. -/
theorem nesting_scored : ∃ automaton : Automaton ℚ (WithBot ℚ),
    nesting.buildRaw "row" 1 = .ok automaton ∧
      ∃ score, automaton.score? ["open", "item", "and", "item", "close"] = some score ∧
        ((-3 : ℚ) : WithBot ℚ) ≤ score := by
  have herrors : (parseLenient (P := ℚ) ⟨0⟩ nestingText none).2 = [] := by decide +kernel
  have hparse : parse ⟨0⟩ nestingText none = .ok nesting :=
    parse_eq_ok_iff.mpr (Prod.ext rfl herrors)
  have hscope : nesting.Identified := identified_of_parse (by simp) (by simp) hparse
  have hspeaks : nesting.SpeaksWords "row" := speaksWords_of_literals "row" (by decide +kernel)
  have hcontains : nesting.containsReturns "row" 1 = true := by decide +kernel
  obtain ⟨deduction, hdeduce, hscores⟩ := exists_of_toOption_map_eq_some
    (by decide +kernel : ((nesting.deduce "row" ["open", "item", "and", "item", "close"] []
      literally : Except _ (Deduction (WithBot ℚ))).map
        fun deduction => deduction.derivations.map (·.score)).toOption =
          some [((-3 : ℚ) : WithBot ℚ)])
  obtain ⟨automaton, hbuild, hall⟩ :=
    scores_at_least_derivations hscope hspeaks rfl one_pos hcontains hdeduce
  have hlisted : ((-3 : ℚ) : WithBot ℚ) ∈ deduction.derivations.map (·.score) := by
    rw [hscores]
    exact List.mem_singleton_self _
  obtain ⟨found, hfound, hscore⟩ := List.mem_map.mp hlisted
  obtain ⟨score, hsome, hle⟩ := hall found hfound
  refine ⟨automaton, hbuild, score, hsome, ?_⟩
  rw [hscore] at hle
  exact (WithBot.coe_le_coe.mpr (one_mul (-3 : ℚ)).ge).trans hle

def strayingText : String := "public <a> = x <b> | y; <b> = z <a> | w <b> v | u;"

def straying : Scope ℚ := (parseLenient ⟨0⟩ strayingText none).1

/-- The tokens `x w z y v` have a derivation from `<a>`, and the automaton of `<a>` rejects them. -/
theorem straying_loses_derivation :
    parse ⟨0⟩ strayingText none = .ok straying ∧ straying.SpeaksWords "a" ∧
      (∃ deduction : Deduction (WithBot ℚ),
        straying.deduce "a" ["x", "w", "z", "y", "v"] [] literally = .ok deduction ∧
          deduction.derivations.length = 1) ∧
      ∃ automaton : Automaton ℚ (WithBot ℚ), straying.buildRaw "a" 1 = .ok automaton ∧
        automaton.accepts ["x", "w", "z", "y", "v"] = false := by
  have herrors : (parseLenient (P := ℚ) ⟨0⟩ strayingText none).2 = [] := by decide +kernel
  refine ⟨parse_eq_ok_iff.mpr (Prod.ext rfl herrors),
    speaksWords_of_literals "a" (by decide +kernel), ?_, ?_⟩
  · exact exists_of_toOption_map_eq_some (by decide +kernel)
  · exact exists_of_toOption_map_eq_some (by decide +kernel)

end SpeechGrammar.Scope
