import SpeechGrammar.Proofs.ExactProbability
import SpeechGrammar.Proofs.Unfolding.Routes
import SpeechGrammar.Proofs.Unfolding.Soundness

/-!
# Exact automata

If no open rule is returned to inexactly, an automaton as it is wired is read
along its accepting paths exactly like the derivation trees of its rule: it
has the same words, the same tags and the same weights.  A tree has a route
through the unfolded rule, and the labels of the states allow no other paths.
-/

namespace SpeechGrammar

variable {P W : Type} [BranchWeight P]

namespace Scope

section Built

variable [LogWeight W] [Logarithm P W] {scope : Scope P} {rule : String} {languageWeight : P}
  {automaton : Automaton P W}

theorem exists_faultless_of_buildRaw_eq_ok
    (hbuild : scope.buildRaw rule languageWeight = .ok automaton) :
    ∃ target top, scope.grammar.public rule = .ok (target, top) ∧
      scope.unfoldPublic rule languageWeight = .ok (scope.publicUnfolding target top) ∧
      (scope.publicUnfolding target top).Faultless ∧
      automaton = (scope.publicUnfolding target top).automaton (scope.automatonName rule)
        languageWeight := by
  rw [buildRaw] at hbuild
  cases hunfold : scope.unfoldPublic rule languageWeight with
  | error refusal =>
      rw [hunfold] at hbuild
      cases hbuild
  | ok unfolding =>
      rw [hunfold] at hbuild
      obtain ⟨target, top, hpublic, rfl⟩ := exists_of_unfoldPublic_eq_ok hunfold
      dsimp only [bind, Except.bind] at hbuild
      split at hbuild
      · cases hbuild
      · rename_i hfault
        exact ⟨target, top, hpublic, rfl, hfault, (Except.ok.inj hbuild).symm⟩

theorem exists_exact_of_buildRaw_eq_ok
    (hbuild : scope.buildRaw rule languageWeight = .ok automaton)
    (hreport : scope.overApproximated rule languageWeight = []) :
    ∃ target top, scope.grammar.public rule = .ok (target, top) ∧
      (scope.publicUnfolding target top).Exact ∧
      automaton = (scope.publicUnfolding target top).automaton (scope.automatonName rule)
        languageWeight := by
  obtain ⟨target, top, hpublic, hunfold, hfaultless, hautomaton⟩ :=
    exists_faultless_of_buildRaw_eq_ok hbuild
  rw [overApproximated, hunfold] at hreport
  exact ⟨target, top, hpublic, Unfolding.exact_iff.mpr ⟨hreport, hfaultless⟩, hautomaton⟩

end Built

variable [ExactWeight W] [ExactLogarithm P W] {scope : Scope P} {rule : String}
  {languageWeight : P} {automaton : Automaton P W}

section Paths

variable {target : Target} {top : Rule P}

/-- What is read along an accepting path is read off a derivation tree. -/
theorem exists_tree_of_path (hpublic : scope.grammar.public rule = .ok (target, top))
    (hbounded : scope.ProperlyBounded) (hexact : (scope.publicUnfolding target top).Exact)
    {steps : List (Transition W)}
    (hpath : PathIn
      ((scope.publicUnfolding target top).wire languageWeight [] .empty 0 : Piece W).transitions
      ((scope.publicUnfolding target top).wire languageWeight [] .empty 0 : Piece W).first steps
      ((scope.publicUnfolding target top).wire languageWeight [] .empty 0 : Piece W).last) :
    ∃ tree, scope.DerivesPublic rule tree ∧ tree.reading languageWeight = readingOf steps := by
  have hlabelled : scope.Labelled languageWeight [] 0 (scope.publicUnfolding target top)
      (scope.readings languageWeight (.reference ⟨top.name, some target⟩) : Set (Reading W)) :=
    labelsReferences_unfoldReference hbounded scope.ruleCount [] 0 _ hexact
  have hdoors : DoorsBelow 0 [] := fun _ hdoor => nomatch hdoor
  have hready : scope.Ready languageWeight [] [] 0 .empty (fun _ => ∅)
      ({.silent 0} : Set (Reading W)) := ready_aside
  obtain ⟨label, ⟨-, hrespects, hlast⟩, hfirst⟩ := hlabelled rfl hdoors hready
  obtain ⟨first, ⟨tree, htree, rfl⟩, second, rfl, heq⟩ :=
    hfirst (hrespects.reading_mem hpath (hlast rfl))
  rw [Reading.append_silent_zero, Reading.append_silent_zero, Reading.mark_empty] at heq
  refine ⟨tree, ?_, heq.symm⟩
  cases htree with
  | reference htarget hrule hbody =>
      obtain rfl := Option.some.inj htarget
      obtain rfl := Option.some.inj ((follow?_of_public hpublic).symm.trans hrule)
      exact ⟨target, top, _, hpublic, rfl, hbody⟩

/-- What is read off a derivation tree is read along an accepting path. -/
theorem exists_path_of_tree (hpublic : scope.grammar.public rule = .ok (target, top))
    (hcovered : (scope.publicUnfolding target top).Covered [] 0) {tree : Tree P}
    (htree : scope.DerivesPublic rule tree) :
    ∃ steps : List (Transition W), PathIn
      ((scope.publicUnfolding target top).wire languageWeight [] .empty 0 : Piece W).transitions
      ((scope.publicUnfolding target top).wire languageWeight [] .empty 0 : Piece W).first steps
      ((scope.publicUnfolding target top).wire languageWeight [] .empty 0 : Piece W).last ∧
      readingOf steps = tree.reading languageWeight := by
  obtain ⟨other, otherTop, body, hother, rfl, hbody⟩ := htree
  obtain ⟨rfl, rfl⟩ := Prod.mk.inj (Except.ok.inj (hpublic.symm.trans hother))
  have hderives : Derives scope (.reference ⟨top.name, some target⟩) (.rule target body) :=
    .reference rfl (follow?_of_public hpublic) hbody
  have hrouted : scope.Routed languageWeight
      ((scope.publicUnfolding target top).wire languageWeight [] .empty 0 : Piece W).transitions
      [] [] 0 (scope.publicUnfolding target top) (.rule target body) :=
    routed_unfold hderives scope.ruleCount [] 0 [] 0 hcovered
  obtain ⟨steps, final, hpath, hreading, rfl | ⟨depth, -, door, hdoor, -⟩⟩ :=
    hrouted .outermost (List.Subset.refl _)
  · exact ⟨steps, hpath, hreading.trans (Reading.mark_empty _)⟩
  · cases hdoor

end Paths

/--
If no return is inexact, what is read along the accepting paths of an automaton
as it is wired is what is read off the derivation trees of its rule: the
literals as words, the tags traversed, and the logarithms of the probabilities
of the branches taken, scaled by the language weight.
-/
theorem readings_of_paths_eq_readings_of_trees (hscope : scope.Prepared)
    (hbuild : scope.buildRaw rule languageWeight = .ok automaton)
    (hreport : scope.overApproximated rule languageWeight = []) :
    {reading : Reading W | ∃ steps final, final ∈ automaton.finals ∧
        PathIn automaton.transitions automaton.start steps final ∧ readingOf steps = reading} =
      {reading : Reading W | ∃ tree, scope.DerivesPublic rule tree ∧
        tree.reading languageWeight = reading} := by
  obtain ⟨target, top, hpublic, hexact, rfl⟩ := exists_exact_of_buildRaw_eq_ok hbuild hreport
  apply Set.Subset.antisymm
  · rintro reading ⟨steps, final, hfinal, hpath, rfl⟩
    obtain rfl := List.mem_singleton.mp hfinal
    exact exists_tree_of_path hpublic hscope.properlyBounded hexact hpath
  · rintro reading ⟨tree, htree, rfl⟩
    have hcovered := covered_publicUnfolding hexact.faultless (hexact.contained 0)
    obtain ⟨steps, hpath, hreading⟩ := exists_path_of_tree (W := W) hpublic hcovered htree
    exact ⟨steps, _, List.mem_singleton_self _, hpath, hreading⟩

def chainingText : String :=
  "public <chain> = stop | <step> <chain>; <step> = (left | /3/ right) {turn};"

def chaining : Scope ℚ := (parseLenient ⟨0⟩ chainingText none).1

/-- The readings of the accepting paths of `<chain>` are the readings of its derivation trees. -/
theorem chaining_exact : ∃ automaton : Automaton ℚ (WithBot ℚ),
    chaining.buildRaw "chain" 1 = .ok automaton ∧ automaton.transitions.length = 14 ∧
      {reading : Reading (WithBot ℚ) | ∃ steps final, final ∈ automaton.finals ∧
        PathIn automaton.transitions automaton.start steps final ∧ readingOf steps = reading} =
      {reading : Reading (WithBot ℚ) | ∃ tree, chaining.DerivesPublic "chain" tree ∧
        tree.reading 1 = reading} := by
  have herrors : (parseLenient (P := ℚ) ⟨0⟩ chainingText none).2 = [] := by decide +kernel
  have hparse : parse ⟨0⟩ chainingText none = .ok chaining :=
    parse_eq_ok_iff.mpr (Prod.ext rfl herrors)
  have hchaining : chaining.Prepared := prepared_of_parse (by simp) hparse
  have hbuilds : ((chaining.buildRaw "chain" 1 : Except _ (Automaton ℚ (WithBot ℚ))).map
      (·.transitions.length)).toOption = some 14 := by decide +kernel
  have hreport : chaining.overApproximated "chain" 1 = [] := by decide +kernel
  cases hbuild : (chaining.buildRaw "chain" 1 : Except _ (Automaton ℚ (WithBot ℚ))) with
  | error refusal =>
      rw [hbuild] at hbuilds
      cases hbuilds
  | ok automaton =>
      rw [hbuild] at hbuilds
      exact ⟨automaton, rfl, Option.some.inj hbuilds,
        readings_of_paths_eq_readings_of_trees hchaining hbuild hreport⟩

end Scope

end SpeechGrammar
