import SpeechGrammar.Proofs.Automaton.Acceptance
import SpeechGrammar.Proofs.Grammar.FromText
import SpeechGrammar.Proofs.OverApproximation
import SpeechGrammar.Proofs.Unfolding.Widening

/-!
# How iterations are counted

A search goes on with iterations until there are as many as a repetition may
have, and keeps what has as many as it must have.  An automaton has a copy for
every iteration that a repetition must have, even where it may not have so many.
So the two count alike where the bounds of all repetitions are proper.  Where
they are not the search finds nothing, and the automaton accepts what there is
when the bounds are widened.
-/

namespace SpeechGrammar

variable {P W : Type}

section Closed

variable [BranchWeight P] {scope : Scope P} {expansion : Expansion P}

theorem Expansion.exact_unfold_of_closed (hclosed : expansion.references = [])
    (follow : List OpenRule → Nat → Reference → Unfolding P) (opened : List OpenRule)
    (floor : Nat) : (expansion.unfold follow opened floor).Exact := by
  have hnone : ∀ link, ¬ expansion.Meets link := by
    intro link hmeets
    have hlink := hmeets.mem_references
    rw [hclosed] at hlink
    cases hlink
  have hfaultless : (expansion.unfold follow opened floor).Faultless :=
    holds_unfold Unfolding.passesUp_faultless floor expansion
      fun link hmeets => absurd hmeets (hnone link)
  exact holds_unfold Unfolding.passesUp_exact floor expansion
    (fun link hmeets => absurd hmeets (hnone link)) hfaultless

theorem Derives.of_closed {tree : Tree P} (hderives : Derives scope expansion tree)
    (hclosed : expansion.references = []) (other : Scope P) : Derives other expansion tree := by
  induction hderives with
  | literal text => exact .literal text
  | reference _ _ _ _ => cases hclosed
  | sequence hlength _ ih =>
      rw [Expansion.references, Expansion.referencesOfItems_eq_flatMap,
        List.flatMap_eq_nil_iff] at hclosed
      exact .sequence hlength fun item tree hmem =>
        ih item tree hmem (hclosed item (List.of_mem_zip hmem).1)
  | alternation hmem hpositive _ ih =>
      rw [Expansion.references, Expansion.referencesOfBranches_eq_flatMap,
        List.flatMap_eq_nil_iff] at hclosed
      exact .alternation hmem hpositive (ih (hclosed _ hmem))
  | repetition hleast hmost _ ih =>
      exact .repetition hleast hmost fun tree htree => ih tree htree hclosed
  | optional _ ih => exact .optional (ih hclosed)
  | tagged _ ih => exact .tagged (ih hclosed)

theorem Derives.words_eq_yield {tree : Tree P} (hderives : Derives scope expansion tree)
    (hclosed : expansion.references = [])
    (hwords : ∀ text ∈ expansion.literals, Text.wordsOf text = [text]) :
    tree.words = tree.yield := by
  have hsingle : ∀ text ∈ tree.yield, Text.wordsOf text = [text] := by
    intro text htext
    rcases hderives.utters htext with hliteral | ⟨link, -, hlink, -⟩
    · exact hwords text (Expansion.mem_literals_of_reaches hliteral)
    · have hmem := (Expansion.meets_of_reaches hlink).mem_references
      rw [hclosed] at hmem
      cases hmem
  rw [Tree.words, List.flatMap_congr hsingle, List.flatMap_singleton']

end Closed

namespace Scope

/-! ## Rules without references -/

section Automata

variable [BranchWeight P] [AbsorbingWeight W] [ExactLikelihood P W] {scope : Scope P}
  {rule : String} {languageWeight : P} {automaton : Automaton P W}

/-- An exact automaton accepts what trees yield once all bounds are widened. -/
theorem accepts_iff_exists_widened_derivesPublic
    (hbuild : scope.buildRaw rule languageWeight = .ok automaton)
    (hreport : scope.overApproximated rule languageWeight = []) (tokens : List String) :
    automaton.accepts tokens = true ↔
      ∃ tree, scope.widened.DerivesPublic rule tree ∧ tree.yield = tokens := by
  obtain ⟨hnumbered, hfinite⟩ := finite_of_buildRaw_eq_ok hbuild
  rw [hnumbered.accepts_iff_of_finite hfinite]
  obtain ⟨target, top, hpublic, hexact, rfl⟩ := exists_exact_of_buildRaw_eq_ok hbuild hreport
  rw [← scope.publicUnfolding_widened target top] at hexact ⊢
  have hwidened := public_widened hpublic
  constructor
  · rintro ⟨steps, hwords, final, hfinal, hpath⟩
    obtain rfl := List.mem_singleton.mp hfinal
    obtain ⟨tree, htree, hreading⟩ :=
      exists_tree_of_path hwidened scope.properlyBounded_widened hexact hpath
    exact ⟨tree, htree, (congrArg Reading.words hreading).trans hwords⟩
  · rintro ⟨tree, htree, rfl⟩
    have hcovered := covered_publicUnfolding hexact.faultless (hexact.contained 0)
    obtain ⟨steps, hpath, hreading⟩ := exists_path_of_tree (W := W) hwidened hcovered htree
    exact ⟨steps, congrArg Reading.words hreading, _, List.mem_singleton_self _, hpath⟩

end Automata

section Rules

variable [BranchWeight P] {scope : Scope P} {name : String} {target : Target} {top : Rule P}

theorem exists_derivesPublic_iff (hpublic : scope.grammar.public name = .ok (target, top))
    (holds : List String → Prop) :
    (∃ tree, scope.DerivesPublic name tree ∧ holds tree.yield) ↔
      ∃ tree, Derives scope top.body tree ∧ holds tree.yield := by
  constructor
  · rintro ⟨_, ⟨other, found, body, hother, rfl, hbody⟩, hyield⟩
    obtain ⟨rfl, rfl⟩ := Prod.mk.inj (Except.ok.inj (hpublic.symm.trans hother))
    exact ⟨body, hbody, hyield⟩
  · rintro ⟨body, hbody, hyield⟩
    exact ⟨.rule target body, ⟨target, top, body, hpublic, rfl, hbody⟩, hyield⟩

theorem exact_publicUnfolding_of_closed (hpublic : scope.grammar.public name = .ok (target, top))
    (husable : top.unusable? = none) (hclosed : top.body.references = []) :
    (scope.publicUnfolding target top).Exact := by
  have hrule := follow?_of_public hpublic
  rw [publicUnfolding]
  rcases unfoldReference_cases scope scope.ruleCount [] 0 ⟨top.name, some target⟩ with
    ⟨reason, -, hfault⟩ | ⟨other, hother, ⟨depth, rule, hopen, -⟩ | ⟨left, rule, -, hfound, -, heq⟩⟩
  · rcases (hfault target rfl).2 top hrule with hnone | hbroken
    · have hplace := List.length_pos_of_mem (mem_targets hrule)
      rw [length_targets, hnone] at hplace
      exact absurd hplace (lt_irrefl 0)
    · exact absurd husable hbroken
  · cases hopen
  · obtain rfl := Option.some.inj hother
    obtain rfl := Option.some.inj (hrule.symm.trans hfound)
    rw [heq]
    exact Unfolding.exact_rule_iff.mpr (Expansion.exact_unfold_of_closed hclosed _ _ _)

omit [BranchWeight P] in
theorem unusableBelow?_of_closed (hrule : scope.follow? target = some top)
    (husable : top.unusable? = none) (hclosed : top.body.references = []) :
    scope.unusableBelow? target = none := by
  have hsuccessors : scope.successors target = [] := by
    rw [successors, hrule]
    simp [hclosed]
  simp [unusableBelow?, Graph.reachable, Graph.visit, hsuccessors, hrule, husable]

/-- Tokens are matched against a public rule if all that it leads to can be used. -/
theorem exists_deduce_eq_ok [LogWeight W] [Logarithm P W]
    (hpublic : scope.grammar.public name = .ok (target, top))
    (husable : scope.unusableBelow? target = none) (tokens : List String)
    (assignments : List Assignment) (policy : MatchPolicy) :
    ∃ deduction : Deduction W, scope.deduce name tokens assignments policy = .ok deduction := by
  rw [deduce, hpublic]
  dsimp only [bind, Except.bind]
  rw [husable]
  exact ⟨_, rfl⟩

omit [BranchWeight P] in
theorem public_of_add? {rule : Rule P} {more : Grammar P}
    (hadd : scope.grammar.add? rule = some more) (hshown : rule.isPublic = true) :
    more.public rule.name = .ok (⟨scope.grammar.id, scope.grammar.rules.length⟩, rule) := by
  obtain rfl := Grammar.eq_push_of_add? hadd
  refine Grammar.public_eq_ok_iff.mpr ⟨rfl, ?_, List.getElem?_concat_length, hshown⟩
  rw [Grammar.ruleIndex?_push, if_pos rfl]

end Rules

/-! ## Counting -/

section Counting

variable [BranchWeight P] [AbsorbingWeight W] [ExactLikelihood P W] {scope : Scope P}
  {name : String} {languageWeight : P} {target : Target} {top : Rule P}

/--
A public rule without references, all of whose literals are single words, can be
matched and built.  Tokens are matched if they are the words of a tree of its
body, and accepted if they are those of a tree of its body with widened bounds.
-/
theorem exists_matched_and_built (hpublic : scope.grammar.public name = .ok (target, top))
    (husable : top.unusable? = none) (hclosed : top.body.references = [])
    (hwords : ∀ text ∈ top.body.literals, Text.wordsOf text = [text])
    (hfinite : BranchWeight.isFinite languageWeight = true) (hpositive : 0 < languageWeight)
    (tokens : List String) (assignments : List Assignment) :
    ∃ (deduction : Deduction W) (automaton : Automaton P W),
      scope.deduce name tokens assignments literally = .ok deduction ∧
      scope.buildRaw name languageWeight = .ok automaton ∧
      (deduction.derivations ≠ [] ↔
        ∃ tree, Derives scope top.body tree ∧ tree.words = tokens) ∧
      (automaton.accepts tokens = true ↔
        ∃ tree, Derives scope top.body.widened tree ∧ tree.words = tokens) := by
  have hexact := exact_publicUnfolding_of_closed hpublic husable hclosed
  have hreport : scope.overApproximated name languageWeight = [] := by
    rw [overApproximated, unfoldPublic_eq_ok hfinite hpositive hpublic]
    exact (Unfolding.exact_iff.mp hexact).1
  have hbuild := buildRaw_eq_ok (W := W) hfinite hpositive hpublic hexact.faultless
  obtain ⟨deduction, hdeduce⟩ := exists_deduce_eq_ok (W := W) hpublic
    (unusableBelow?_of_closed (follow?_of_public hpublic) husable hclosed) tokens assignments
    literally
  refine ⟨deduction, _, hdeduce, hbuild, ?_, ?_⟩
  · rw [derivations_ne_nil_iff hdeduce, exists_admits_iff hpublic hexact]
    exact exists_derivesPublic_iff hpublic fun texts => texts.flatMap Text.wordsOf = tokens
  · rw [accepts_iff_exists_widened_derivesPublic hbuild hreport,
      exists_derivesPublic_iff (public_widened hpublic) (· = tokens)]
    have hclosedWidened : top.body.widened.references = [] :=
      (Expansion.references_widened top.body).trans hclosed
    have hwordsWidened : ∀ text ∈ top.body.widened.literals, Text.wordsOf text = [text] := by
      rwa [Expansion.literals_widened]
    constructor
    · rintro ⟨tree, htree, rfl⟩
      exact ⟨tree, htree.of_closed hclosedWidened scope,
        htree.words_eq_yield hclosedWidened hwordsWidened⟩
    · rintro ⟨tree, htree, rfl⟩
      exact ⟨tree, htree.of_closed hclosedWidened scope.widened,
        (htree.words_eq_yield hclosedWidened hwordsWidened).symm⟩

/--
Whatever repetition without references is added as a public rule, its literals
being single words, it can be matched and built.  Tokens are matched exactly if
they are the words of a tree, and accepted exactly if they are those of a tree
once the greatest number of iterations is raised to the least one wherever it is
below that.  So whatever is matched is accepted, and matching and building count
alike where all bounds are proper.
-/
theorem repetition_counts {inner : Expansion P} {least : Nat} {most? : Option Nat}
    {more : Grammar P}
    (hadd : scope.grammar.add?
      { name, isPublic := true, body := .repetition inner least most? } = some more)
    (hclosed : inner.references = [])
    (hwords : ∀ text ∈ inner.literals, Text.wordsOf text = [text])
    (hfinite : BranchWeight.isFinite languageWeight = true) (hpositive : 0 < languageWeight)
    (tokens : List String) (assignments : List Assignment) :
    let grown : Scope P := { scope with grammar := more }
    ∃ (deduction : Deduction W) (automaton : Automaton P W),
      grown.deduce name tokens assignments literally = .ok deduction ∧
      grown.buildRaw name languageWeight = .ok automaton ∧
      (deduction.derivations ≠ [] ↔
        ∃ tree, Derives grown (.repetition inner least most?) tree ∧ tree.words = tokens) ∧
      (automaton.accepts tokens = true ↔
        ∃ tree, Derives grown (.repetition inner.widened least (most?.map (max · least))) tree ∧
          tree.words = tokens) ∧
      (deduction.derivations ≠ [] → automaton.accepts tokens = true) ∧
      ((Expansion.repetition inner least most?).ProperlyBounded →
        (deduction.derivations ≠ [] ↔ automaton.accepts tokens = true)) := by
  intro grown
  have hpublic : grown.grammar.public name =
      .ok (⟨scope.grammar.id, scope.grammar.rules.length⟩,
        { name, isPublic := true, body := .repetition inner least most? }) :=
    public_of_add? hadd rfl
  obtain ⟨deduction, automaton, hdeduce, hbuild, hmatches, haccepts⟩ :=
    exists_matched_and_built (W := W) hpublic rfl hclosed hwords hfinite hpositive tokens
      assignments
  refine ⟨deduction, automaton, hdeduce, hbuild, hmatches, haccepts, fun hsome => ?_,
    fun hbounded => ?_⟩
  · obtain ⟨tree, htree, hspoken⟩ := hmatches.mp hsome
    have hclosedWidened : (Expansion.repetition inner least most?).widened.references = [] :=
      (Expansion.references_widened _).trans hclosed
    exact haccepts.mpr ⟨tree, htree.widened.of_closed hclosedWidened grown, hspoken⟩
  · rw [hmatches, haccepts, Expansion.widened_eq_self hbounded]

end Counting

/-- A repetition of at most two greetings, each of which may be empty. -/
def greeting : Scope ℚ where
  grammar := ({ id := ⟨0⟩ } : Grammar ℚ).push
    { name := "greet"
      isPublic := true
      body := .repetition
        (.sequence [.optional (.literal "hey"), .repetition (.literal "you") 0 (some 2)])
        1 (some 2) }

/-- The tokens `you hey` have a derivation from `<greet>` and are accepted by its automaton. -/
theorem greeting_counts : ∃ (deduction : Deduction (WithBot ℚ))
    (automaton : Automaton ℚ (WithBot ℚ)),
    greeting.deduce "greet" ["you", "hey"] [] literally = .ok deduction ∧
      greeting.buildRaw "greet" 1 = .ok automaton ∧
      deduction.derivations ≠ [] ∧ automaton.accepts ["you", "hey"] = true := by
  have hadd : (child ⟨0⟩ none : Scope ℚ).grammar.add? _ = some greeting.grammar := rfl
  have hbounded : (Expansion.repetition (.sequence [.optional (.literal "hey"),
      .repetition (.literal "you") 0 (some 2)]) 1 (some 2) : Expansion ℚ).ProperlyBounded := by
    simp [Expansion.ProperlyBounded, Expansion.ProperlyBoundedItems]
  obtain ⟨deduction, automaton, hdeduce, hbuild, -, -, -, halike⟩ :=
    repetition_counts (P := ℚ) (W := WithBot ℚ) hadd rfl (by decide +kernel) rfl one_pos
      ["you", "hey"] []
  obtain ⟨found, hfound, hone⟩ := exists_of_toOption_map_eq_some
    (by decide +kernel : ((greeting.deduce "greet" ["you", "hey"] [] literally :
      Except _ (Deduction (WithBot ℚ))).map (·.derivations.length)).toOption = some 1)
  obtain rfl := Except.ok.inj (hfound.symm.trans hdeduce)
  have hsome : found.derivations ≠ [] := List.ne_nil_of_length_pos (by omega)
  exact ⟨found, automaton, hdeduce, hbuild, hsome, (halike hbounded).mp hsome⟩

/-- A repetition with the least count 2 and the greatest count 1. -/
def stammer : Scope ℚ where
  grammar := ({ id := ⟨0⟩ } : Grammar ℚ).push
    { name := "stammer", isPublic := true, body := .repetition (.literal "x") 2 (some 1) }

/-- The tokens `x x` have no derivation from `<stammer>` and are accepted by its automaton. -/
theorem stammer_miscounts :
    (child ⟨0⟩ none : Scope ℚ).grammar.add?
        { name := "stammer", isPublic := true, body := .repetition (.literal "x") 2 (some 1) } =
      some stammer.grammar ∧
    ∃ (deduction : Deduction (WithBot ℚ)) (automaton : Automaton ℚ (WithBot ℚ)),
      stammer.deduce "stammer" ["x", "x"] [] literally = .ok deduction ∧
        stammer.buildRaw "stammer" 1 = .ok automaton ∧
        deduction.derivations.length = 0 ∧ automaton.accepts ["x", "x"] = true := by
  obtain ⟨deduction, hdeduce, hnone⟩ := exists_of_toOption_map_eq_some
    (by decide +kernel : ((stammer.deduce "stammer" ["x", "x"] [] literally :
      Except _ (Deduction (WithBot ℚ))).map (·.derivations.length)).toOption = some 0)
  obtain ⟨automaton, hbuild, haccepts⟩ := exists_of_toOption_map_eq_some
    (by decide +kernel : ((stammer.buildRaw "stammer" 1 :
      Except _ (Automaton ℚ (WithBot ℚ))).map (·.accepts ["x", "x"])).toOption = some true)
  exact ⟨rfl, deduction, automaton, hdeduce, hbuild, hnone, haccepts⟩

end Scope

end SpeechGrammar
