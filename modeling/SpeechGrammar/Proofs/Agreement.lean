import Mathlib.Algebra.Order.BigOperators.Group.List
import Mathlib.Algebra.Order.Field.Basic
import SpeechGrammar.Proofs.Automaton.Scoring
import SpeechGrammar.Proofs.Deduction.Completeness
import SpeechGrammar.Proofs.Derivation.Trimming
import SpeechGrammar.Proofs.Unfolding.Exactness
import SpeechGrammar.Proofs.Unfolding.WellFormed

/-!
# Deductions and automata agree

Tokens can be derived from a rule exactly if its automaton accepts them, where
the automaton is exact and words are compared letter by letter.  A search goes
through fewer trees than the automaton has paths for; but the rules of an
exact automaton recurse last, so every tree can be trimmed to one that is
searched for.
-/

namespace SpeechGrammar

namespace Scope

variable {P W : Type}

/-- Words are compared letter by letter, and all of them are known. -/
def literally : MatchPolicy where
  caseSensitive := true
  checkVocabulary := false

section Trees

variable [BranchWeight P] {scope : Scope P} {rule : String} {target : Target} {top : Rule P}

theorem recursesLast_of_publicUnfolding (hexact : (scope.publicUnfolding target top).Exact)
    {other : Target} {found : Rule P} (hleads : scope.Leads target other)
    (hfound : scope.follow? other = some found) :
    found.body.RecursesLast fun inner => scope.Leads inner other := by
  obtain ⟨before, hopens, -⟩ := Entered.outermost.exists_opens_of_reference hexact rfl
  obtain ⟨inside, lower, hinner⟩ := hopens.of_leads hleads
  exact hinner.recursesLast hfound

theorem exists_admits_of_derivesPublic (hpublic : scope.grammar.public rule = .ok (target, top))
    (hexact : (scope.publicUnfolding target top).Exact) {query : Query} {tree : Tree P}
    (htree : scope.DerivesPublic rule tree)
    (hspells : query.wordsMatch tree.words query.tokens = true)
    (hconsumes : tree.width = query.tokens.length) :
    ∃ other, scope.Admits query rule other := by
  have hbelow : scope.Below target [] 0 (.reference ⟨rule, some target⟩) := by
    refine ⟨trivial, fun link next hreaches hnext => ?_, fun entry hentry => nomatch hentry⟩
    cases hreaches with
    | here =>
        obtain rfl := Option.some.inj hnext
        exact ⟨.refl, fun entry hentry => nomatch hentry⟩
  rcases trims_of_derives (fun other found => recursesLast_of_publicUnfolding hexact)
    ((derivesPublic_iff hpublic).mp htree) hbelow (by rwa [List.drop_zero]) with
    ⟨other, hother, hwords, hfits⟩ | ⟨_, _, _, _, _, hopen, -⟩
  · have hspellsOther := hfits.spells
    rw [List.drop_zero] at hspellsOther
    exact ⟨other, (derivesPublic_iff hpublic).mpr hother, hspellsOther,
      (congrArg List.length hwords).trans hconsumes, hfits.guarded, hfits.productive⟩
  · cases hopen

theorem exists_admits_iff (hpublic : scope.grammar.public rule = .ok (target, top))
    (hexact : (scope.publicUnfolding target top).Exact) (tokens : List String)
    (vocabulary : SortedSet String) :
    (∃ tree, scope.Admits ⟨tokens, literally, vocabulary⟩ rule tree) ↔
      ∃ tree, scope.DerivesPublic rule tree ∧ tree.words = tokens := by
  constructor
  · rintro ⟨tree, htree⟩
    have hprefix : tree.words <+: tokens := (Query.wordsMatch_iff_prefix rfl rfl).mp htree.spells
    exact ⟨tree, htree.derives, hprefix.eq_of_length htree.consumes⟩
  · rintro ⟨tree, htree, rfl⟩
    refine exists_admits_of_derivesPublic hpublic hexact htree ?_ rfl
    exact (Query.wordsMatch_iff_prefix rfl rfl).mpr List.prefix_rfl

end Trees

variable [ExactBranchWeight P] [ExactWeight W] [ExactLikelihood P W] {scope : Scope P}
  {rule : String} {languageWeight : P} {automaton : Automaton P W}

/-- An exact automaton accepts the tokens that trees of its rule yield. -/
theorem accepts_iff_exists_derivesPublic (hscope : scope.Prepared)
    (hbuild : scope.buildRaw rule languageWeight = .ok automaton)
    (hreport : scope.overApproximated rule languageWeight = []) (tokens : List String) :
    automaton.accepts tokens = true ↔
      ∃ tree, scope.DerivesPublic rule tree ∧ tree.yield = tokens := by
  rw [Automaton.accepts_iff_exists_accepting (wellFormed_of_buildRaw_eq_ok hscope hbuild)]
  obtain ⟨target, top, hpublic, hexact, rfl⟩ := exists_exact_of_buildRaw_eq_ok hbuild hreport
  constructor
  · rintro ⟨steps, hwords, final, hfinal, hpath⟩
    obtain rfl := List.mem_singleton.mp hfinal
    obtain ⟨tree, htree, hreading⟩ :=
      exists_tree_of_path hpublic hscope.properlyBounded hexact hpath
    exact ⟨tree, htree, (congrArg Reading.words hreading).trans hwords⟩
  · rintro ⟨tree, htree, rfl⟩
    have hcovered := covered_publicUnfolding hexact.faultless (hexact.contained 0)
    obtain ⟨steps, hpath, hreading⟩ := exists_path_of_tree (W := W) hpublic hcovered htree
    exact ⟨steps, congrArg Reading.words hreading, _, List.mem_singleton_self _, hpath⟩

theorem deduces_iff_accepts_texts_of_exact (hscope : scope.Prepared)
    {tokens : List String} {assignments : List Assignment} {deduction : Deduction W}
    (hdeduce : scope.deduce rule tokens assignments literally = .ok deduction)
    (hbuild : scope.buildRaw rule languageWeight = .ok automaton)
    (hreport : scope.overApproximated rule languageWeight = []) :
    deduction.derivations ≠ [] ↔
      ∃ texts, automaton.accepts texts = true ∧ texts.flatMap Text.wordsOf = tokens := by
  obtain ⟨target, top, hpublic, hexact, -⟩ := exists_exact_of_buildRaw_eq_ok hbuild hreport
  rw [derivations_ne_nil_iff hdeduce, exists_admits_iff hpublic hexact]
  simp only [accepts_iff_exists_derivesPublic hscope hbuild hreport]
  constructor
  · rintro ⟨tree, htree, hwords⟩
    exact ⟨tree.yield, ⟨tree, htree, rfl⟩, hwords⟩
  · rintro ⟨_, ⟨tree, htree, rfl⟩, hwords⟩
    exact ⟨tree, htree, hwords⟩

/--
Where all literals that a rule comes to are single words and no return is
inexact, tokens have a derivation exactly if the automaton of the rule accepts
them.
-/
theorem deduces_iff_accepts (hscope : scope.Prepared) (hspeaks : scope.SpeaksWords rule)
    {tokens : List String} {assignments : List Assignment} {deduction : Deduction W}
    (hdeduce : scope.deduce rule tokens assignments literally = .ok deduction)
    (hbuild : scope.buildRaw rule languageWeight = .ok automaton)
    (hreport : scope.overApproximated rule languageWeight = []) :
    deduction.derivations ≠ [] ↔ automaton.accepts tokens = true := by
  obtain ⟨target, top, hpublic, hexact, -⟩ := exists_exact_of_buildRaw_eq_ok hbuild hreport
  rw [derivations_ne_nil_iff hdeduce, exists_admits_iff hpublic hexact,
    accepts_iff_exists_derivesPublic hscope hbuild hreport]
  refine exists_congr fun tree => and_congr_right fun htree => ?_
  rw [hspeaks.words_eq htree]

def stammeringText : String :=
  "public <talk> = [well] <talk> | (<pair>)* stop <more>; <pair> = one two; <more> = [so <talk>];"

def stammering : Scope ℚ := (parseLenient ⟨0⟩ stammeringText none).1

/-- The automaton of `<talk>` accepts a token list with a derivation and rejects one without. -/
theorem stammering_agrees : ∃ automaton : Automaton ℚ (WithBot ℚ),
    stammering.buildRaw "talk" 1 = .ok automaton ∧
      automaton.accepts ["well", "one", "two", "stop", "so", "stop"] = true ∧
      automaton.accepts ["well", "one", "stop"] = false := by
  have herrors : (parseLenient (P := ℚ) ⟨0⟩ stammeringText none).2 = [] := by decide +kernel
  have hparse : parse ⟨0⟩ stammeringText none = .ok stammering :=
    parse_eq_ok_iff.mpr (Prod.ext rfl herrors)
  have hscope : stammering.Prepared := prepared_of_parse (by simp) hparse
  have hspeaks : stammering.SpeaksWords "talk" :=
    speaksWords_of_literals "talk" (by decide +kernel)
  have hreport : stammering.overApproximated "talk" 1 = [] := by decide +kernel
  obtain ⟨automaton, hbuild, -⟩ := exists_of_toOption_map_eq_some
    (by decide +kernel : ((stammering.buildRaw "talk" 1 :
      Except _ (Automaton ℚ (WithBot ℚ))).map fun _ => ()).toOption = some ())
  obtain ⟨found, hfound, hone⟩ := exists_of_toOption_map_eq_some
    (by decide +kernel : ((stammering.deduce "talk" ["well", "one", "two", "stop", "so", "stop"]
      [] literally : Except _ (Deduction (WithBot ℚ))).map (·.derivations.length)).toOption =
        some 1)
  obtain ⟨empty, hempty, hnone⟩ := exists_of_toOption_map_eq_some
    (by decide +kernel : ((stammering.deduce "talk" ["well", "one", "stop"] [] literally :
      Except _ (Deduction (WithBot ℚ))).map (·.derivations.length)).toOption = some 0)
  refine ⟨automaton, hbuild, ?_, Bool.eq_false_iff.mpr fun haccepts => ?_⟩
  · exact (deduces_iff_accepts hscope hspeaks hfound hbuild hreport).mp
      (List.ne_nil_of_length_pos (by omega))
  · exact (deduces_iff_accepts hscope hspeaks hempty hbuild hreport).mpr haccepts
      (List.eq_nil_of_length_eq_zero hnone)

end Scope

end SpeechGrammar
