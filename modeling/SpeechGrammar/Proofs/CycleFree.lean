import SpeechGrammar.Proofs.Agreement
import SpeechGrammar.Proofs.Unfolding.Faultless

/-!
# Grammars without cycles

A rule that leads to no cycle of references is never returned to while it is
unfolded, so its automaton is exact.  The automaton has one transition for the
whole text of a literal, which the search cuts into words at its blanks.  So
tokens have a derivation exactly if they are the words of texts that the
automaton accepts, which need not be single words.
-/

namespace SpeechGrammar

open Expansion (Reaches)

namespace Scope

variable {P W : Type}

section Exact

variable [BranchWeight P] {scope : Scope P} {root : Target}

/-- No rule that a rule leads to leads back to itself. -/
def LeadsToNoCycle (scope : Scope P) (root : Target) : Prop :=
  ∀ target, scope.Leads root target → ¬ Relation.TransGen scope.Calls target target

/-- No public rule of a name leads to a cycle. -/
def CycleFree (scope : Scope P) (name : String) : Prop :=
  ∀ target rule, scope.grammar.public name = .ok (target, rule) → scope.LeadsToNoCycle target

/--
A reference that is unfolded without a fault is unfolded exactly, where no rule
leads to a cycle and all open rules have led to the rule that is referred to.
-/
theorem exact_unfoldReference_of_faultless (hbounded : scope.ProperlyBounded)
    (hacyclic : scope.LeadsToNoCycle root) (room : Nat) (opened : List OpenRule) (floor : Nat)
    {link : Reference}
    (hleads : ∀ target, link.target? = some target → scope.Leads root target)
    (hcalls : ∀ target, link.target? = some target →
      ∀ rule ∈ opened, Relation.TransGen scope.Calls rule.target target)
    (hfaultless : (scope.unfoldReference room opened floor link).Faultless) :
    (scope.unfoldReference room opened floor link).Exact := by
  induction room using Nat.strongRecOn generalizing opened floor link with
  | ind room ih =>
      rcases unfoldReference_cases scope room opened floor link with ⟨reason, heq, -⟩ |
        ⟨target, htarget, ⟨depth, rule, hrule, rfl, -, -⟩ | ⟨left, rule, rfl, hrule, -, heq⟩⟩
      · rw [heq] at hfaultless
        exact (Unfolding.not_faultless_fault reason hfaultless).elim
      · exact (hacyclic _ (hleads _ htarget)
          (hcalls _ htarget rule (List.mem_of_getElem? hrule))).elim
      · rw [heq] at hfaultless ⊢
        have hbody := Unfolding.faultless_rule_iff.mp hfaultless
        refine Unfolding.exact_rule_iff.mpr ?_
        refine Expansion.holds_unfold Unfolding.passesUp_exact floor rule.body
          (fun inner hmeets near hinner => ?_) hbody
        have hreaches := hmeets.reaches (hbounded.of_follow? hrule)
        have hcall : ∀ next, inner.target? = some next → scope.Calls target next :=
          fun next hnext => ⟨rule, inner, hrule, hreaches, hnext⟩
        refine ih left (Nat.lt_succ_self left) _ near (fun next hnext => ?_)
          (fun next hnext other hother => ?_) hinner
        · exact (hleads target htarget).tail (hcall next hnext)
        · rcases List.mem_append.mp hother with hother | hother
          · exact (hcalls target htarget other hother).tail (hcall next hnext)
          · obtain rfl := List.mem_singleton.mp hother
            exact .single (hcall next hnext)

/-- There are no cycles if no rule is found again by a search from the rules it refers to. -/
theorem cycleFree_of_not_mem_reachable (hlinked : scope.Linked) (name : String)
    (hnone : ∀ target ∈ scope.targets, target ∉
      Graph.reachable scope.successors (scope.ruleCount + 2) (scope.successors target)) :
    scope.CycleFree name := by
  intro _ _ _ target _ hcycle
  obtain ⟨next, hcalls, hleads⟩ := Relation.TransGen.head'_iff.mp hcycle
  obtain ⟨rule, -, hrule, -⟩ := id hcalls
  have hallowance : scope.targets.length ≤ scope.ruleCount + 2 := by
    rw [length_targets]
    exact Nat.le_add_right ..
  refine hnone target (mem_targets hrule) ((Graph.mem_reachable_iff
    (fun node _ => hlinked.successors_subset node) (hlinked.successors_subset target)
    hallowance target).mpr ⟨next, hcalls.mem_successors, ?_⟩)
  exact Leads.leads_successors hleads

end Exact

variable [ExactBranchWeight P] [ExactWeight W] [ExactLikelihood P W] {scope : Scope P}
  {rule : String} {languageWeight : P} {automaton : Automaton P W}

theorem overApproximated_eq_nil (hscope : scope.Prepared) (hacyclic : scope.CycleFree rule)
    (hbuild : scope.buildRaw rule languageWeight = .ok automaton) :
    scope.overApproximated rule languageWeight = [] := by
  obtain ⟨target, top, hpublic, hunfold, hfaultless, -⟩ :=
    exists_faultless_of_buildRaw_eq_ok hbuild
  have hexact : (scope.publicUnfolding target top).Exact := by
    refine exact_unfoldReference_of_faultless hscope.properlyBounded (hacyclic target top hpublic)
      scope.ruleCount [] 0 (fun other hother => ?_) (fun _ _ _ hmem => nomatch hmem) hfaultless
    obtain rfl := Option.some.inj hother
    exact .refl
  rw [overApproximated, hunfold]
  exact (Unfolding.exact_iff.mp hexact).1

/--
Of a rule that leads to no cycle, tokens have a derivation exactly if the
automaton accepts some texts that have the tokens as their words.
-/
theorem deduces_iff_accepts_texts (hscope : scope.Prepared) (hacyclic : scope.CycleFree rule)
    {tokens : List String} {assignments : List Assignment} {deduction : Deduction W}
    (hdeduce : scope.deduce rule tokens assignments literally = .ok deduction)
    (hbuild : scope.buildRaw rule languageWeight = .ok automaton) :
    deduction.derivations ≠ [] ↔
      ∃ texts, automaton.accepts texts = true ∧ texts.flatMap Text.wordsOf = tokens :=
  deduces_iff_accepts_texts_of_exact hscope hdeduce hbuild
    (overApproximated_eq_nil hscope hacyclic hbuild)

def callingBossText : String := "public <call> = call <whom>; <whom> = \"the boss\" | bob;"

def callingBoss : Scope ℚ := (parseLenient ⟨0⟩ callingBossText none).1

theorem callingBoss_cycleFree : callingBoss.Prepared ∧ callingBoss.CycleFree "call" := by
  have herrors : (parseLenient (P := ℚ) ⟨0⟩ callingBossText none).2 = [] := by decide +kernel
  have hparse : parse ⟨0⟩ callingBossText none = .ok callingBoss :=
    parse_eq_ok_iff.mpr (Prod.ext rfl herrors)
  have hscope : callingBoss.Identified := identified_of_parse (by simp) (by simp) hparse
  exact ⟨hscope.prepared, cycleFree_of_not_mem_reachable hscope.linked "call" (by decide +kernel)⟩

/--
The automaton of `<call>` accepts texts whose words are `call the boss`, and none whose words are
`call boss`.
-/
theorem callingBoss_texts : ∃ automaton : Automaton ℚ (WithBot ℚ),
    callingBoss.buildRaw "call" 1 = .ok automaton ∧
      (∃ texts, automaton.accepts texts = true ∧
        texts.flatMap Text.wordsOf = ["call", "the", "boss"]) ∧
      ¬ ∃ texts, automaton.accepts texts = true ∧
        texts.flatMap Text.wordsOf = ["call", "boss"] := by
  obtain ⟨hscope, hacyclic⟩ := callingBoss_cycleFree
  obtain ⟨automaton, hbuild, -⟩ := exists_of_toOption_map_eq_some
    (by decide +kernel : ((callingBoss.buildRaw "call" 1 :
      Except _ (Automaton ℚ (WithBot ℚ))).map fun _ => ()).toOption = some ())
  obtain ⟨found, hfound, hone⟩ := exists_of_toOption_map_eq_some
    (by decide +kernel : ((callingBoss.deduce "call" ["call", "the", "boss"] [] literally :
      Except _ (Deduction (WithBot ℚ))).map (·.derivations.length)).toOption = some 1)
  obtain ⟨empty, hempty, hnone⟩ := exists_of_toOption_map_eq_some
    (by decide +kernel : ((callingBoss.deduce "call" ["call", "boss"] [] literally :
      Except _ (Deduction (WithBot ℚ))).map (·.derivations.length)).toOption = some 0)
  refine ⟨automaton, hbuild, ?_, fun haccepts => ?_⟩
  · exact (deduces_iff_accepts_texts hscope hacyclic hfound hbuild).mp
      (List.ne_nil_of_length_pos (by omega))
  · exact (deduces_iff_accepts_texts hscope hacyclic hempty hbuild).mpr haccepts
      (List.eq_nil_of_length_eq_zero hnone)

/--
The tokens `call the boss` have a derivation from `<call>`, and the automaton of `<call>` rejects
them.
-/
theorem callingBoss_matched_not_accepted :
    parse ⟨0⟩ callingBossText none = .ok callingBoss ∧ callingBoss.CycleFree "call" ∧
      (∃ deduction : Deduction (WithBot ℚ),
        callingBoss.deduce "call" ["call", "the", "boss"] [] literally = .ok deduction ∧
          deduction.derivations.length = 1) ∧
      ∃ automaton : Automaton ℚ (WithBot ℚ), callingBoss.buildRaw "call" 1 = .ok automaton ∧
        automaton.accepts ["call", "the", "boss"] = false := by
  have herrors : (parseLenient (P := ℚ) ⟨0⟩ callingBossText none).2 = [] := by decide +kernel
  refine ⟨parse_eq_ok_iff.mpr (Prod.ext rfl herrors), callingBoss_cycleFree.2, ?_, ?_⟩
  · exact exists_of_toOption_map_eq_some (by decide +kernel)
  · exact exists_of_toOption_map_eq_some (by decide +kernel)

end Scope

end SpeechGrammar
