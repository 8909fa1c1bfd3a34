import SpeechGrammar.Proofs.Automaton.Indexing
import SpeechGrammar.Proofs.LanguageWeight
import SpeechGrammar.Proofs.Unfolding.Exactness

/-!
# Automata as they are built

An automaton as it is wired starts in its first state and ends in its second
one.  All states that it names exist, its words cost nothing, and nothing has a
positive weight.  So whatever is looked up when it is scored or closed is
there, and the same goes for the closed automaton.
-/

namespace SpeechGrammar

variable {P W : Type}

namespace Automaton

theorem Renumbers.start_eq_zero {automaton closed : Automaton P W} {kept : List Nat}
    (hrenumbers : automaton.Renumbers closed kept) (hstart : automaton.start = 0) :
    closed.start = 0 := by
  obtain ⟨hplace, hkept⟩ := List.getElem?_eq_some_iff.mp hrenumbers.start_eq
  by_contra hne
  have hless := List.pairwise_iff_getElem.mp hrenumbers.increasing 0 closed.start (by omega)
    hplace (Nat.pos_of_ne_zero hne)
  omega

variable [ExactWeight W]

/-- What automata are like as they are wired. -/
structure Built (automaton : Automaton P W) : Prop where
  wellFormed : automaton.WellFormed
  start_eq : automaton.start = 0
  finals_eq : automaton.finals = .singleton 1
  one_lt : 1 < automaton.stateCount
  word_weight : ∀ step ∈ automaton.transitions, step.word? ≠ none → step.weight = 0
  indexed : automaton.Indexed

/-- What automata are like when they have been closed. -/
structure Compact (automaton : Automaton P W) : Prop where
  wellFormed : automaton.WellFormed
  start_eq : automaton.start = 0
  finals_lt : ∀ final, final ∈ automaton.finals → final < automaton.stateCount
  indexed : automaton.Indexed

/-- Closing an automaton as it is wired makes one whose states all exist. -/
theorem Built.compact_close {automaton : Automaton P W} (hbuilt : automaton.Built) :
    automaton.close.Compact := by
  have htrimly := hbuilt.wellFormed.numbered.closesTrimly
  obtain ⟨kept, hkept⟩ := htrimly.renumbers
  exact
    { wellFormed := hbuilt.wellFormed.close
      start_eq := hkept.start_eq_zero hbuilt.start_eq
      finals_lt := htrimly.tidy.finals_lt
      indexed := htrimly.tidy.numbered.indexed htrimly.tidy.finals_lt }

end Automaton

namespace Scope

/-- A reference is wired between two new states, whatever it leads to. -/
theorem ends_of_unfoldReference [BranchWeight P] [LogWeight W] [Logarithm P W] (scope : Scope P)
    (room : Nat) (opened : List OpenRule) (floor : Nat) (link : Reference) (languageWeight : P)
    (doors : List Doors) (tags : TagSet) (next : Nat) :
    ((scope.unfoldReference room opened floor link).wire languageWeight doors tags next :
        Piece W).first = next ∧
      ((scope.unfoldReference room opened floor link).wire languageWeight doors tags next :
        Piece W).last = next + 1 := by
  rcases unfoldReference_cases scope room opened floor link with ⟨reason, heq, -⟩ |
    ⟨target, -, ⟨depth, rule, -, -, -, heq⟩ | ⟨left, rule, -, -, -, heq⟩⟩ <;>
    rw [heq, Unfolding.wire] <;> exact ⟨rfl, rfl⟩

variable [ExactBranchWeight P] [ExactWeight W] [ExactLikelihood P W] {scope : Scope P}
  {rule : String} {languageWeight : P} {automaton : Automaton P W}

/--
An automaton that is built of a grammar is well formed: it starts in state 0,
ends in state 1 only, has only transitions between its states, none of positive
weight, and reads its words at no cost.  Scoring, closing and pruning it never
look up a state it does not have, and nor do they for the closed automaton.
-/
theorem built_of_buildRaw_eq_ok (hscope : scope.Prepared)
    (hbuild : scope.buildRaw rule languageWeight = .ok automaton) :
    automaton.Built ∧ automaton.close.Compact := by
  have hwf := wellFormed_of_buildRaw_eq_ok hscope hbuild
  obtain ⟨target, top, hpublic, -, -, rfl⟩ := exists_faultless_of_buildRaw_eq_ok hbuild
  have hends : ((scope.publicUnfolding target top).wire languageWeight [] .empty 0 :
        Piece W).first = 0 ∧
      ((scope.publicUnfolding target top).wire languageWeight [] .empty 0 : Piece W).last = 1 :=
    scope.ends_of_unfoldReference scope.ruleCount [] 0 _ languageWeight [] .empty 0
  have hdoors : DoorsBelow 0 [] := fun _ hdoor => nomatch hdoor
  have hlast := (Unfolding.wire_bounded (W := W) languageWeight .empty hdoors
    (scope.publicUnfolding target top)).last_lt
  rw [hends.2] at hlast
  have hfinals : ((scope.publicUnfolding target top).automaton (scope.automatonName rule)
      languageWeight : Automaton P W).finals = .singleton 1 := congrArg SortedSet.singleton hends.2
  have hbuilt : ((scope.publicUnfolding target top).automaton (scope.automatonName rule)
      languageWeight : Automaton P W).Built := by
    constructor
    case wellFormed => exact hwf
    case start_eq => exact hends.1
    case finals_eq => exact hfinals
    case one_lt => exact hlast
    case word_weight =>
      exact Unfolding.forall_mem_wire (wired_word_weight languageWeight IsProbability)
        (hscope.probable _ _ _ _) _ _ _
    case indexed =>
      refine hwf.numbered.indexed fun final hfinal => ?_
      rw [hfinals] at hfinal
      obtain rfl := List.mem_singleton.mp hfinal
      exact hlast
  exact ⟨hbuilt, hbuilt.compact_close⟩

def routingText : String :=
  "public <route> = /2/ go <step>+ | [then] turn {turn} | <route> and <route>; <step> = on;"

def routing : Scope ℚ := (parseLenient ⟨0⟩ routingText none).1

/--
The automaton of `<route>` has 12 states as it is wired and 3 states when it is closed, and both are
as stated in `Built` and `Compact`.
-/
theorem routing_built : ∃ automaton : Automaton ℚ (WithBot ℚ),
    routing.buildRaw "route" 2 = .ok automaton ∧
      (automaton.stateCount, automaton.close.stateCount) = (12, 3) ∧
      automaton.Built ∧ automaton.close.Compact := by
  have herrors : (parseLenient (P := ℚ) ⟨0⟩ routingText none).2 = [] := by decide +kernel
  have hparse : parse ⟨0⟩ routingText none = .ok routing :=
    parse_eq_ok_iff.mpr (Prod.ext rfl herrors)
  have hscope : routing.Prepared := prepared_of_parse (by simp) hparse
  obtain ⟨automaton, hbuild, hcounts⟩ := exists_of_toOption_map_eq_some
    (by decide +kernel : ((routing.buildRaw "route" 2 :
      Except _ (Automaton ℚ (WithBot ℚ))).map fun automaton =>
        (automaton.stateCount, automaton.close.stateCount)).toOption = some (12, 3))
  exact ⟨automaton, hbuild, hcounts, built_of_buildRaw_eq_ok hscope hbuild⟩

end Scope

end SpeechGrammar
