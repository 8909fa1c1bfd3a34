import SpeechGrammar.Automaton.Closure
import SpeechGrammar.Proofs.Agreement
import SpeechGrammar.Proofs.Deduction.Relabelling
import SpeechGrammar.Proofs.Unfolding.Relabelling

/-!
# Copies behave alike

A copy of a grammar has an identity of its own, and references to the copied
rules mean the copies.  Nothing that can be asked of it tells it from the
grammar: automata, deductions and refusals are the same, and so are the
unresolved references when it is bound once more.
-/

namespace SpeechGrammar.Scope

variable {P W : Type}

section Binding

variable {scope : Scope P} {id : GrammarId}

/-- The names of a copy are looked up as those of the grammar under the copy's identity. -/
theorem lookup?_copy (link : Reference) :
    (scope.copy id).lookup? link =
      (⟨{ scope.grammar with id }, scope.parents⟩ : Scope P).lookup? link := by
  have htarget (name : String) : (scope.grammar.copy id).targetOf? name =
      ({ scope.grammar with id } : Grammar P).targetOf? name := rfl
  rw [lookup?, lookup?, findSome?_filter, findSome?_filter]
  change (scope.grammar.copy id :: scope.parents).findSome? _ =
    (({ scope.grammar with id } : Grammar P) :: scope.parents).findSome? _
  rw [List.findSome?_cons, List.findSome?_cons, htarget]
  rfl

/-- Binding a rule does not depend on what its references were bound to before. -/
theorem bindRule_relabel (change : Target → Target) (rule : Rule P) :
    scope.bindRule (rule.relabel change) = scope.bindRule rule := by
  rw [bindRule, bindRule, Rule.relabel, Expansion.mapReferences_mapReferences]
  rfl

/-- A copy that is bound is a copy of the grammar as it is bound. -/
theorem resolve_copy (hcoherent : scope.Coherent) (hfresh : scope.Fresh id) :
    (scope.copy id).resolve = scope.resolve.copy id := by
  have hbind : (scope.copy id).bindRule =
      (⟨{ scope.grammar with id }, scope.parents⟩ : Scope P).bindRule := by
    funext rule
    have hreference : (scope.copy id).bindReference =
        (⟨{ scope.grammar with id }, scope.parents⟩ : Scope P).bindReference :=
      funext fun link => congrArg (Reference.mk link.name) (lookup?_copy link)
    rw [bindRule, bindRule, hreference]
  have hrules : (scope.grammar.copy id).rules.map (scope.copy id).bindRule =
      scope.grammar.rules.map
        (⟨{ scope.grammar with id }, scope.parents⟩ : Scope P).bindRule := by
    rw [Grammar.rules_copy hcoherent.2.1 hfresh, List.map_map, hbind]
    exact List.map_congr_left fun rule _ => bindRule_relabel _ rule
  have hbound := resolve_withId hcoherent.1 fun parent hparent => hfresh parent (.tail _ hparent)
  refine Eq.trans ?_ hbound
  exact congrArg (fun rules : List (Rule P) => (⟨({ scope.grammar with id, rules } :
    Grammar P).markRecursive, scope.parents⟩ : Scope P)) hrules

theorem unresolved_copy (grammar : Grammar P) (id : GrammarId) :
    (grammar.copy id).unresolved = grammar.unresolved := by
  rw [Grammar.unresolved, Grammar.unresolved, Grammar.copy_eq, List.flatMap_map]

end Binding

variable [BranchWeight P] [LogWeight W] [Logarithm P W] {scope : Scope P} {id : GrammarId}

/--
However a scope comes about, and whatever new identity is given to a copy of its own grammar,
the copy yields the same automata, closed or not, the same deductions and the same refusals; and
binding the copy gives the grammar as it is bound, with its identity changed to the copy's
everywhere, and leaves the same references unresolved.
-/
theorem Reachable.copy_behaves_alike (hscope : scope.Reachable) (hfresh : scope.Fresh id) :
    (∀ name languageWeight,
      ((scope.copy id).buildRaw name languageWeight : Except (Refusal P) (Automaton P W)) =
        scope.buildRaw name languageWeight) ∧
    (∀ name languageWeight,
      ((scope.copy id).buildRaw name languageWeight : Except (Refusal P) (Automaton P W)).map
        Automaton.close = (scope.buildRaw name languageWeight).map Automaton.close) ∧
    (∀ name tokens assignments policy,
      ((scope.copy id).deduce name tokens assignments policy :
        Except (Refusal P) (Deduction W)) = scope.deduce name tokens assignments policy) ∧
    (scope.copy id).resolve = { scope.resolve with
      grammar := { scope.resolve.grammar with
        id
        rules := scope.resolve.grammar.rules.map
          (Rule.relabel (Target.move scope.grammar.id id)) } } ∧
    (scope.copy id).resolve.grammar.unresolved = scope.resolve.grammar.unresolved := by
  have hcoherent := hscope.coherent
  have hrelabels := relabels_copy hcoherent hfresh
  have hresolve := resolve_copy hcoherent hfresh
  refine ⟨hrelabels.buildRaw_eq, fun name languageWeight => ?_, hrelabels.deduce_eq, hresolve, ?_⟩
  · rw [hrelabels.buildRaw_eq]
  · rw [hresolve]
    exact unresolved_copy scope.resolve.grammar id

def hostingText : String :=
  "grammar house.hosts; public <host> = the host | <guest> too; <guest> = you;"

def callingText : String := "public <call> = greet <hosts.host> [and <call>];"

def calling : Scope ℚ :=
  (parseLenient ⟨1⟩ callingText (some (parseLenient ⟨0⟩ hostingText none).1)).1

/--
In a copy of `calling` the rule `<call>`, which refers to itself and to a rule of the parent, is
built and deduced as in `calling`.
-/
theorem calling_copy_alike :
    (∃ automaton : Automaton ℚ (WithBot ℚ), (calling.copy ⟨2⟩).buildRaw "call" 1 = .ok automaton ∧
      automaton.accepts ["greet", "you", "too", "and", "greet", "the", "host"] = true) ∧
    ∃ deduction : Deduction (WithBot ℚ), (calling.copy ⟨2⟩).deduce "call"
      ["greet", "you", "too", "and", "greet", "the", "host"] [] literally = .ok deduction ∧
        deduction.derivations.length = 1 := by
  have hreachable : calling.Reachable := by
    refine .read ⟨1⟩ callingText (fun parent hparent => ?_) fun parent hparent => ?_
    · obtain rfl := Option.some.inj hparent
      exact .read ⟨0⟩ hostingText (by simp) (by simp)
    · obtain rfl := Option.some.inj hparent
      exact (by decide +kernel : ∀ grammar ∈ (parseLenient (P := ℚ) ⟨0⟩ hostingText none).1.chain,
        grammar.id ≠ ⟨1⟩)
  have hfresh : calling.Fresh ⟨2⟩ :=
    (by decide +kernel : ∀ grammar ∈ calling.chain, grammar.id ≠ ⟨2⟩)
  obtain ⟨hbuild, -, hdeduce, -⟩ :=
    Reachable.copy_behaves_alike (W := WithBot ℚ) hreachable hfresh
  rw [hbuild, hdeduce]
  exact ⟨exists_of_toOption_map_eq_some (by decide +kernel),
    exists_of_toOption_map_eq_some (by decide +kernel)⟩

end SpeechGrammar.Scope
