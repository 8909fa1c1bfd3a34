import Mathlib.Logic.Equiv.Basic
import SpeechGrammar.Proofs.Grammar.Integrity
import SpeechGrammar.Proofs.Grammar.Renaming
import SpeechGrammar.Grammar.Basic

/-!
# Relabelled scopes

One scope is another one relabelled if there is a change of targets, which does
not confuse any two of them, such that from a changed target a rule is followed
in the one wherever it is followed from the target in the other: the same rule,
but for the targets of its references.  A copy is a scope relabelled, where the
identity of the copied grammar and that of the copy trade places: neither of
the two means anything to the grammars behind.
-/

namespace SpeechGrammar

variable {P : Type}

def Reference.relabel (change : Target → Target) (link : Reference) : Reference :=
  { link with target? := link.target?.map change }

def Rule.relabel (change : Target → Target) (rule : Rule P) : Rule P :=
  { rule with body := rule.body.mapReferences (Reference.relabel change) }

theorem Rule.unusable?_relabel (change : Target → Target) (rule : Rule P) :
    (rule.relabel change).unusable? = rule.unusable? := rfl

theorem Expansion.mapReferences_congr {first second : Reference → Reference}
    {expansion : Expansion P}
    (hsame : ∀ link ∈ expansion.references, first link = second link) :
    expansion.mapReferences first = expansion.mapReferences second := by
  induction expansion using structural with
  | literal text => rfl
  | reference link => exact congrArg Expansion.reference (hsame link (List.mem_singleton_self _))
  | sequence items ih =>
      simp only [mapReferences, mapReferencesOfItems_eq_map]
      refine congrArg Expansion.sequence (List.map_congr_left fun item hitem => ?_)
      refine ih item hitem fun link hlink => hsame link ?_
      rw [references, referencesOfItems_eq_flatMap]
      exact List.mem_flatMap.mpr ⟨item, hitem, hlink⟩
  | alternation branches ih =>
      simp only [mapReferences, mapReferencesOfBranches_eq_map]
      refine congrArg Expansion.alternation (List.map_congr_left fun branch hbranch => ?_)
      refine congrArg (Branch.mk branch.weight? branch.probability) (ih branch hbranch ?_)
      refine fun link hlink => hsame link ?_
      rw [references, referencesOfBranches_eq_flatMap]
      exact List.mem_flatMap.mpr ⟨branch, hbranch, hlink⟩
  | repetition body least most? ih =>
      exact congrArg (Expansion.repetition · least most?) (ih hsame)
  | optional body ih => exact congrArg Expansion.optional (ih hsame)
  | tagged body tags ih => exact congrArg (Expansion.tagged · tags) (ih hsame)

theorem Expansion.mapReferences_id (expansion : Expansion P) :
    expansion.mapReferences id = expansion := by
  induction expansion using structural with
  | literal text => rfl
  | reference link => rfl
  | sequence items ih =>
      rw [mapReferences, mapReferencesOfItems_eq_map]
      exact congrArg Expansion.sequence ((List.map_congr_left ih).trans (List.map_id' items))
  | alternation branches ih =>
      rw [mapReferences, mapReferencesOfBranches_eq_map]
      have hsame : ∀ branch ∈ branches,
          ({ branch with body := branch.body.mapReferences id } : Branch P (Expansion P)) =
            branch := by
        intro branch hbranch
        rw [ih branch hbranch]
      exact congrArg Expansion.alternation
        ((List.map_congr_left hsame).trans (List.map_id' branches))
  | repetition body least most? ih => exact congrArg (Expansion.repetition · least most?) ih
  | optional body ih => exact congrArg Expansion.optional ih
  | tagged body tags ih => exact congrArg (Expansion.tagged · tags) ih

namespace Scope

/-- A scope in which rules are followed as in another one, but for a change of targets. -/
structure Relabels (change : Target → Target) (scope other : Scope P) : Prop where
  injective : Function.Injective change
  follow?_eq (target : Target) :
    other.follow? (change target) = (scope.follow? target).map (Rule.relabel change)
  public_eq (name : String) : other.grammar.public name = (scope.grammar.public name).map
    fun found => (change found.1, found.2.relabel change)
  name?_eq : other.grammar.name? = scope.grammar.name?
  vocabulary_eq : other.grammar.vocabulary = scope.grammar.vocabulary
  ruleCount_eq : other.ruleCount = scope.ruleCount

end Scope

/-! ## Copies -/

/-- The same place in another grammar, for two grammars that trade identities. -/
def Target.exchange (first second : GrammarId) (target : Target) : Target :=
  { target with grammar := Equiv.swap first second target.grammar }

theorem Target.exchange_injective (first second : GrammarId) :
    Function.Injective (Target.exchange first second) := by
  intro target other heq
  obtain ⟨hgrammar, hindex⟩ := Target.mk.inj heq
  cases target
  cases other
  rw [Target.mk.injEq]
  exact ⟨(Equiv.swap first second).injective hgrammar, hindex⟩

theorem Target.exchange_of_ne {first second : GrammarId} {target : Target}
    (hfirst : target.grammar ≠ first) (hsecond : target.grammar ≠ second) :
    target.exchange first second = target := by
  rw [exchange, Equiv.swap_apply_of_ne_of_ne hfirst hsecond]

theorem Target.exchange_eq_move {old new : GrammarId} {target : Target}
    (hnew : target.grammar ≠ new) : target.exchange old new = target.move old new := by
  rw [exchange, move]
  split
  · rename_i hold
    rw [hold, Equiv.swap_apply_left]
  · rename_i hold
    rw [Equiv.swap_apply_of_ne_of_ne hold hnew]

/-- References that lead to none of the two grammars are left alone. -/
theorem Rule.relabel_exchange_eq_self {first second : GrammarId} {rule : Rule P}
    {chain : List (Grammar P)} (hleads : rule.Leads chain)
    (hfirst : ∀ grammar ∈ chain, grammar.id ≠ first)
    (hsecond : ∀ grammar ∈ chain, grammar.id ≠ second) :
    rule.relabel (Target.exchange first second) = rule := by
  have hsame : ∀ link ∈ rule.body.references,
      link.relabel (Target.exchange first second) = id link := by
    intro link hlink
    rw [Reference.relabel]
    cases htarget : link.target? with
    | none => rw [Option.map_none, ← htarget, id]
    | some target =>
        obtain ⟨grammar, hgrammar, hid, -⟩ := hleads link hlink target htarget
        rw [Option.map_some, Target.exchange_of_ne (hid ▸ hfirst grammar hgrammar)
          (hid ▸ hsecond grammar hgrammar), ← htarget, id]
  rw [relabel, Expansion.mapReferences_congr hsame, Expansion.mapReferences_id]

theorem Grammar.rules_copy {grammar : Grammar P} {parents : List (Grammar P)} {id : GrammarId}
    (hleads : ∀ rule ∈ grammar.rules, rule.Leads (grammar :: parents))
    (hfresh : ∀ other ∈ grammar :: parents, other.id ≠ id) :
    (grammar.copy id).rules = grammar.rules.map (Rule.relabel (Target.exchange grammar.id id)) := by
  rw [Grammar.copy_eq]
  refine List.map_congr_left fun rule hrule => ?_
  refine congrArg (fun body => { rule with body }) (Expansion.mapReferences_congr ?_)
  intro link hlink
  refine congrArg (Reference.mk link.name) (Option.map_congr fun target htarget => ?_)
  obtain ⟨other, hother, hid, -⟩ := hleads rule hrule link hlink target htarget
  exact (Target.exchange_eq_move (hid ▸ hfresh other hother)).symm

theorem Grammar.find?_eq_none_of_ne {chain : List (Grammar P)} {wanted : GrammarId}
    (hall : ∀ grammar ∈ chain, grammar.id ≠ wanted) : chain.find? (·.id == wanted) = none :=
  List.find?_eq_none.mpr fun grammar hgrammar => by simpa using hall grammar hgrammar

namespace Scope

variable {scope : Scope P} {id : GrammarId}

/-- From a target with the places of copy and grammar exchanged a rule is followed in the copy. -/
theorem follow?_copy (hcoherent : scope.Coherent) (hfresh : scope.Fresh id) (target : Target) :
    (scope.copy id).follow? (target.exchange scope.grammar.id id) =
      (scope.follow? target).map (Rule.relabel (Target.exchange scope.grammar.id id)) := by
  have hnew : scope.grammar.id ≠ id := hfresh scope.grammar (.head _)
  have hbehind : ∀ parent ∈ scope.parents, parent.id ≠ id :=
    fun parent hparent => hfresh parent (.tail _ hparent)
  have hchain : (scope.copy id).chain = scope.grammar.copy id :: scope.parents := rfl
  rw [follow?, follow?, grammarWith?, grammarWith?, hchain, chain]
  by_cases hold : target.grammar = scope.grammar.id
  · -- A rule of the copied grammar itself.
    have hcopied : (scope.grammar.copy id :: scope.parents).find? (·.id == id) =
        some (scope.grammar.copy id) := List.find?_cons_of_pos (beq_self_eq_true id)
    have hown : (scope.grammar :: scope.parents).find? (·.id == scope.grammar.id) =
        some scope.grammar := List.find?_cons_of_pos (beq_self_eq_true scope.grammar.id)
    rw [Target.exchange, hold, Equiv.swap_apply_left]
    dsimp only
    rw [hcopied, hown]
    dsimp only
    rw [Grammar.rules_copy hcoherent.2.1 hfresh]
    exact List.getElem?_map
  · by_cases hcopy : target.grammar = id
    · -- The new identity means nothing to the scope, nor the old one to the copy.
      have hlost : (scope.grammar.copy id :: scope.parents).find? (·.id == scope.grammar.id) =
          none := Grammar.find?_eq_none_of_ne (List.forall_mem_cons.mpr ⟨hnew.symm, hcoherent.1⟩)
      have hunknown : (scope.grammar :: scope.parents).find? (·.id == id) = none :=
        Grammar.find?_eq_none_of_ne hfresh
      rw [Target.exchange, hcopy, Equiv.swap_apply_right]
      dsimp only
      rw [hlost, hunknown]
      rfl
    · -- A rule of a grammar behind, which is the same for both.
      have hskip (first : Grammar P) (hfirst : first.id ≠ target.grammar) :
          (first :: scope.parents).find? (·.id == target.grammar) =
            scope.parents.find? (·.id == target.grammar) :=
        List.find?_cons_of_neg (by simpa using hfirst)
      rw [Target.exchange_of_ne hold hcopy, hskip _ (Ne.symm hold), hskip _ (Ne.symm hcopy)]
      cases hfound : scope.parents.find? (·.id == target.grammar) with
      | none => rfl
      | some parent =>
          have hparent := List.mem_of_find?_eq_some hfound
          dsimp only
          cases hrule : parent.rules[target.index]? with
          | none => rfl
          | some rule =>
              have hleads := Grammar.Coherent.rule hcoherent.2.2 hparent
                (List.mem_of_getElem? hrule)
              rw [Option.map_some, Rule.relabel_exchange_eq_self hleads hcoherent.1 hbehind]

/-- A copy is a scope relabelled. -/
theorem relabels_copy (hcoherent : scope.Coherent) (hfresh : scope.Fresh id) :
    Relabels (Target.exchange scope.grammar.id id) scope (scope.copy id) where
  injective := Target.exchange_injective scope.grammar.id id
  follow?_eq := follow?_copy hcoherent hfresh
  public_eq name := by
    have hrules := Grammar.rules_copy hcoherent.2.1 hfresh
    have hindex : (scope.grammar.copy id).ruleIndex? name = scope.grammar.ruleIndex? name := rfl
    change (scope.grammar.copy id).public name = _
    rw [Grammar.public, Grammar.public, Grammar.publicRule?, Grammar.publicRule?, hindex, hrules]
    cases scope.grammar.ruleIndex? name with
    | none => rfl
    | some index =>
        dsimp only
        rw [List.getElem?_map]
        cases scope.grammar.rules[index]? with
        | none => rfl
        | some rule =>
            have hown : (⟨scope.grammar.id, index⟩ : Target).exchange scope.grammar.id id =
                ⟨id, index⟩ := by rw [Target.exchange, Equiv.swap_apply_left]
            cases hpublic : rule.isPublic with
            | false =>
                simp [Rule.relabel, hpublic, Except.map]
            | true =>
                simp [Rule.relabel, hpublic, Except.map, hown, Grammar.copy]
  name?_eq := rfl
  vocabulary_eq := rfl
  ruleCount_eq := by
    rw [ruleCount, ruleCount, chain, chain, List.flatMap_cons, List.flatMap_cons,
      List.length_append, List.length_append]
    exact congrArg (· + _) (List.length_map _)

end Scope

end SpeechGrammar
