import SpeechGrammar.Deduction.Basic
import SpeechGrammar.Proofs.Grammar.Relabelling
import SpeechGrammar.Proofs.Reachability

/-!
# Matching in relabelled scopes

Where rules are followed as in another scope but for a change of targets,
utterances are matched alike: the rules that can be come to are the same, with
the same reasons not to use them, and every reference carries a match on in the
same ways.
-/

namespace SpeechGrammar

variable {P W : Type} [BranchWeight P] [LogWeight W] [Logarithm P W]

theorem Expansion.extend_mapReferences {query : Query}
    {follow others : Reference → Partial W → List (Partial W)} {change : Reference → Reference}
    (hfollow : ∀ link found, others (change link) found = follow link found)
    (expansion : Expansion P) (found : Partial W) :
    (expansion.mapReferences change).extend query others found =
      expansion.extend query follow found := by
  induction expansion using Expansion.structural generalizing found with
  | literal text => rfl
  | reference link => exact hfollow link found
  | sequence items ih =>
      have hitems : ∀ partials : List (Partial W),
          extendItems query others (mapReferencesOfItems change items) partials =
            extendItems query follow items partials := by
        induction items with
        | nil => exact fun _ => rfl
        | cons item items ihItems =>
            intro partials
            obtain ⟨ihItem, ihRest⟩ := List.forall_mem_cons.mp ih
            rw [mapReferencesOfItems, extendItems, extendItems, ihItems ihRest, funext ihItem]
      exact hitems [found]
  | alternation branches ih =>
      have hbranches : extendBranches query others (mapReferencesOfBranches change branches) found =
          extendBranches query follow branches found := by
        induction branches with
        | nil => rfl
        | cons branch branches ihBranches =>
            obtain ⟨ihBranch, ihRest⟩ := List.forall_mem_cons.mp ih
            rw [mapReferencesOfBranches, extendBranches, extendBranches, ihBranches ihRest,
              ihBranch]
      exact congrArg Partial.firsts hbranches
  | repetition body least most? ih =>
      exact congrArg (Partial.repeated query · least most? found) (funext ih)
  | optional body ih => exact congrArg (Partial.repeated query · 0 (some 1) found) (funext ih)
  | tagged body tags ih => exact ih _

namespace Scope

variable {change : Target → Target} {scope other : Scope P}

omit [BranchWeight P] in
theorem Relabels.successors_eq (hrelabels : Relabels change scope other) (target : Target) :
    other.successors (change target) = (scope.successors target).map change := by
  rw [successors, successors, hrelabels.follow?_eq]
  cases scope.follow? target with
  | none => rfl
  | some rule =>
      dsimp only [Option.map_some]
      rw [Rule.relabel, Expansion.references_mapReferences, List.map_reverse, List.filterMap_map,
        List.map_filterMap]
      rfl

omit [BranchWeight P] in
/-- What keeps a rule from being matched does not depend on targets. -/
theorem Relabels.unusableBelow?_eq (hrelabels : Relabels change scope other) (target : Target) :
    other.unusableBelow? (change target) = scope.unusableBelow? target := by
  have hreachable := Graph.reachable_map hrelabels.injective hrelabels.successors_eq
    (scope.ruleCount + 2) [target]
  rw [List.map_singleton] at hreachable
  rw [unusableBelow?, unusableBelow?, hrelabels.ruleCount_eq, hreachable, List.findSome?_map]
  refine congrArg (List.findSome? · _) (funext fun reached => ?_)
  rw [Function.comp_apply, hrelabels.follow?_eq]
  cases scope.follow? reached with
  | none => rfl
  | some rule => exact Rule.unusable?_relabel change rule

theorem Relabels.followReference_eq (hrelabels : Relabels change scope other) (query : Query)
    (room : Nat) (active : List (Target × Nat)) (link : Reference) (found : Partial W) :
    other.followReference query room (active.map (Prod.map change id)) (link.relabel change)
      found = scope.followReference query room active link found := by
  induction room using Nat.strongRecOn generalizing active link found with
  | ind room ih =>
      have hbound : (link.relabel change).target? = link.target?.map change := rfl
      have hinjective : Function.Injective (Prod.map change (id : Nat → Nat)) :=
        hrelabels.injective.prodMap Function.injective_id
      unfold followReference
      rw [hbound]
      cases link.target? with
      | none => rfl
      | some target =>
          rw [Option.map_some]
          dsimp only
          have hchanged : Prod.map change id (target, found.consumed) ∈
              active.map (Prod.map change id) ↔ (target, found.consumed) ∈ active :=
            List.mem_map_of_injective hinjective
          rw [Prod.map_apply, id] at hchanged
          by_cases hactive : (target, found.consumed) ∈ active
          · rw [if_pos hactive, if_pos (hchanged.mpr hactive)]
          · rw [if_neg hactive, if_neg (mt hchanged.mp hactive), hrelabels.follow?_eq]
            cases scope.follow? target with
            | none => rfl
            | some rule =>
                cases room with
                | zero => rfl
                | succ room =>
                    exact Expansion.extend_mapReferences (fun inner later =>
                      ih room (Nat.lt_succ_self room) ((target, found.consumed) :: active) inner
                        later) rule.body found

/-- Deductions in a relabelled scope are the same. -/
theorem Relabels.deduce_eq (hrelabels : Relabels change scope other) (name : String)
    (tokens : List String) (assignments : List Assignment) (policy : MatchPolicy) :
    (other.deduce name tokens assignments policy : Except (Refusal P) (Deduction W)) =
      scope.deduce name tokens assignments policy := by
  rw [deduce, deduce, hrelabels.public_eq]
  cases scope.grammar.public name with
  | error refusal => rfl
  | ok found =>
      obtain ⟨target, top⟩ := found
      dsimp only [bind, Except.bind, Except.map]
      rw [hrelabels.unusableBelow?_eq, hrelabels.vocabulary_eq, hrelabels.ruleCount_eq]
      cases scope.unusableBelow? target with
      | some reason => rfl
      | none =>
          let query : Query := ⟨tokens, policy, scope.grammar.vocabulary⟩
          have hextend := @Expansion.extend_mapReferences P W _ _ _ query _ _ _
            (hrelabels.followReference_eq query (scope.ruleCount * (tokens.length + 1))
              [(target, 0)]) top.body .start
          exact congrArg (fun partials => Except.ok (Deduction.mk
            (Derivation.firsts (complete tokens.length assignments partials)) 0)) hextend

end Scope

end SpeechGrammar
