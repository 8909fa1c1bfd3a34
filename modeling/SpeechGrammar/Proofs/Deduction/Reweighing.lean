import SpeechGrammar.Proofs.Deduction.Firsts
import SpeechGrammar.Proofs.Expansion.Everywhere

/-!
# Scores do not steer the search

Matches are told apart by where they stand and by their tags, never by their
scores.  So a search that keeps its scores in another way finds the same
matches, as long as the scores are added up alike.  How scores are rounded has
no part in what is found.
-/

namespace SpeechGrammar

variable {P W V : Type}

/-- A change of scores that respects how they are added up along a match. -/
structure Reweighs (P : Type) {W V : Type} [BranchWeight P] [LogWeight W] [Logarithm P W]
    [LogWeight V] [Logarithm P V] (change : W → V) : Prop where
  zero : change 0 = 0
  add_ln : ∀ (score : W) (probability : P),
    change (score + Logarithm.ln probability) = change score + Logarithm.ln probability

namespace Partial

def reweigh (change : W → V) (found : Partial W) : Partial V :=
  ⟨found.consumed, found.tags, change found.score⟩

theorem firsts_reweigh (change : W → V) (partials : List (Partial W)) :
    firsts (partials.map (reweigh change)) = (firsts partials).map (reweigh change) :=
  firstsBy_map (fun _ _ => rfl) partials

/-- Iterations of a step that does not look at scores do not look at scores. -/
theorem iterations_reweigh {change : W → V} {step : Partial W → List (Partial W)}
    {step' : Partial V → List (Partial V)}
    (hstep : ∀ found, step' (found.reweigh change) = (step found).map (reweigh change))
    (least : Nat) (most? : Option Nat) (allowance count : Nat) (current : List (Partial W)) :
    iterations step' least most? allowance count (current.map (reweigh change)) =
      (iterations step least most? allowance count current).map (reweigh change) := by
  have hhere : ∀ count (current : List (Partial W)),
      (if least ≤ count then current.map (reweigh change) else []) =
        (if least ≤ count then current else []).map (reweigh change) := by
    intro count current
    split <;> rfl
  induction allowance generalizing count current with
  | zero => exact hhere count current
  | succ allowance ih =>
      have hnext : ((current.map (reweigh change)).flatMap fun found =>
            (step' found).filter fun later => count < least || found.consumed < later.consumed) =
          (current.flatMap fun found => (step found).filter fun later =>
            count < least || found.consumed < later.consumed).map (reweigh change) := by
        rw [List.flatMap_map, List.map_flatMap]
        refine congrArg (List.flatMap · current) (funext fun found => ?_)
        rw [hstep, List.filter_map]
        rfl
      rw [iterations, iterations, hhere, hnext, firsts_reweigh]
      dsimp only
      rw [List.isEmpty_map]
      split
      · rfl
      · split
        · rfl
        · rw [ih, List.map_append]

/-- Repetitions of a step that does not look at scores do not look at scores. -/
theorem repeated_reweigh {query : Query} {change : W → V} {step : Partial W → List (Partial W)}
    {step' : Partial V → List (Partial V)}
    (hstep : ∀ found, step' (found.reweigh change) = (step found).map (reweigh change))
    (least : Nat) (most? : Option Nat) (found : Partial W) :
    repeated query step' least most? (found.reweigh change) =
      (repeated query step least most? found).map (reweigh change) := by
  have hiterations := iterations_reweigh hstep least most?
    (least + (query.tokens.length - found.consumed) + 1) 0 [found]
  rw [repeated, repeated, ← firsts_reweigh, ← hiterations]
  rfl

end Partial

variable [BranchWeight P] [LogWeight W] [Logarithm P W] [LogWeight V] [Logarithm P V]
  {change : W → V}

open Partial (reweigh)

namespace Expansion

variable {query : Query} {follow : Reference → Partial W → List (Partial W)}
  {follow' : Reference → Partial V → List (Partial V)}

/-- Items one behind another do not look at scores if none of them does. -/
theorem extendItems_reweigh {items : List (Expansion P)}
    (hitems : ∀ item ∈ items, ∀ found, item.extend query follow' (found.reweigh change) =
      (item.extend query follow found).map (reweigh change)) (partials : List (Partial W)) :
    extendItems query follow' items (partials.map (reweigh change)) =
      (extendItems query follow items partials).map (reweigh change) := by
  induction items generalizing partials with
  | nil => rfl
  | cons item items ih =>
      obtain ⟨hitem, hrest⟩ := List.forall_mem_cons.mp hitems
      rw [extendItems, extendItems, ← ih hrest, ← Partial.firsts_reweigh, List.flatMap_map,
        List.map_flatMap]
      simp only [hitem]

/-- Branches do not look at scores if none of their bodies does. -/
theorem extendBranches_reweigh (hchange : Reweighs P change)
    {branches : List (Branch P (Expansion P))}
    (hbranches : ∀ branch ∈ branches, ∀ found,
      branch.body.extend query follow' (found.reweigh change) =
        (branch.body.extend query follow found).map (reweigh change)) (found : Partial W) :
    extendBranches query follow' branches (found.reweigh change) =
      (extendBranches query follow branches found).map (reweigh change) := by
  induction branches with
  | nil => rfl
  | cons branch branches ih =>
      obtain ⟨hbranch, hrest⟩ := List.forall_mem_cons.mp hbranches
      have hscored := hbranch
        { found with score := found.score + Logarithm.ln branch.probability }
      dsimp only [reweigh] at hscored
      rw [hchange.add_ln] at hscored
      rw [extendBranches, extendBranches, ih hrest, List.map_append]
      refine congrArg (· ++ _) ?_
      split
      · exact hscored
      · rfl

/-- Expansions do not look at scores if references do not. -/
theorem extend_reweigh (hchange : Reweighs P change)
    (hfollow : ∀ link found,
      follow' link (found.reweigh change) = (follow link found).map (reweigh change))
    (expansion : Expansion P) (found : Partial W) :
    expansion.extend query follow' (found.reweigh change) =
      (expansion.extend query follow found).map (reweigh change) := by
  induction expansion using Expansion.structural generalizing found with
  | literal text =>
      rw [extend, extend]
      dsimp only [reweigh]
      rw [apply_ite (List.map _)]
      rfl
  | reference link => exact hfollow link found
  | sequence items ih => exact extendItems_reweigh ih [found]
  | alternation branches ih =>
      rw [extend, extend, extendBranches_reweigh hchange ih, Partial.firsts_reweigh]
  | repetition body least most? ih => exact Partial.repeated_reweigh ih least most? found
  | optional body ih => exact Partial.repeated_reweigh ih 0 (some 1) found
  | tagged body tags ih => exact ih { found with tags := found.tags.insertAll tags }

end Expansion

namespace Scope

/-- References do not look at scores. -/
theorem followReference_reweigh (hchange : Reweighs P change) (scope : Scope P) (query : Query)
    (room : Nat) (active : List (Target × Nat)) (link : Reference) (found : Partial W) :
    scope.followReference query room active link (found.reweigh change) =
      (scope.followReference query room active link found).map (reweigh change) := by
  induction room using Nat.strongRecOn generalizing active link found with
  | ind room ih =>
      unfold followReference
      cases link.target? with
      | none => rfl
      | some target =>
          change (if (target, found.consumed) ∈ active then _ else _) = _
          dsimp only
          split
          · rfl
          · cases scope.follow? target with
            | none => rfl
            | some rule =>
                cases room with
                | zero => rfl
                | succ room =>
                    exact rule.body.extend_reweigh hchange
                      (fun inner later => ih room (Nat.lt_succ_self room) _ inner later) found

end Scope

def Derivation.reweigh (change : W → V) (found : Derivation W) : Derivation V :=
  ⟨found.span, found.tags, change found.score⟩

def Deduction.reweigh (change : W → V) (deduction : Deduction W) : Deduction V :=
  ⟨deduction.derivations.map (Derivation.reweigh change), deduction.rendered⟩

namespace Scope

omit [LogWeight W] [LogWeight V] in
theorem firsts_complete_reweigh (change : W → V) (count : Nat) (assignments : List Assignment)
    (partials : List (Partial W)) :
    Derivation.firsts (complete count assignments (partials.map (reweigh change))) =
      (Derivation.firsts (complete count assignments partials)).map
        (Derivation.reweigh change) := by
  have hcomplete : complete count assignments (partials.map (reweigh change)) =
      (complete count assignments partials).map (Derivation.reweigh change) := by
    simp only [complete, List.filter_map, List.map_map]
    rfl
  rw [hcomplete]
  exact firstsBy_map (fun _ _ => rfl) _

/-- The same is deduced whichever way scores are kept. -/
theorem deduce_reweigh (hchange : Reweighs P change) (scope : Scope P) (rule : String)
    (tokens : List String) (assignments : List Assignment) (policy : MatchPolicy) :
    scope.deduce (W := V) rule tokens assignments policy =
      (scope.deduce rule tokens assignments policy).map (Deduction.reweigh change) := by
  unfold deduce
  cases scope.grammar.public rule with
  | error refusal => rfl
  | ok found =>
      obtain ⟨target, top⟩ := found
      simp only [bind, Except.bind]
      cases scope.unusableBelow? target with
      | some reason => rfl
      | none =>
          let query : Query := ⟨tokens, policy, scope.grammar.vocabulary⟩
          have hstart : (.start : Partial V) = (.start : Partial W).reweigh change :=
            congrArg (Partial.mk 0 .empty) hchange.zero.symm
          have hpartials : top.body.extend query (scope.followReference query
                (scope.ruleCount * (tokens.length + 1)) [(target, 0)]) (.start : Partial V) =
              (top.body.extend query (scope.followReference query
                (scope.ruleCount * (tokens.length + 1)) [(target, 0)]) .start).map
                (reweigh change) :=
            hstart ▸ top.body.extend_reweigh hchange
              (scope.followReference_reweigh hchange query _ _) .start
          have hfirsts := firsts_complete_reweigh change tokens.length assignments
            (top.body.extend query (scope.followReference query
              (scope.ruleCount * (tokens.length + 1)) [(target, 0)]) .start)
          rw [← hpartials] at hfirsts
          exact congrArg (fun derivations => Except.ok (Deduction.mk derivations 0)) hfirsts

end Scope

end SpeechGrammar
