import SpeechGrammar.Proofs.Grammar.Prepared

/-!
# Bounds of repetitions

The bounds of a repetition are proper if its least number of iterations is not
above its greatest.  Whatever is read from a text has proper bounds, as marks
only stand for repetitions without a greatest number, and no rule comes into a
grammar but by reading a text.
-/

namespace SpeechGrammar

variable {P : Type}

namespace Expansion

mutual

def ProperlyBounded : Expansion P → Prop
  | .literal _ => True
  | .reference _ => True
  | .sequence items => ProperlyBoundedItems items
  | .alternation branches => ProperlyBoundedBranches branches
  | .repetition body least most? => (∀ most ∈ most?, least ≤ most) ∧ body.ProperlyBounded
  | .optional body => body.ProperlyBounded
  | .tagged body _ => body.ProperlyBounded

def ProperlyBoundedItems : List (Expansion P) → Prop
  | [] => True
  | item :: items => item.ProperlyBounded ∧ ProperlyBoundedItems items

def ProperlyBoundedBranches : List (Branch P (Expansion P)) → Prop
  | [] => True
  | ⟨_, _, body⟩ :: branches => body.ProperlyBounded ∧ ProperlyBoundedBranches branches

end

theorem properlyBoundedItems_iff {items : List (Expansion P)} :
    ProperlyBoundedItems items ↔ ∀ item ∈ items, item.ProperlyBounded := by
  induction items with
  | nil => simp [ProperlyBoundedItems]
  | cons item items ih => rw [ProperlyBoundedItems, ih, List.forall_mem_cons]

theorem properlyBoundedBranches_iff {branches : List (Branch P (Expansion P))} :
    ProperlyBoundedBranches branches ↔ ∀ branch ∈ branches, branch.body.ProperlyBounded := by
  induction branches with
  | nil => simp [ProperlyBoundedBranches]
  | cons branch branches ih => rw [ProperlyBoundedBranches, ih, List.forall_mem_cons]

/-- The bounds of an expansion itself, if it is a repetition, are proper. -/
def HasBounds : Expansion P → Prop
  | .repetition _ least most? => ∀ most ∈ most?, least ≤ most
  | _ => True

theorem Everywhere.properlyBounded {expansion : Expansion P}
    (heverywhere : expansion.Everywhere HasBounds) : expansion.ProperlyBounded := by
  induction heverywhere with
  | literal _ => trivial
  | reference _ => trivial
  | sequence _ _ ih => exact properlyBoundedItems_iff.mpr ih
  | alternation _ _ ih => exact properlyBoundedBranches_iff.mpr ih
  | repetition hbounds _ ih => exact ⟨hbounds, ih⟩
  | optional _ _ ih => exact ih
  | tagged _ _ ih => exact ih

theorem HasBounds.mapReferences (change : Reference → Reference) (expansion : Expansion P)
    (hbounds : expansion.HasBounds) : (expansion.mapReferences change).HasBounds := by
  cases expansion <;> exact hbounds

theorem HasBounds.withProbabilities (share : List (Option P) → Option P → P)
    (expansion : Expansion P) (hbounds : expansion.HasBounds) :
    (expansion.withProbabilities share).HasBounds := by
  cases expansion <;> exact hbounds

theorem hasBounds_of_isWritten [BranchWeight P] {expansion : Expansion P}
    (hwritten : Source.IsWritten expansion) : expansion.HasBounds := by
  cases expansion with
  | repetition body least most? =>
      obtain ⟨-, rfl⟩ := hwritten
      exact fun most hmost => nomatch hmost
  | _ => trivial

end Expansion

open Expansion

def Grammar.ProperlyBounded (grammar : Grammar P) : Prop :=
  ∀ rule ∈ grammar.rules, rule.body.ProperlyBounded

def Scope.ProperlyBounded (scope : Scope P) : Prop :=
  ∀ grammar ∈ scope.chain, grammar.ProperlyBounded

namespace Scope

theorem ProperlyBounded.of_follow? {scope : Scope P} (hbounded : scope.ProperlyBounded)
    {target : Target} {rule : Rule P} (hrule : scope.follow? target = some rule) :
    rule.body.ProperlyBounded :=
  Bodies.of_follow? hbounded hrule

/-- The bounds of all repetitions of a scope are proper, however it came about. -/
theorem Prepared.properlyBounded [BranchWeight P] {scope : Scope P} (hscope : scope.Prepared) :
    scope.ProperlyBounded := by
  have hbodies : scope.Bodies (Everywhere HasBounds) := by
    refine hscope.bodies (fun body hwritten => ?_) (fun change body hbounds => ?_)
      fun body hbounds => ?_
    · exact hwritten.imp fun _ => hasBounds_of_isWritten
    · exact hbounds.partwise (isPartwise_mapReferences change) (HasBounds.mapReferences change)
    · exact hbounds.partwise (isPartwise_withProbabilities shareOf)
        (HasBounds.withProbabilities shareOf)
  exact fun grammar hgrammar rule hrule => (hbodies grammar hgrammar rule hrule).properlyBounded

end Scope

end SpeechGrammar
