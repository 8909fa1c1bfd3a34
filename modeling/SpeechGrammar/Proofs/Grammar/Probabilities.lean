import Mathlib.Algebra.Order.BigOperators.Group.List
import SpeechGrammar.Proofs.ExactProbability
import SpeechGrammar.Proofs.Grammar.Prepared

/-!
# Probabilities of branches

No branch of a scope is more probable than one, as the weights that are read
are not negative and its own weight is among those that its share is taken of.
-/

namespace SpeechGrammar

variable {P : Type} [ExactBranchWeight P]

theorem BranchWeight.total_eq_sum (weights : List P) : total weights = weights.sum := by
  rw [List.sum_eq_foldl]
  rfl

/-- The share of a branch that is among others is at most one. -/
theorem shareOf_le_one {weights : List (Option P)} {own? : Option P}
    (hnonneg : ∀ given? ∈ weights, ∀ weight ∈ given?, (0 : P) ≤ weight) (hown : own? ∈ weights) :
    shareOf weights own? ≤ 1 := by
  have hgiven : ∀ weight ∈ weights.filterMap id, (0 : P) ≤ weight := by
    intro weight hweight
    obtain ⟨given?, hmem, hsome⟩ := List.mem_filterMap.mp hweight
    exact hnonneg given? hmem weight hsome
  unfold shareOf
  dsimp only
  split
  · have hcount : (1 : P) ≤ weights.length :=
      Nat.one_le_cast.mpr (List.length_pos_of_mem hown)
    rw [ExactBranchWeight.ofCount_eq]
    exact (div_le_one (zero_lt_one.trans_le hcount)).mpr hcount
  · rename_i hsome
    rw [BranchWeight.total_eq_sum] at hsome ⊢
    have hpositive : 0 < (weights.filterMap id).sum := not_le.mp (not_or.mp hsome).2
    refine (div_le_one hpositive).mpr ?_
    cases own? with
    | none => exact hpositive.le
    | some weight =>
        exact List.single_le_sum hgiven weight (List.mem_filterMap.mpr ⟨some weight, hown, rfl⟩)

/-- The branches of an expansion itself have no negative weight and are not more than certain. -/
def Expansion.IsWeighed : Expansion P → Prop
  | .alternation branches => ∀ branch ∈ branches,
      branch.probability ≤ 1 ∧ ∀ weight ∈ branch.weight?, 0 ≤ weight
  | _ => True

namespace Expansion

theorem isWeighed_of_isWritten {expansion : Expansion P}
    (hwritten : Source.IsWritten expansion) : expansion.IsWeighed := by
  cases expansion with
  | alternation branches =>
      intro branch hbranch
      obtain ⟨hprobability, hweight⟩ := hwritten.2 branch hbranch
      refine ⟨hprobability.le, fun weight hmem => ?_⟩
      obtain ⟨digits, exponent, rfl⟩ := hweight weight hmem
      exact ExactBranchWeight.ofDecimal_nonneg digits exponent
  | _ => trivial

theorem IsWeighed.mapReferences (change : Reference → Reference) (expansion : Expansion P)
    (hweighed : expansion.IsWeighed) : (expansion.mapReferences change).IsWeighed := by
  cases expansion with
  | alternation branches =>
      rw [Expansion.mapReferences, mapReferencesOfBranches_eq_map]
      exact List.forall_mem_map.mpr hweighed
  | _ => trivial

theorem IsWeighed.withShares (expansion : Expansion P) (hweighed : expansion.IsWeighed) :
    (expansion.withProbabilities shareOf).IsWeighed := by
  cases expansion with
  | alternation branches =>
      rw [Expansion.withProbabilities, branchesWithProbabilities_eq_map]
      refine List.forall_mem_map.mpr fun branch hbranch => ⟨?_, (hweighed branch hbranch).2⟩
      refine shareOf_le_one (List.forall_mem_map.mpr fun other hother => ?_)
        (List.mem_map_of_mem hbranch)
      exact (hweighed other hother).2
  | _ => trivial

end Expansion

/-- In all rules of a scope branches have no negative weight and are not more than certain. -/
theorem Scope.Prepared.weighed {scope : Scope P} (hscope : scope.Prepared) :
    scope.Bodies (Expansion.Everywhere Expansion.IsWeighed) := by
  refine hscope.bodies (fun body hwritten => ?_) (fun change body hweighed => ?_)
    fun body hweighed => ?_
  · exact hwritten.imp fun _ => Expansion.isWeighed_of_isWritten
  · exact hweighed.partwise (Expansion.isPartwise_mapReferences change)
      (Expansion.IsWeighed.mapReferences change)
  · exact hweighed.partwise (Expansion.isPartwise_withProbabilities shareOf)
      Expansion.IsWeighed.withShares

end SpeechGrammar
