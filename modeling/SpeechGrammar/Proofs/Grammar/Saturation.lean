import SpeechGrammar.Proofs.Grammar.Normalization
import SpeechGrammar.Proofs.SaturatingWeight
import SpeechGrammar.Deduction.Basic
import SpeechGrammar.Weight.Single

/-!
# Normalizing weights that are very large

Where numbers are limited, the weights of an alternation may add up to
infinity.  Dividing by that leaves the branches without any probability that
is positive, and those of infinite weight without any at all, so nothing can be
matched by the alternation any more.  This is the only way to get there: as
long as the exact sum of the weights is not too large, all probabilities are
defined and one of them is positive.
-/

namespace SpeechGrammar

open Expansion (Everywhere)
open Source (AllWeights)
open Saturating (IsWeight Summable largest number infinite undefined)

section Shares

variable {weights : List (Option Saturating)}

/-- Branches of weights that are not too large together get defined shares. -/
theorem shareOf_of_summable {values : List ℚ}
    (hgiven : weights.filterMap id = values.map number) (hvalues : ∀ value ∈ values, 0 ≤ value)
    (hsum : values.sum ≤ largest) (own? : Option Saturating) :
    shareOf weights own? =
      if 0 < values.sum then own?.getD 0 / number values.sum
      else 1 / number weights.length := by
  have hexact : BranchWeight.total (weights.filterMap id) = number values.sum := by
    rw [hgiven, Saturating.total_numbers hvalues hsum]
  unfold shareOf
  dsimp only
  rw [hexact]
  by_cases hpositive : 0 < values.sum
  · have hsome : (weights.filterMap id).isEmpty = false := by
      rw [hgiven, List.isEmpty_eq_false_iff, ne_eq, List.map_eq_nil_iff]
      rintro rfl
      exact lt_irrefl _ hpositive
    rw [if_pos hpositive, if_neg]
    rintro (hempty | hle)
    · exact Bool.false_ne_true (hsome.symm.trans hempty)
    · exact hpositive.not_ge (Saturating.number_nonpos_iff.mp hle)
  · rw [if_neg hpositive, if_pos (.inr (Saturating.number_nonpos_iff.mpr (not_lt.mp hpositive)))]
    rfl

/-- Branches of weights that are too large together are divided by infinity. -/
theorem shareOf_of_not_summable
    (hweights : ∀ given? ∈ weights, ∀ weight ∈ given?, IsWeight weight)
    (hexceeds : ¬Summable (weights.filterMap id)) (own? : Option Saturating) :
    shareOf weights own? = own?.getD 0 / infinite := by
  have hgiven : ∀ weight ∈ weights.filterMap id, IsWeight weight := by
    intro weight hweight
    obtain ⟨given?, hmem, hsome⟩ := List.mem_filterMap.mp hweight
    exact hweights given? hmem weight hsome
  have hsome : (weights.filterMap id).isEmpty = false := by
    rw [List.isEmpty_eq_false_iff]
    intro hnil
    exact hexceeds ⟨[], by rw [hnil]; rfl, Saturating.zero_le_largest⟩
  unfold shareOf
  dsimp only
  rw [Saturating.total_of_not_summable hgiven hexceeds, if_neg]
  rintro (hempty | hle)
  · exact Bool.false_ne_true (hsome.symm.trans hempty)
  · cases hle

end Shares

/-- The branches of an alternation have probabilities, of which one is positive. -/
structure Branch.Survives {E : Type} (branches : List (Branch Saturating E)) : Prop where
  defined : ∀ branch ∈ branches, branch.probability ≠ undefined
  possible : ∃ branch ∈ branches, 0 < branch.probability

/-- The weights given to the branches of an alternation are not too large together. -/
def Branch.Bearable {E : Type} (branches : List (Branch Saturating E)) : Prop :=
  Summable (branches.filterMap (·.weight?))

/--
If the expansion is an alternation with branches, these have probabilities exactly if their weights
are not too large together, and otherwise none of them can be taken.
-/
def Expansion.SurvivesIfBearable : Expansion Saturating → Prop
  | .alternation branches => branches ≠ [] →
      (Branch.Survives branches ↔ Branch.Bearable branches) ∧
        (¬Branch.Bearable branches → ∀ branch ∈ branches, ¬0 < branch.probability)
  | _ => True

namespace Branch

variable {E F : Type} {branches : List (Branch Saturating E)}

def shared (change : E → F) (branches : List (Branch Saturating E)) :
    List (Branch Saturating F) :=
  branches.map fun branch =>
    ⟨branch.weight?, shareOf (branches.map (·.weight?)) branch.weight?, change branch.body⟩

theorem filterMap_shared (change : E → F) (branches : List (Branch Saturating E)) :
    (shared change branches).filterMap (·.weight?) = branches.filterMap (·.weight?) := by
  rw [shared, List.filterMap_map]
  rfl

theorem filterMap_weights (branches : List (Branch Saturating E)) :
    (branches.map (·.weight?)).filterMap id = branches.filterMap (·.weight?) := by
  rw [List.filterMap_map]
  rfl

/-- Branches survive if their shares are numbers as long as these are not too large. -/
theorem survives_shared_of_exact (exact : Option Saturating → ℚ)
    (hexact : ∀ branch ∈ branches, shareOf (branches.map (·.weight?)) branch.weight? =
      Saturating.saturate (exact branch.weight?))
    (hpositive : ∃ branch ∈ branches, 0 < exact branch.weight?) (change : E → F) :
    Survives (shared change branches) := by
  constructor
  case defined =>
    refine List.forall_mem_map.mpr fun branch hbranch => ?_
    dsimp only
    rw [hexact branch hbranch]
    exact Saturating.saturate_ne_undefined _
  case possible =>
    obtain ⟨branch, hbranch, hmore⟩ := hpositive
    refine ⟨_, List.mem_map_of_mem hbranch, ?_⟩
    dsimp only
    rw [hexact branch hbranch]
    exact Saturating.saturate_pos hmore

/-- Weights that are not too large together leave all branches defined, and one possible. -/
theorem survives_shared (hbranches : branches ≠ [])
    (hweights : ∀ branch ∈ branches, ∀ weight ∈ branch.weight?, IsWeight weight)
    (hbearable : Bearable branches) (change : E → F) : Survives (shared change branches) := by
  obtain ⟨values, hgiven, hsum⟩ := hbearable
  have hlisted : ∀ {value}, value ∈ values ↔
      ∃ branch ∈ branches, branch.weight? = some (number value) := by
    intro value
    rw [← List.mem_map_of_injective fun _ _ => number.inj, ← hgiven, List.mem_filterMap]
  have hvalues : ∀ value ∈ values, 0 ≤ value := by
    intro value hvalue
    obtain ⟨branch, hbranch, hweight⟩ := hlisted.mp hvalue
    rcases hweights branch hbranch _ hweight with hinfinite | ⟨other, hother, heq⟩
    · cases hinfinite
    · rwa [number.inj heq]
  have hshare := shareOf_of_summable ((filterMap_weights branches).trans hgiven) hvalues hsum
  rcases le_or_gt values.sum 0 with hnone | hpositive
  · -- All weights are zero, so the branches are equally likely.
    have hcount : (0 : ℚ) < branches.length := Nat.cast_pos.mpr (List.length_pos_iff.mpr hbranches)
    obtain ⟨first, hfirst⟩ := List.exists_mem_of_ne_nil _ hbranches
    refine survives_shared_of_exact (fun _ => 1 / branches.length) (fun branch _ => ?_)
      ⟨first, hfirst, one_div_pos.mpr hcount⟩ change
    rw [hshare, if_neg hnone.not_gt, List.length_map]
    exact Saturating.number_div_of_ne hcount.ne'
  · refine survives_shared_of_exact
      (fun own? => own?.elim 0 Saturating.value / values.sum) (fun branch hbranch => ?_) ?_ change
    · rw [hshare, if_pos hpositive]
      cases hweight : branch.weight? with
      | none => exact Saturating.number_div_of_ne hpositive.ne'
      | some weight =>
          have hmem : weight ∈ branches.filterMap (·.weight?) :=
            List.mem_filterMap.mpr ⟨branch, hbranch, hweight⟩
          rw [hgiven] at hmem
          obtain ⟨value, -, rfl⟩ := List.mem_map.mp hmem
          exact Saturating.number_div_of_ne hpositive.ne'
    · obtain ⟨value, hvalue, hmore⟩ : ∃ value ∈ values, 0 < value := by
        by_contra hnone
        refine hpositive.ne' (List.sum_eq_zero fun value hvalue => ?_)
        exact le_antisymm (not_lt.mp fun hmore => hnone ⟨value, hvalue, hmore⟩)
          (hvalues value hvalue)
      obtain ⟨branch, hbranch, hweight⟩ := hlisted.mp hvalue
      exact ⟨branch, hbranch, by rw [hweight]; exact div_pos hmore hpositive⟩

/-- Weights that are too large together leave no branch that can be taken. -/
theorem not_pos_shared (hweights : ∀ branch ∈ branches, ∀ weight ∈ branch.weight?, IsWeight weight)
    (hunbearable : ¬Bearable branches) (change : E → F) :
    ∀ branch ∈ shared change branches, ¬0 < branch.probability := by
  have hshare := shareOf_of_not_summable (List.forall_mem_map.mpr hweights)
    (filterMap_weights branches ▸ hunbearable)
  refine List.forall_mem_map.mpr fun branch hbranch => ?_
  dsimp only
  rw [hshare]
  refine Saturating.not_pos_div_infinite ?_
  cases hweight : branch.weight? with
  | none => exact Saturating.isWeight_zero
  | some weight => exact hweights branch hbranch weight hweight

end Branch

namespace Expansion

def givenWeights? {P : Type} : Expansion P → Option (List P)
  | .alternation branches => some (branches.filterMap (·.weight?))
  | _ => none

def probabilities {P : Type} : Expansion P → List P
  | .alternation branches => branches.map (·.probability)
  | _ => []

end Expansion

/-- Normalizing an alternation keeps it possible as long as its weights can be added up. -/
theorem Expansion.survivesIfBearable_withShares (expansion : Expansion Saturating)
    (hweights : AllWeights IsWeight expansion) :
    (expansion.withProbabilities shareOf).SurvivesIfBearable := by
  cases expansion with
  | alternation branches =>
      rw [withProbabilities, branchesWithProbabilities_eq_map]
      intro hbranches
      have hnonempty : branches ≠ [] := mt List.map_eq_nil_iff.mpr hbranches
      have hsame : Branch.Bearable (Branch.shared (withProbabilities shareOf) branches) ↔
          Branch.Bearable branches := by
        rw [Branch.Bearable, Branch.filterMap_shared, Branch.Bearable]
      refine ⟨⟨fun hsurvives => ?_, fun hbearable => ?_⟩, fun hunbearable => ?_⟩
      · by_contra hunbearable
        obtain ⟨branch, hbranch, hpositive⟩ := hsurvives.possible
        exact Branch.not_pos_shared hweights (mt hsame.mpr hunbearable) _ branch hbranch hpositive
      · exact Branch.survives_shared hnonempty hweights (hsame.mp hbearable) _
      · exact Branch.not_pos_shared hweights (mt hsame.mpr hunbearable) _
  | _ => trivial

namespace Scope

/-- All weights that come into a scope by reading are infinite, or numbers not below zero. -/
theorem Prepared.isWeight {scope : Scope Saturating} (hscope : scope.Prepared) :
    scope.Bodies (Everywhere (AllWeights IsWeight)) := by
  refine hscope.bodies (fun body hwritten => ?_) (fun change body hweights => ?_)
    fun body hweights => ?_
  · refine hwritten.imp fun part hpart => ?_
    cases part with
    | alternation branches =>
        intro branch hbranch weight hweight
        obtain ⟨digits, exponent, rfl⟩ := (hpart.2 branch hbranch).2 weight hweight
        exact Saturating.isWeight_ofDecimal digits exponent
    | _ => trivial
  · refine hweights.partwise (Expansion.isPartwise_mapReferences change) fun part hpart => ?_
    cases part with
    | alternation branches =>
        rw [Expansion.mapReferences, Expansion.mapReferencesOfBranches_eq_map]
        exact List.forall_mem_map.mpr hpart
    | _ => trivial
  · refine hweights.partwise (Expansion.isPartwise_withProbabilities shareOf) fun part hpart => ?_
    cases part with
    | alternation branches =>
        rw [Expansion.withProbabilities, Expansion.branchesWithProbabilities_eq_map]
        exact List.forall_mem_map.mpr hpart
    | _ => trivial

/--
By arithmetic that saturates, normalizing leaves an alternation that is read with defined
probabilities, one of them positive, exactly if its weights do not add up to infinity.  If they
do, none of its branches can be taken any more.
-/
theorem normalize_survives_iff {scope : Scope Saturating} (hscope : scope.Prepared) :
    scope.normalize.grammar.Bodies (Everywhere Expansion.SurvivesIfBearable) := by
  intro rule hrule
  obtain ⟨old, hold, rfl⟩ := List.mem_map.mp hrule
  exact (hscope.isWeight scope.grammar (List.mem_cons_self ..) old hold).partwise
    (Expansion.isPartwise_withProbabilities shareOf) Expansion.survivesIfBearable_withShares

def drinkingText : String := "public <drink> = /2e38/ tea | /1e38/ milk | water;"

def drinking : Scope Saturating := (parseLenient ⟨0⟩ drinkingText none).1

/--
The weights of `drinking` have a sum in range, so one of the probabilities of its alternation is
positive.
-/
theorem drinking_survives : drinking.Prepared ∧ drinking.normalize.grammar.rules.length = 1 ∧
    ∀ rule ∈ drinking.normalize.grammar.rules, ∃ branches, rule.body = .alternation branches ∧
      Branch.Bearable branches ∧ Branch.Survives branches := by
  have herrors : (parseLenient (P := Saturating) ⟨0⟩ drinkingText none).2 = [] := by decide +kernel
  have hparse : parse ⟨0⟩ drinkingText none = .ok drinking :=
    parse_eq_ok_iff.mpr (Prod.ext rfl herrors)
  have hscope : drinking.Prepared := prepared_of_parse (by simp) hparse
  have hweights : drinking.normalize.grammar.rules.map (·.body.givenWeights?) =
      [some [number (2 * 10 ^ 38), number (10 ^ 38)]] := by decide +kernel
  refine ⟨hscope, by simpa using congrArg List.length hweights, fun rule hrule => ?_⟩
  have hgiven : rule.body.givenWeights? = some [number (2 * 10 ^ 38), number (10 ^ 38)] :=
    List.mem_singleton.mp (hweights ▸ List.mem_map_of_mem hrule)
  have hsurvives := (normalize_survives_iff hscope rule hrule).here
  cases hbody : rule.body with
  | alternation branches =>
      rw [hbody] at hgiven hsurvives
      have hgiven : branches.filterMap (·.weight?) = [2 * 10 ^ 38, 10 ^ 38].map number :=
        Option.some.inj hgiven
      have hbearable : Branch.Bearable branches := ⟨_, hgiven, by decide +kernel⟩
      have hbranches : branches ≠ [] := by
        rintro rfl
        cases hgiven
      exact ⟨branches, rfl, hbearable, (hsurvives hbranches).1.mpr hbearable⟩
  | _ =>
      rw [hbody] at hgiven
      cases hgiven

def outweighedText : String := "public <drink> = /3e38/ tea | /3e38/ milk;"

def outweighed (P : Type) [BranchWeight P] : Scope P := (parseLenient ⟨0⟩ outweighedText none).1

/--
Both probabilities of `outweighed` are zero, with saturating weights and in single precision, and
`tea` then has no derivation.
-/
theorem outweighed_vanishes :
    parse ⟨0⟩ outweighedText none = .ok (outweighed Saturating) ∧
      (outweighed Saturating).grammar.rules.map (·.body.probabilities) = [[0, 0]] ∧
      parse ⟨0⟩ outweighedText none = .ok (outweighed Float32) ∧
      (outweighed Float32).grammar.rules.map (·.body.probabilities.map Float32.toBits) =
        [[0, 0]] ∧
      ∃ deduction : Deduction SingleLog,
        (outweighed Float32).deduce "drink" ["tea"] [] {} = .ok deduction ∧
          deduction.derivations.length = 0 := by
  have hsaturating : (parseLenient (P := Saturating) ⟨0⟩ outweighedText none).2 = [] := by
    decide +kernel
  have hsingle : (parseLenient (P := Float32) ⟨0⟩ outweighedText none).2 = [] := by
    decide +kernel
  exact ⟨parse_eq_ok_iff.mpr (Prod.ext rfl hsaturating), by decide +kernel,
    parse_eq_ok_iff.mpr (Prod.ext rfl hsingle), by decide +kernel,
    exists_of_toOption_map_eq_some (by decide +kernel :
      (((outweighed Float32).deduce "drink" ["tea"] [] {} :
        Except _ (Deduction SingleLog)).map (·.derivations.length)).toOption = some 0)⟩

end Scope

end SpeechGrammar
