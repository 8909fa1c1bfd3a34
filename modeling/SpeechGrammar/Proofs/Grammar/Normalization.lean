import Mathlib.Algebra.BigOperators.Ring.List
import SpeechGrammar.Proofs.Grammar.Lookup
import SpeechGrammar.Proofs.Grammar.Probabilities
import SpeechGrammar.Proofs.Grammar.Renaming
import SpeechGrammar.Proofs.Printing.Body

/-!
# What normalizing comes to

Normalizing gives the branches of every alternation, however deep it lies,
probabilities that sum to one and follow from their weights alone, and touches
nothing else.  Binding looks at names only, and normalizing at weights only, so
neither pass undoes or repeats what the other does: any sequence of passes
comes to each of those in it run once.
-/

namespace SpeechGrammar

open Expansion (Everywhere)
open Source (AllWeights)

section Shares

variable {P : Type} [ExactBranchWeight P] {weights : List (Option P)}

theorem shareOf_of_sum_pos (hpositive : 0 < (weights.filterMap id).sum) (own? : Option P) :
    shareOf weights own? = own?.getD 0 / (weights.filterMap id).sum := by
  have hgiven : (weights.filterMap id).isEmpty = false := by
    rw [List.isEmpty_eq_false_iff]
    intro hnil
    rw [hnil, List.sum_nil] at hpositive
    exact lt_irrefl _ hpositive
  have hsome : ¬((weights.filterMap id).isEmpty = true ∨ (weights.filterMap id).sum ≤ 0) :=
    not_or.mpr ⟨Bool.eq_false_iff.mp hgiven, not_le.mpr hpositive⟩
  unfold shareOf
  dsimp only
  rw [BranchWeight.total_eq_sum, if_neg hsome]

theorem shareOf_of_sum_nonpos (hsum : (weights.filterMap id).sum ≤ 0) (own? : Option P) :
    shareOf weights own? = 1 / weights.length := by
  unfold shareOf
  dsimp only
  rw [BranchWeight.total_eq_sum, if_pos (.inr hsum), ExactBranchWeight.ofCount_eq]

/-- Weights that are not given count for nothing. -/
theorem sum_getD_zero (weights : List (Option P)) :
    (weights.map (·.getD 0)).sum = (weights.filterMap id).sum := by
  induction weights with
  | nil => rfl
  | cons weight? weights ih =>
      cases weight? with
      | none =>
          change (0 :: weights.map (·.getD 0)).sum = (weights.filterMap id).sum
          rw [List.sum_cons, zero_add, ih]
      | some weight =>
          change (weight :: weights.map (·.getD 0)).sum = (weight :: weights.filterMap id).sum
          rw [List.sum_cons, List.sum_cons, ih]

/-- The shares of all branches of an alternation are one together. -/
theorem sum_shareOf (hweights : weights ≠ []) : (weights.map (shareOf weights)).sum = 1 := by
  rcases lt_or_ge 0 (weights.filterMap id).sum with hpositive | hsum
  · have hshare : shareOf weights =
        fun own? => own?.getD 0 * ((weights.filterMap id).sum)⁻¹ := by
      funext own?
      rw [shareOf_of_sum_pos hpositive, div_eq_mul_inv]
    rw [hshare, List.sum_map_mul_right, sum_getD_zero, mul_inv_cancel₀ hpositive.ne']
  · have hcount : (weights.length : P) ≠ 0 :=
      Nat.cast_ne_zero.mpr (List.length_pos_iff.mpr hweights).ne'
    have hshare : shareOf weights = fun _ => 1 / (weights.length : P) :=
      funext (shareOf_of_sum_nonpos hsum)
    rw [hshare, List.map_const', List.sum_replicate, nsmul_eq_mul, mul_one_div_cancel hcount]

/-- Weights that are not negative sum to something exactly if one of them is positive. -/
theorem sum_pos_iff (hnonneg : ∀ given? ∈ weights, ∀ weight ∈ given?, 0 ≤ weight) :
    0 < (weights.filterMap id).sum ↔ ∃ given? ∈ weights, ∃ weight ∈ given?, 0 < weight := by
  have hmem : ∀ weight, weight ∈ weights.filterMap id ↔ some weight ∈ weights := by simp
  have hgiven : ∀ weight ∈ weights.filterMap id, 0 ≤ weight :=
    fun weight hweight => hnonneg _ ((hmem weight).mp hweight) weight rfl
  constructor
  · intro hpositive
    by_contra hnone
    refine hpositive.ne' (List.sum_eq_zero fun weight hweight => ?_)
    refine le_antisymm (not_lt.mp fun hless => hnone ?_) (hgiven weight hweight)
    exact ⟨some weight, (hmem weight).mp hweight, weight, rfl, hless⟩
  · rintro ⟨given?, hmember, weight, rfl, hpositive⟩
    exact hpositive.trans_le (List.single_le_sum hgiven weight ((hmem weight).mpr hmember))

theorem shareOf_nonneg (hnonneg : ∀ given? ∈ weights, ∀ weight ∈ given?, 0 ≤ weight)
    {own? : Option P} (hown : own? ∈ weights) : 0 ≤ shareOf weights own? := by
  rcases lt_or_ge 0 (weights.filterMap id).sum with hpositive | hsum
  · rw [shareOf_of_sum_pos hpositive]
    refine div_nonneg ?_ hpositive.le
    cases own? with
    | none => exact le_rfl
    | some weight => exact hnonneg _ hown weight rfl
  · rw [shareOf_of_sum_nonpos hsum]
    exact div_nonneg zero_le_one (Nat.cast_nonneg _)

end Shares

/-! ## Normalized expansions -/

section Shared

variable {P : Type} [ExactBranchWeight P]

/-- The branches of an alternation share its probability as their own weights say. -/
structure Branch.Shared {E : Type} (branches : List (Branch P E)) : Prop where
  nonneg : ∀ branch ∈ branches, 0 ≤ branch.probability
  le_one : ∀ branch ∈ branches, branch.probability ≤ 1
  sum_eq_one : (branches.map (·.probability)).sum = 1
  weighted (hpositive : ∃ branch ∈ branches, ∃ weight ∈ branch.weight?, 0 < weight) :
    ∀ branch ∈ branches,
      branch.probability = branch.weight?.elim 0 (· / (branches.filterMap (·.weight?)).sum)
  even (hnone : ¬∃ branch ∈ branches, ∃ weight ∈ branch.weight?, 0 < weight) :
    ∀ branch ∈ branches, branch.probability = 1 / branches.length

/-- If the expansion is an alternation with branches, these share its probability. -/
def Expansion.IsShared : Expansion P → Prop
  | .alternation branches => branches ≠ [] → Branch.Shared branches
  | _ => True

theorem Branch.shared_map {E F : Type} {branches : List (Branch P E)} (hbranches : branches ≠ [])
    (hnonneg : ∀ branch ∈ branches, ∀ weight ∈ branch.weight?, 0 ≤ weight) (change : E → F) :
    Shared (branches.map fun branch =>
      ⟨branch.weight?, shareOf (branches.map (·.weight?)) branch.weight?, change branch.body⟩ :
        List (Branch P F)) := by
  have hgiven : ∀ given? ∈ branches.map (·.weight?), ∀ weight ∈ given?, 0 ≤ weight :=
    List.forall_mem_map.mpr hnonneg
  have hmember : ∀ branch ∈ branches, branch.weight? ∈ branches.map (·.weight?) :=
    fun branch hbranch => List.mem_map_of_mem hbranch
  have hpositive : 0 < ((branches.map (·.weight?)).filterMap id).sum ↔
      ∃ branch ∈ branches, ∃ weight ∈ branch.weight?, 0 < weight := by
    rw [sum_pos_iff hgiven]
    simp only [List.mem_map, exists_exists_and_eq_and]
  constructor
  case nonneg =>
    exact List.forall_mem_map.mpr fun branch hbranch =>
      shareOf_nonneg hgiven (hmember branch hbranch)
  case le_one =>
    exact List.forall_mem_map.mpr fun branch hbranch =>
      shareOf_le_one hgiven (hmember branch hbranch)
  case sum_eq_one =>
    have hnonempty : branches.map (·.weight?) ≠ [] := mt List.map_eq_nil_iff.mp hbranches
    have hshares := sum_shareOf hnonempty
    rw [List.map_map] at hshares ⊢
    exact hshares
  case weighted =>
    intro hsome
    simp only [List.mem_map, exists_exists_and_eq_and] at hsome
    refine List.forall_mem_map.mpr fun branch _ => ?_
    refine (shareOf_of_sum_pos (hpositive.mpr hsome) _).trans ?_
    rw [List.filterMap_map, List.filterMap_map]
    cases branch.weight? with
    | none => exact zero_div _
    | some weight => rfl
  case even =>
    intro hnone
    simp only [List.mem_map, exists_exists_and_eq_and] at hnone
    refine List.forall_mem_map.mpr fun branch _ => ?_
    refine (shareOf_of_sum_nonpos (not_lt.mp (mt hpositive.mp hnone)) _).trans ?_
    rw [List.length_map, List.length_map]

theorem Expansion.isShared_withShares (expansion : Expansion P)
    (hweights : AllWeights (0 ≤ ·) expansion) : (expansion.withProbabilities shareOf).IsShared := by
  cases expansion with
  | alternation branches =>
      rw [withProbabilities, branchesWithProbabilities_eq_map]
      intro hbranches
      exact Branch.shared_map (mt List.map_eq_nil_iff.mpr hbranches) hweights _
  | _ => trivial

end Shared

section Untouched

variable {P : Type}

/-- Expansions that differ at most in the probabilities of their branches. -/
inductive Expansion.SameButProbabilities : Expansion P → Expansion P → Prop where
  | literal (text : String) : SameButProbabilities (.literal text) (.literal text)
  | reference (link : Reference) : SameButProbabilities (.reference link) (.reference link)
  | sequence {items others : List (Expansion P)}
      (hitems : List.Forall₂ SameButProbabilities items others) :
      SameButProbabilities (.sequence items) (.sequence others)
  | alternation {branches others : List (Branch P (Expansion P))}
      (hweights : branches.map (·.weight?) = others.map (·.weight?))
      (hbodies : List.Forall₂ SameButProbabilities (branches.map (·.body)) (others.map (·.body))) :
      SameButProbabilities (.alternation branches) (.alternation others)
  | repetition {body other : Expansion P} (hbody : SameButProbabilities body other) (least : Nat)
      (most? : Option Nat) :
      SameButProbabilities (.repetition body least most?) (.repetition other least most?)
  | optional {body other : Expansion P} (hbody : SameButProbabilities body other) :
      SameButProbabilities (.optional body) (.optional other)
  | tagged {body other : Expansion P} (hbody : SameButProbabilities body other)
      (tags : List Tag) : SameButProbabilities (.tagged body tags) (.tagged other tags)

/-- Grammars that differ at most in the probabilities of the branches in their rules. -/
def Grammar.SameButProbabilities (grammar other : Grammar P) : Prop :=
  ∃ rules : List (Rule P), other = { grammar with rules } ∧
    List.Forall₂ (fun rule changed => ∃ body, rule.body.SameButProbabilities body ∧
      changed = { rule with body }) grammar.rules rules

theorem Expansion.sameButProbabilities_withProbabilities (share : List (Option P) → Option P → P)
    (expansion : Expansion P) : expansion.SameButProbabilities (expansion.withProbabilities share)
    := by
  induction expansion using structural with
  | literal text => exact .literal text
  | reference link => exact .reference link
  | sequence items ih =>
      rw [withProbabilities, itemsWithProbabilities_eq_map]
      exact .sequence (List.forall₂_map_right_iff.mpr (List.forall₂_same.mpr ih))
  | alternation branches ih =>
      rw [withProbabilities, branchesWithProbabilities_eq_map]
      refine .alternation ?_ ?_
      · rw [List.map_map]
        rfl
      · rw [List.map_map, List.forall₂_map_left_iff, List.forall₂_map_right_iff]
        exact List.forall₂_same.mpr ih
  | repetition body least most? ih => exact .repetition ih least most?
  | optional body ih => exact .optional ih
  | tagged body tags ih => exact .tagged ih tags

theorem Grammar.sameButProbabilities_normalize [BranchWeight P] (grammar : Grammar P) :
    grammar.SameButProbabilities grammar.normalize := by
  refine ⟨grammar.rules.map Rule.normalize, rfl, ?_⟩
  refine List.forall₂_map_right_iff.mpr (List.forall₂_same.mpr fun rule _ => ?_)
  exact ⟨_, rule.body.sameButProbabilities_withProbabilities shareOf, rfl⟩

end Untouched

/-! ## Passes -/

section Passes

variable {P : Type}

theorem Grammar.targetOf?_congr {grammar other : Grammar P} (hid : other.id = grammar.id)
    (hbyName : other.byName = grammar.byName) : other.targetOf? = grammar.targetOf? := by
  funext name
  rw [targetOf?, targetOf?, ruleIndex?, ruleIndex?, hid, hbyName]

theorem Scope.lookup?_congr {scope other : Scope P} (hparents : other.parents = scope.parents)
    (hid : other.grammar.id = scope.grammar.id) (hname : other.grammar.name? = scope.grammar.name?)
    (hbyName : other.grammar.byName = scope.grammar.byName) :
    other.lookup? = scope.lookup? := by
  have hadmits : other.grammar.admits = scope.grammar.admits := by
    funext wanted?
    unfold Grammar.admits
    rw [hname]
  funext link
  rw [lookup?, lookup?, findSome?_filter, findSome?_filter, chain, chain, hparents,
    List.findSome?_cons, List.findSome?_cons, hadmits, Grammar.targetOf?_congr hid hbyName]

/-- Where recursive rules are looked for, only references matter. -/
theorem Grammar.cyclicRules_congr {grammar other : Grammar P} (hid : other.id = grammar.id)
    (hreferences : other.rules.map (·.body.references) = grammar.rules.map (·.body.references)) :
    other.cyclicRules = grammar.cyclicRules := by
  have hsuccessors : other.localSuccessors = grammar.localSuccessors := by
    funext index
    have hthere := congrArg (·[index]?) hreferences
    simp only [List.getElem?_map] at hthere
    rw [localSuccessors, localSuccessors, hid]
    cases hrule : grammar.rules[index]? with
    | none =>
        rw [hrule, Option.map_none, Option.map_eq_none_iff] at hthere
        rw [hthere]
    | some rule =>
        rw [hrule, Option.map_some, Option.map_eq_some_iff] at hthere
        obtain ⟨found, hfound, heq⟩ := hthere
        rw [hfound]
        dsimp only
        rw [heq]
  have hlength : other.rules.length = grammar.rules.length := by
    simpa using congrArg List.length hreferences
  rw [cyclicRules, cyclicRules, hsuccessors, hlength]

theorem Grammar.markRecursive_markRecursive (grammar : Grammar P) :
    grammar.markRecursive.markRecursive = grammar.markRecursive := by
  have hcyclic : grammar.markRecursive.cyclicRules = grammar.cyclicRules :=
    cyclicRules_congr rfl <| List.ext_getElem? fun index => by
      simp [markRecursive, Function.comp_def]
  rw [markRecursive, hcyclic]
  refine congrArg (fun rules : List (Rule P) => { grammar with rules }) ?_
  rw [markRecursive, List.mapIdx_mapIdx]
  rfl

theorem Grammar.markRecursive_normalize [BranchWeight P] (grammar : Grammar P) :
    grammar.normalize.markRecursive = grammar.markRecursive.normalize := by
  have hcyclic : grammar.normalize.cyclicRules = grammar.cyclicRules :=
    cyclicRules_congr rfl <| List.ext_getElem? fun index => by
      simp [normalize, Rule.normalize, Expansion.references_withProbabilities, Function.comp_def]
  rw [markRecursive, hcyclic]
  refine congrArg (fun rules : List (Rule P) => { grammar with rules }) ?_
  exact List.ext_getElem? fun index => by
    simp [normalize, markRecursive, Rule.normalize, Function.comp_def]

/-- Probabilities that are computed again come from the same weights. -/
theorem Expansion.withProbabilities_withProbabilities
    (first second : List (Option P) → Option P → P) (expansion : Expansion P) :
    (expansion.withProbabilities first).withProbabilities second =
      expansion.withProbabilities second := by
  induction expansion using structural with
  | literal text => rfl
  | reference link => rfl
  | sequence items ih =>
      simp only [withProbabilities, itemsWithProbabilities_eq_map, List.map_map]
      exact congrArg sequence (List.map_congr_left ih)
  | alternation branches ih =>
      simp only [withProbabilities, branchesWithProbabilities_eq_map, List.map_map]
      refine congrArg alternation (List.map_congr_left fun branch hbranch => ?_)
      exact congrArg (Branch.mk branch.weight? _) (ih branch hbranch)
  | repetition body least most? ih => simp only [withProbabilities, ih]
  | optional body ih => simp only [withProbabilities, ih]
  | tagged body tags ih => simp only [withProbabilities, ih]

namespace Scope

def bound (scope : Scope P) : Grammar P :=
  { scope.grammar with rules := scope.grammar.rules.map scope.bindRule }

theorem resolve_eq (scope : Scope P) :
    scope.resolve = { scope with grammar := scope.bound.markRecursive } :=
  rfl

/-- Scopes in which the same names are found bind rules alike. -/
theorem bindRule_congr {scope other : Scope P} (hlookup : other.lookup? = scope.lookup?) :
    other.bindRule = scope.bindRule := by
  have hbind : other.bindReference = scope.bindReference := by
    funext link
    rw [bindReference, bindReference, hlookup]
  funext rule
  rw [bindRule, bindRule, hbind]

/-- A rule that has been bound and marked, and is bound again, stays as it is. -/
theorem bindRule_bindRule (scope : Scope P) (rule : Rule P) (isRecursive : Bool) :
    scope.bindRule { scope.bindRule rule with isRecursive } =
      { scope.bindRule rule with isRecursive } := by
  have hagain : (scope.bindRule rule).body.mapReferences scope.bindReference =
      (scope.bindRule rule).body :=
    Expansion.mapReferences_mapReferences scope.bindReference scope.bindReference rule.body
  rw [bindRule, hagain]
  rfl

theorem bound_resolve (scope : Scope P) : scope.resolve.bound = scope.resolve.grammar := by
  have hrules : scope.resolve.grammar.rules.map scope.bindRule = scope.resolve.grammar.rules := by
    refine (List.map_congr_left fun rule hrule => ?_).trans (List.map_id _)
    obtain ⟨index, hindex, rfl⟩ := List.mem_mapIdx.mp hrule
    obtain ⟨old, -, hold⟩ := List.mem_map.mp (List.getElem_mem hindex)
    rw [← hold]
    exact scope.bindRule_bindRule old _
  have hlookup : scope.resolve.lookup? = scope.lookup? :=
    lookup?_congr rfl rfl rfl rfl
  rw [bound, bindRule_congr hlookup, hrules]

/-- Binding twice is binding once. -/
theorem resolve_resolve (scope : Scope P) : scope.resolve.resolve = scope.resolve := by
  rw [resolve_eq scope.resolve, bound_resolve]
  exact congrArg (Scope.mk · scope.parents) scope.bound.markRecursive_markRecursive

variable [BranchWeight P]

theorem normalize_normalize (scope : Scope P) : scope.normalize.normalize = scope.normalize := by
  have hrules : scope.normalize.grammar.rules.map Rule.normalize =
      scope.normalize.grammar.rules := by
    refine (List.map_congr_left fun rule hrule => ?_).trans (List.map_id _)
    obtain ⟨old, -, rfl⟩ := List.mem_map.mp hrule
    exact congrArg (fun body => { old with body })
      (old.body.withProbabilities_withProbabilities shareOf shareOf)
  exact congrArg (fun rules => { scope with grammar := { scope.grammar with rules } }) hrules

/-- A rule is bound after its probabilities are computed as before. -/
theorem bindRule_normalize (scope : Scope P) (rule : Rule P) :
    scope.bindRule rule.normalize = (scope.bindRule rule).normalize := by
  have hbody : rule.normalize.body.mapReferences scope.bindReference =
      (scope.bindRule rule).normalize.body :=
    (Expansion.withProbabilities_mapReferences shareOf scope.bindReference rule.body).symm
  have hunbound : (scope.bindRule rule).normalize.body.unboundNames =
      (scope.bindRule rule).unresolved := by
    rw [Expansion.unboundNames, Rule.normalize, Expansion.references_withProbabilities]
    rfl
  rw [bindRule, hbody, hunbound]
  rfl

theorem bound_normalize (scope : Scope P) : scope.normalize.bound = scope.bound.normalize := by
  have hlookup : scope.normalize.lookup? = scope.lookup? :=
    lookup?_congr rfl rfl rfl rfl
  rw [bound, bindRule_congr hlookup]
  refine congrArg (fun rules : List (Rule P) => { scope.grammar with rules }) ?_
  change (scope.grammar.rules.map Rule.normalize).map scope.bindRule =
    (scope.grammar.rules.map scope.bindRule).map Rule.normalize
  rw [List.map_map, List.map_map]
  exact List.map_congr_left fun rule _ => scope.bindRule_normalize rule

/-- It does not matter whether names are bound or probabilities computed first. -/
theorem resolve_normalize (scope : Scope P) :
    scope.normalize.resolve = scope.resolve.normalize := by
  rw [resolve_eq, bound_normalize]
  exact congrArg (Scope.mk · scope.parents) scope.bound.markRecursive_normalize

end Scope

inductive Pass where
  | resolve
  | normalize
  deriving DecidableEq

variable [BranchWeight P]

def Scope.pass (scope : Scope P) : Pass → Scope P
  | .resolve => scope.resolve
  | .normalize => scope.normalize

/-- A sequence of passes comes to each pass that occurs in it, run once. -/
theorem Scope.foldl_pass (scope : Scope P) (passes : List Pass) :
    passes.foldl pass scope =
      (if .normalize ∈ passes then Scope.normalize else id)
        ((if .resolve ∈ passes then Scope.resolve else id) scope) := by
  induction passes generalizing scope with
  | nil => rfl
  | cons first passes ih =>
      rw [List.foldl_cons, ih]
      cases first with
      | resolve =>
          have hresolve : (if Pass.resolve ∈ passes then Scope.resolve else id) scope.resolve =
              scope.resolve := by
            split
            · exact scope.resolve_resolve
            · rfl
          simp [pass, hresolve]
      | normalize =>
          have hresolve : (if Pass.resolve ∈ passes then Scope.resolve else id) scope.normalize =
              ((if Pass.resolve ∈ passes then Scope.resolve else id) scope).normalize := by
            split
            · exact scope.resolve_normalize
            · rfl
          have hnormalize (before : Scope P) :
              (if Pass.normalize ∈ passes then Scope.normalize else id) before.normalize =
                before.normalize := by
            split
            · exact before.normalize_normalize
            · rfl
          simp [pass, hresolve, hnormalize]

end Passes

/-! ## Normalizing -/

section Normalizing

variable {P : Type} [ExactBranchWeight P]

/--
If no weight of a grammar is negative, then after normalizing the branches of every alternation
share its probability as their own weights say, nothing but probabilities is different, and any
sequence of passes in which there is normalizing comes to normalizing once, after binding once if
there is binding in it.
-/
theorem Scope.normalize_spec (scope : Scope P)
    (hweights : scope.grammar.Bodies (Everywhere (AllWeights (0 ≤ ·)))) :
    scope.normalize.grammar.Bodies (Everywhere Expansion.IsShared) ∧
      scope.grammar.SameButProbabilities scope.normalize.grammar ∧
      scope.normalize.parents = scope.parents ∧
      scope.normalize.resolve = scope.resolve.normalize ∧
      ∀ passes : List Pass, .normalize ∈ passes → passes.foldl pass scope =
        if .resolve ∈ passes then scope.resolve.normalize else scope.normalize := by
  have hshared : scope.normalize.grammar.Bodies (Everywhere Expansion.IsShared) := by
    intro rule hrule
    obtain ⟨old, hold, rfl⟩ := List.mem_map.mp hrule
    exact (hweights old hold).partwise (Expansion.isPartwise_withProbabilities shareOf)
      Expansion.isShared_withShares
  refine ⟨hshared, scope.grammar.sameButProbabilities_normalize, rfl, scope.resolve_normalize, ?_⟩
  intro passes hnormalize
  rw [scope.foldl_pass, if_pos hnormalize]
  split <;> rfl

def ordersText : String :=
  "public <order> = /3/ (tea | /2/ [milk] | /6/ <cake>*) | toast | /1/ water \x7bplain\x7d;" ++
    "<cake> = /0/ small | /0/ large;"

/-- The grammar of orders, before it goes through any pass. -/
def orders : Scope ℚ := ⟨(Draft.ofText { id := ⟨0⟩ } ordersText.toList).grammar, []⟩

/--
Normalizing `orders` shares the probability of every alternation and changes nothing else; passing
it through normalizing, binding and normalizing gives the result of binding and normalizing.
-/
theorem orders_normalized :
    orders.grammar.Bodies (Everywhere (AllWeights (0 ≤ ·))) ∧
      orders.normalize.grammar.Bodies (Everywhere Expansion.IsShared) ∧
      orders.grammar.SameButProbabilities orders.normalize.grammar ∧
      [.normalize, .resolve, .normalize].foldl Scope.pass orders = orders.resolve.normalize := by
  have hweights : ∀ rule ∈ orders.grammar.rules, Everywhere (AllWeights (0 ≤ ·)) rule.body := by
    decide +kernel
  obtain ⟨hshared, hsame, -, -, hpasses⟩ := orders.normalize_spec hweights
  exact ⟨hweights, hshared, hsame, hpasses _ (by decide)⟩

end Normalizing

end SpeechGrammar
