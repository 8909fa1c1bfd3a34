import SpeechGrammar.Proofs.Derivation.Reach
import SpeechGrammar.Proofs.Grammar.Bounds
import SpeechGrammar.Proofs.Grammar.Lookup
import SpeechGrammar.Proofs.Unfolding.Exact

/-!
# Widened bounds

A repetition whose greatest number of iterations is below its least one is
unfolded as if the two were the same.  So a scope is unfolded like the scope in
which all such bounds are widened until they are proper.  Trees of the scope
are trees of the widened one, which has more: where bounds are not proper there
is no number of iterations between them.
-/

namespace SpeechGrammar

variable {P : Type}

namespace Expansion

mutual

/-- Raise the greatest number of iterations of every repetition to its least one. -/
def widened : Expansion P → Expansion P
  | .literal text => .literal text
  | .reference link => .reference link
  | .sequence items => .sequence (widenedItems items)
  | .alternation branches => .alternation (widenedBranches branches)
  | .repetition body least most? => .repetition body.widened least (most?.map (max · least))
  | .optional body => .optional body.widened
  | .tagged body tags => .tagged body.widened tags

def widenedItems : List (Expansion P) → List (Expansion P)
  | [] => []
  | item :: items => item.widened :: widenedItems items

def widenedBranches : List (Branch P (Expansion P)) → List (Branch P (Expansion P))
  | [] => []
  | ⟨weight?, probability, body⟩ :: branches =>
      ⟨weight?, probability, body.widened⟩ :: widenedBranches branches

end

theorem widenedItems_eq_map (items : List (Expansion P)) :
    widenedItems items = items.map widened := by
  induction items with
  | nil => rfl
  | cons item items ih => rw [widenedItems, ih, List.map_cons]

theorem widenedBranches_eq_map (branches : List (Branch P (Expansion P))) :
    widenedBranches branches =
      branches.map fun branch => { branch with body := branch.body.widened } := by
  induction branches with
  | nil => rfl
  | cons branch branches ih => rw [widenedBranches, ih, List.map_cons]

theorem properlyBounded_widened (expansion : Expansion P) :
    expansion.widened.ProperlyBounded := by
  induction expansion using structural with
  | literal text => trivial
  | reference link => trivial
  | sequence items ih =>
      rw [widened, ProperlyBounded, properlyBoundedItems_iff, widenedItems_eq_map,
        List.forall_mem_map]
      exact ih
  | alternation branches ih =>
      rw [widened, ProperlyBounded, properlyBoundedBranches_iff, widenedBranches_eq_map,
        List.forall_mem_map]
      exact ih
  | repetition body least most? ih =>
      refine ⟨fun most hmost => ?_, ih⟩
      obtain ⟨bound, -, rfl⟩ := Option.mem_map.mp hmost
      exact le_max_right bound least
  | optional body ih => exact ih
  | tagged body tags ih => exact ih

theorem widened_eq_self {expansion : Expansion P} (hbounded : expansion.ProperlyBounded) :
    expansion.widened = expansion := by
  induction expansion using structural with
  | literal text => rfl
  | reference link => rfl
  | sequence items ih =>
      have hitems := properlyBoundedItems_iff.mp hbounded
      rw [widened, widenedItems_eq_map]
      exact congrArg Expansion.sequence ((List.map_congr_left fun item hitem =>
        ih item hitem (hitems item hitem)).trans (List.map_id' items))
  | alternation branches ih =>
      have hbranches := properlyBoundedBranches_iff.mp hbounded
      have hsame : ∀ branch ∈ branches,
          ({ branch with body := branch.body.widened } : Branch P (Expansion P)) = branch := by
        intro branch hbranch
        rw [ih branch hbranch (hbranches branch hbranch)]
      rw [widened, widenedBranches_eq_map]
      exact congrArg Expansion.alternation
        ((List.map_congr_left hsame).trans (List.map_id' branches))
  | repetition body least most? ih =>
      obtain ⟨hbounds, hbody⟩ := hbounded
      have hmost : most?.map (max · least) = most? := by
        cases most? with
        | none => rfl
        | some most => exact congrArg some (max_eq_left (hbounds most rfl))
      rw [widened, ih hbody, hmost]
  | optional body ih => exact congrArg Expansion.optional (ih hbounded)
  | tagged body tags ih => exact congrArg (Expansion.tagged · tags) (ih hbounded)

theorem references_widened (expansion : Expansion P) :
    expansion.widened.references = expansion.references := by
  induction expansion using structural with
  | literal text => rfl
  | reference link => rfl
  | sequence items ih =>
      rw [widened, references, references, referencesOfItems_eq_flatMap,
        referencesOfItems_eq_flatMap, widenedItems_eq_map, List.flatMap_map]
      exact List.flatMap_congr ih
  | alternation branches ih =>
      rw [widened, references, references, referencesOfBranches_eq_flatMap,
        referencesOfBranches_eq_flatMap, widenedBranches_eq_map, List.flatMap_map]
      exact List.flatMap_congr ih
  | repetition body least most? ih => exact ih
  | optional body ih => exact ih
  | tagged body tags ih => exact ih

theorem literals_widened [BranchWeight P] (expansion : Expansion P) :
    expansion.widened.literals = expansion.literals := by
  induction expansion using structural with
  | literal text => rfl
  | reference link => rfl
  | sequence items ih =>
      rw [widened, literals, literals, literalsOfItems_eq_flatMap, literalsOfItems_eq_flatMap,
        widenedItems_eq_map, List.flatMap_map]
      exact List.flatMap_congr ih
  | alternation branches ih =>
      rw [widened, literals, literals, literalsOfBranches_eq_flatMap,
        literalsOfBranches_eq_flatMap, widenedBranches_eq_map, List.flatMap_map]
      exact List.flatMap_congr ih
  | repetition body least most? ih => exact ih
  | optional body ih => exact ih
  | tagged body tags ih => exact ih

/-- Widening bounds does not change how an expansion is unfolded. -/
theorem unfold_widened [BranchWeight P] (follow : List OpenRule → Nat → Reference → Unfolding P)
    (opened : List OpenRule) (floor : Nat) (expansion : Expansion P) :
    expansion.widened.unfold follow opened floor = expansion.unfold follow opened floor := by
  induction expansion using structural generalizing floor with
  | literal text => rfl
  | reference link => rfl
  | sequence items ih =>
      rw [widened, unfold, unfold]
      refine congrArg Unfolding.sequence ?_
      induction items with
      | nil => rfl
      | cons item items ihItems =>
          obtain ⟨hitem, hitems⟩ := List.forall_mem_cons.mp ih
          have hempty : (widenedItems items).isEmpty = items.isEmpty := by cases items <;> rfl
          rw [widenedItems, unfoldItems, unfoldItems, hempty, hitem, ihItems hitems]
  | alternation branches ih =>
      rw [widened, unfold, unfold]
      refine congrArg Unfolding.choice ?_
      induction branches with
      | nil => rfl
      | cons branch branches ihBranches =>
          obtain ⟨hbranch, hbranches⟩ := List.forall_mem_cons.mp ih
          rw [widenedBranches, unfoldBranches, unfoldBranches, hbranch, ihBranches hbranches]
  | repetition body least most? ih =>
      cases most? with
      | none => rw [widened, Option.map_none, unfold, unfold, ih]
      | some most =>
          -- The unfolding takes the greater bound itself, so taking it before makes no difference.
          rw [widened, Option.map_some, unfold, unfold, ih, ih, max_assoc, max_self]
  | optional body ih => rw [widened, unfold, unfold, ih]
  | tagged body tags ih => rw [widened, unfold, unfold, ih]

end Expansion

/-! ## Widened scopes -/

def Rule.widened (rule : Rule P) : Rule P := { rule with body := rule.body.widened }

def Grammar.widened (grammar : Grammar P) : Grammar P :=
  { grammar with rules := grammar.rules.map Rule.widened }

namespace Scope

def widened (scope : Scope P) : Scope P :=
  ⟨scope.grammar.widened, scope.parents.map Grammar.widened⟩

theorem chain_widened (scope : Scope P) : scope.widened.chain = scope.chain.map Grammar.widened :=
  rfl

theorem properlyBounded_widened (scope : Scope P) : scope.widened.ProperlyBounded := by
  rw [ProperlyBounded, chain_widened, List.forall_mem_map]
  intro grammar _ rule hrule
  obtain ⟨old, -, rfl⟩ := List.mem_map.mp hrule
  exact old.body.properlyBounded_widened

theorem follow?_widened (scope : Scope P) (target : Target) :
    scope.widened.follow? target = (scope.follow? target).map Rule.widened := by
  have hfound : scope.widened.grammarWith? target.grammar =
      (scope.grammarWith? target.grammar).map Grammar.widened := by
    rw [grammarWith?, chain_widened, List.find?_map]
    rfl
  rw [follow?, follow?, hfound]
  cases scope.grammarWith? target.grammar with
  | none => rfl
  | some grammar => exact List.getElem?_map

theorem public_widened {scope : Scope P} {name : String} {target : Target} {top : Rule P}
    (hpublic : scope.grammar.public name = .ok (target, top)) :
    scope.widened.grammar.public name = .ok (target, top.widened) := by
  obtain ⟨hown, hindex, hrule, hshown⟩ := Grammar.public_eq_ok_iff.mp hpublic
  refine Grammar.public_eq_ok_iff.mpr ⟨hown, hindex, ?_, hshown⟩
  rw [widened, Grammar.widened, List.getElem?_map, hrule, Option.map_some]

theorem ruleCount_widened (scope : Scope P) : scope.widened.ruleCount = scope.ruleCount := by
  rw [ruleCount, ruleCount, chain_widened, List.flatMap_map, List.length_flatMap,
    List.length_flatMap]
  exact congrArg List.sum (List.map_congr_left fun grammar _ => List.length_map _)

variable [BranchWeight P]

theorem unfoldReference_widened (scope : Scope P) (room : Nat) :
    scope.widened.unfoldReference room = scope.unfoldReference room := by
  induction room using Nat.strongRecOn with
  | ind room ih =>
      funext opened floor link
      unfold unfoldReference
      cases link.target? with
      | none => rfl
      | some target =>
          dsimp only
          split
          · rfl
          · rw [follow?_widened]
            cases scope.follow? target with
            | none => rfl
            | some rule =>
                cases room with
                | zero => rfl
                | succ room =>
                    have husable : rule.widened.unusable? = rule.unusable? := rfl
                    dsimp only [Option.map_some]
                    rw [husable, ih room (Nat.lt_succ_self room)]
                    cases rule.unusable? with
                    | some reason => rfl
                    | none =>
                        exact congrArg (Unfolding.rule target)
                          (Expansion.unfold_widened _ _ _ rule.body)

theorem publicUnfolding_widened (scope : Scope P) (target : Target) (top : Rule P) :
    scope.widened.publicUnfolding target top.widened = scope.publicUnfolding target top := by
  rw [publicUnfolding, publicUnfolding, ruleCount_widened, unfoldReference_widened]
  rfl

end Scope

/-- Trees stay trees when bounds are widened. -/
theorem Derives.widened [BranchWeight P] {scope : Scope P} {expansion : Expansion P}
    {tree : Tree P} (hderives : Derives scope expansion tree) :
    Derives scope.widened expansion.widened tree := by
  induction hderives with
  | literal text => exact .literal text
  | @reference link target rule tree htarget hrule _ ih =>
      have hwidened : scope.widened.follow? target = some rule.widened := by
        rw [Scope.follow?_widened, hrule, Option.map_some]
      exact .reference htarget hwidened ih
  | sequence hlength _ ih =>
      rw [Expansion.widened, Expansion.widenedItems_eq_map]
      refine .sequence (by rwa [List.length_map]) fun item tree hmem => ?_
      rw [List.zip_map_left] at hmem
      obtain ⟨⟨old, oldTree⟩, hold, heq⟩ := List.mem_map.mp hmem
      obtain ⟨rfl, rfl⟩ := Prod.mk.inj heq
      exact ih old oldTree hold
  | @alternation branches branch tree hmem hpositive _ ih =>
      rw [Expansion.widened, Expansion.widenedBranches_eq_map]
      have hbranch : (⟨branch.weight?, branch.probability, branch.body.widened⟩ :
          Branch P (Expansion P)) ∈ branches.map fun branch =>
            { branch with body := branch.body.widened } := List.mem_map.mpr ⟨branch, hmem, rfl⟩
      have htaken := Derives.alternation hbranch hpositive ih
      exact htaken
  | repetition hleast hmost _ ih =>
      refine .repetition hleast (fun most hmem => ?_) ih
      obtain ⟨bound, hbound, rfl⟩ := Option.mem_map.mp hmem
      exact (hmost bound hbound).trans (le_max_left bound _)
  | optional _ ih => exact .optional ih
  | tagged _ ih => exact .tagged ih

end SpeechGrammar
