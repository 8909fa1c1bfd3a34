import SpeechGrammar.Proofs.Expansion.Everywhere
import SpeechGrammar.Proofs.Unfolding.Exact
import SpeechGrammar.Proofs.Unfolding.Numbering
import SpeechGrammar.Proofs.Unfolding.Parts

/-!
# Contained returns

An automaton goes on behind an inexact return from the exit of the open rule
that is returned to.  So whatever is read inside that rule must end at its
exit, and not at the exit of a rule around it.  That is so if no exact return
inside the rule leads out of it: returns are contained then.

What a return needs is that the rule it leads to ends not too far out.  Every
open rule gets a floor: the depth of the outermost rule at whose exit it may
end.  An unfolding is covered if floors can be chosen such that all of its
returns are right.
-/

namespace SpeechGrammar

variable {P : Type}

namespace Unfolding

mutual

/-- The depths of the open rules that an unfolding returns to, either exactly or inexactly. -/
def returns (exactly : Bool) : Unfolding P → List Nat
  | .word _ => []
  | .sequence items => returnsOfItems exactly items
  | .choice branches => returnsOfBranches exactly branches
  | .copies _ items => returnsOfItems exactly items
  | .loop _ body => body.returns exactly
  | .tagged body _ => body.returns exactly
  | .rule _ body => body.returns exactly
  | .recursion depth _ exact => if exact = exactly then [depth] else []
  | .fault _ => []

def returnsOfItems (exactly : Bool) : List (Unfolding P) → List Nat
  | [] => []
  | item :: items => item.returns exactly ++ returnsOfItems exactly items

def returnsOfBranches (exactly : Bool) : List (P × Unfolding P) → List Nat
  | [] => []
  | (_, body) :: branches => body.returns exactly ++ returnsOfBranches exactly branches

end

mutual

/--
Whether returns are contained, where a number of rules are open: no exact
return leads out of a rule that is returned to inexactly from inside it.
-/
def contained (depth : Nat) : Unfolding P → Bool
  | .word _ => true
  | .sequence items => containedItems depth items
  | .choice branches => containedBranches depth branches
  | .copies _ items => containedItems depth items
  | .loop _ body => body.contained depth
  | .tagged body _ => body.contained depth
  | .rule _ body =>
      (!(body.returns false).contains depth || (body.returns true).all (depth ≤ ·)) &&
        body.contained (depth + 1)
  | .recursion _ _ _ => true
  | .fault _ => true

def containedItems (depth : Nat) : List (Unfolding P) → Bool
  | [] => true
  | item :: items => item.contained depth && containedItems depth items

def containedBranches (depth : Nat) : List (P × Unfolding P) → Bool
  | [] => true
  | (_, body) :: branches => body.contained depth && containedBranches depth branches

end

theorem mem_returnsOfItems_iff {exactly : Bool} {depth : Nat} {items : List (Unfolding P)} :
    depth ∈ returnsOfItems exactly items ↔ ∃ item ∈ items, depth ∈ item.returns exactly := by
  induction items with
  | nil => simp [returnsOfItems]
  | cons item items ih => simp [returnsOfItems, ih]

theorem mem_returnsOfBranches_iff {exactly : Bool} {depth : Nat}
    {branches : List (P × Unfolding P)} :
    depth ∈ returnsOfBranches exactly branches ↔
      ∃ branch ∈ branches, depth ∈ branch.2.returns exactly := by
  induction branches with
  | nil => simp [returnsOfBranches]
  | cons branch branches ih => simp [returnsOfBranches, ih]

theorem containedItems_iff {depth : Nat} {items : List (Unfolding P)} :
    containedItems depth items = true ↔ ∀ item ∈ items, item.contained depth = true := by
  induction items with
  | nil => simp [containedItems]
  | cons item items ih => rw [containedItems, Bool.and_eq_true, ih, List.forall_mem_cons]

theorem containedBranches_iff {depth : Nat} {branches : List (P × Unfolding P)} :
    containedBranches depth branches = true ↔
      ∀ branch ∈ branches, branch.2.contained depth = true := by
  induction branches with
  | nil => simp [containedBranches]
  | cons branch branches ih =>
      rw [containedBranches, Bool.and_eq_true, ih, List.forall_mem_cons]

theorem contained_rule_iff {depth : Nat} {target : Target} {body : Unfolding P} :
    (rule target body).contained depth = true ↔
      (depth ∈ body.returns false → ∀ other ∈ body.returns true, depth ≤ other) ∧
        body.contained (depth + 1) = true := by
  rw [contained, Bool.and_eq_true, Bool.or_eq_true, Bool.not_eq_true', List.all_eq_true]
  simp only [decide_eq_true_eq, ← Bool.not_eq_true, List.contains_iff_mem]
  exact and_congr_left' (imp_iff_not_or.symm)

theorem Exact.not_mem_returns {unfolding : Unfolding P} (hexact : unfolding.Exact) (depth : Nat) :
    depth ∉ unfolding.returns false := by
  induction unfolding using Unfolding.structural with
  | word text => exact List.not_mem_nil
  | sequence items ih =>
      rw [returns, mem_returnsOfItems_iff]
      rintro ⟨item, hitem, hdepth⟩
      exact ih item hitem (exact_sequence_iff.mp hexact item hitem) hdepth
  | choice branches ih =>
      rw [returns, mem_returnsOfBranches_iff]
      rintro ⟨branch, hbranch, hdepth⟩
      exact ih branch hbranch (exact_choice_iff.mp hexact branch hbranch) hdepth
  | copies least items ih =>
      rw [returns, mem_returnsOfItems_iff]
      rintro ⟨item, hitem, hdepth⟩
      exact ih item hitem (exact_copies_iff.mp hexact item hitem) hdepth
  | loop least body ih => exact ih (exact_loop_iff.mp hexact)
  | tagged body tags ih => exact ih (exact_tagged_iff.mp hexact)
  | rule target body ih => exact ih (exact_rule_iff.mp hexact)
  | recursion place name exact =>
      obtain rfl := exact_recursion_iff.mp hexact
      simp [returns]
  | fault reason => exact List.not_mem_nil

/-- Where there are no inexact returns, returns are contained. -/
theorem Exact.contained {unfolding : Unfolding P} (hexact : unfolding.Exact) (depth : Nat) :
    unfolding.contained depth = true := by
  induction unfolding using Unfolding.structural generalizing depth with
  | word text => rfl
  | sequence items ih =>
      rw [Unfolding.contained, containedItems_iff]
      exact fun item hitem => ih item hitem (exact_sequence_iff.mp hexact item hitem) depth
  | choice branches ih =>
      rw [Unfolding.contained, containedBranches_iff]
      exact fun branch hbranch =>
        ih branch hbranch (exact_choice_iff.mp hexact branch hbranch) depth
  | copies least items ih =>
      rw [Unfolding.contained, containedItems_iff]
      exact fun item hitem => ih item hitem (exact_copies_iff.mp hexact item hitem) depth
  | loop least body ih => exact ih (exact_loop_iff.mp hexact) depth
  | tagged body tags ih => exact ih (exact_tagged_iff.mp hexact) depth
  | rule target body ih =>
      have hbody := exact_rule_iff.mp hexact
      exact contained_rule_iff.mpr
        ⟨fun hdepth => absurd hdepth (hbody.not_mem_returns depth), ih hbody _⟩
  | recursion place name exact => rfl
  | fault reason => rfl

theorem le_of_mem_returns_recursion {floor place depth : Nat} {name : String}
    (hdepth : depth ∈
      (recursion place name (decide (floor ≤ place)) : Unfolding P).returns true) :
    floor ≤ depth := by
  rw [returns] at hdepth
  split at hdepth
  · rename_i hexact
    rw [List.mem_singleton.mp hdepth]
    exact of_decide_eq_true hexact
  · cases hdepth

/-! ## Floors -/

mutual

/--
Whether the returns of an unfolding are right, where open rules may end at the
exits of rules from their floors on, and the unfolding from a floor of its own.
An exact return must not end further out than that, and an inexact one must
lead to a rule that ends at its own exit.
-/
def Covered (floors : List Nat) (floor : Nat) : Unfolding P → Prop
  | .word _ => True
  | .sequence items => CoveredItems floors floor items
  | .choice branches => CoveredBranches floors floor branches
  | .copies _ items => CoveredItems floors floor items
  | .loop _ body => body.Covered floors floors.length
  | .tagged body _ => body.Covered floors floor
  | .rule _ body => ∃ lower, floor ≤ lower ∧ lower ≤ floors.length ∧
      body.Covered (floors ++ [lower]) lower
  | .recursion depth _ exact =>
      ∃ lower ∈ floors[depth]?, if exact then floor ≤ lower else lower = depth
  | .fault _ => False

def CoveredItems (floors : List Nat) (floor : Nat) : List (Unfolding P) → Prop
  | [] => True
  | item :: items =>
      item.Covered floors (if items.isEmpty then floor else floors.length) ∧
        CoveredItems floors floor items

def CoveredBranches (floors : List Nat) (floor : Nat) : List (P × Unfolding P) → Prop
  | [] => True
  | (_, body) :: branches => body.Covered floors floor ∧ CoveredBranches floors floor branches

end

theorem coveredBranches_iff {floors : List Nat} {floor : Nat} {branches : List (P × Unfolding P)} :
    CoveredBranches floors floor branches ↔
      ∀ branch ∈ branches, branch.2.Covered floors floor := by
  induction branches with
  | nil => simp [CoveredBranches]
  | cons branch branches ih => rw [CoveredBranches, ih, List.forall_mem_cons]

theorem CoveredItems.exists_covered {floors : List Nat} {floor : Nat} {items : List (Unfolding P)}
    (hcovered : CoveredItems floors floor items) {item : Unfolding P} (hitem : item ∈ items) :
    ∃ lower, item.Covered floors lower := by
  induction items with
  | nil => cases hitem
  | cons head items ih =>
      rcases List.mem_cons.mp hitem with rfl | hitem
      · exact ⟨_, hcovered.1⟩
      · exact ih hcovered.2 hitem

theorem Covered.faultless {unfolding : Unfolding P} {floors : List Nat} {floor : Nat}
    (hcovered : unfolding.Covered floors floor) : unfolding.Faultless := by
  induction unfolding using Unfolding.structural generalizing floors floor with
  | word text => rfl
  | sequence items ih =>
      refine faultless_sequence_iff.mpr fun item hitem => ?_
      obtain ⟨lower, hlower⟩ := CoveredItems.exists_covered hcovered hitem
      exact ih item hitem hlower
  | choice branches ih =>
      exact faultless_choice_iff.mpr fun branch hbranch =>
        ih branch hbranch (coveredBranches_iff.mp hcovered branch hbranch)
  | copies least items ih =>
      refine faultless_copies_iff.mpr fun item hitem => ?_
      obtain ⟨lower, hlower⟩ := CoveredItems.exists_covered hcovered hitem
      exact ih item hitem hlower
  | loop least body ih => exact faultless_loop_iff.mpr (ih hcovered)
  | tagged body tags ih => exact faultless_tagged_iff.mpr (ih hcovered)
  | rule target body ih =>
      obtain ⟨lower, -, -, hbody⟩ := hcovered
      exact faultless_rule_iff.mpr (ih hbody)
  | recursion depth name exact => exact faultless_recursion
  | fault reason => exact hcovered.elim

/-- What the returns of an unfolding need in order to be right, where open rules have floors. -/
structure Permitted (floors : List Nat) (floor : Nat) (unfolding : Unfolding P) : Prop where
  faultless : unfolding.Faultless
  contained : unfolding.contained floors.length = true
  exact : ∀ depth ∈ unfolding.returns true, ∀ lower ∈ floors[depth]?, floor ≤ lower
  inexact : ∀ depth ∈ unfolding.returns false, ∀ lower ∈ floors[depth]?, lower = depth

namespace Permitted

variable {floors : List Nat} {floor : Nat}

theorem item {items : List (Unfolding P)} (hfaultless : ∀ item ∈ items, item.Faultless)
    (hcontained : containedItems floors.length items = true)
    (hexact : ∀ depth ∈ returnsOfItems true items, ∀ lower ∈ floors[depth]?, floor ≤ lower)
    (hinexact : ∀ depth ∈ returnsOfItems false items, ∀ lower ∈ floors[depth]?, lower = depth)
    {item : Unfolding P} (hitem : item ∈ items) : item.Permitted floors floor where
  faultless := hfaultless item hitem
  contained := containedItems_iff.mp hcontained item hitem
  exact depth hdepth := hexact depth (mem_returnsOfItems_iff.mpr ⟨item, hitem, hdepth⟩)
  inexact depth hdepth := hinexact depth (mem_returnsOfItems_iff.mpr ⟨item, hitem, hdepth⟩)

theorem of_sequence {items : List (Unfolding P)}
    (hpermitted : (sequence items).Permitted floors floor) :
    ∀ item ∈ items, item.Permitted floors floor := fun _ =>
  item (faultless_sequence_iff.mp hpermitted.faultless) hpermitted.contained hpermitted.exact
    hpermitted.inexact

theorem of_copies {least : Nat} {items : List (Unfolding P)}
    (hpermitted : (copies least items).Permitted floors floor) :
    ∀ item ∈ items, item.Permitted floors floor := fun _ =>
  item (faultless_copies_iff.mp hpermitted.faultless) hpermitted.contained hpermitted.exact
    hpermitted.inexact

theorem of_choice {branches : List (P × Unfolding P)}
    (hpermitted : (choice branches).Permitted floors floor) :
    ∀ branch ∈ branches, branch.2.Permitted floors floor := fun branch hbranch =>
  { faultless := faultless_choice_iff.mp hpermitted.faultless branch hbranch
    contained := containedBranches_iff.mp hpermitted.contained branch hbranch
    exact := fun depth hdepth =>
      hpermitted.exact depth (mem_returnsOfBranches_iff.mpr ⟨branch, hbranch, hdepth⟩)
    inexact := fun depth hdepth =>
      hpermitted.inexact depth (mem_returnsOfBranches_iff.mpr ⟨branch, hbranch, hdepth⟩) }

theorem of_loop {least : Nat} {body : Unfolding P}
    (hpermitted : (loop least body).Permitted floors floor) : body.Permitted floors floor :=
  { hpermitted with faultless := faultless_loop_iff.mp hpermitted.faultless }

theorem of_tagged {body : Unfolding P} {tags : List Tag}
    (hpermitted : (tagged body tags).Permitted floors floor) : body.Permitted floors floor :=
  { hpermitted with faultless := faultless_tagged_iff.mp hpermitted.faultless }

theorem covered_recursion {depth : Nat} {name : String} {exact : Bool}
    (hpermitted : (recursion depth name exact : Unfolding P).Permitted floors floor)
    (hdepth : depth < floors.length) :
    (recursion depth name exact : Unfolding P).Covered floors floor := by
  have hlower : floors[depth] ∈ floors[depth]? := List.getElem?_eq_getElem hdepth
  refine ⟨_, hlower, ?_⟩
  cases exact with
  | true => exact hpermitted.exact depth (List.mem_singleton_self _) _ hlower
  | false => exact hpermitted.inexact depth (List.mem_singleton_self _) _ hlower

theorem aside {unfolding : Unfolding P} (hpermitted : unfolding.Permitted floors floor)
    (hreturns : ∀ depth ∈ unfolding.returns true, floors.length ≤ depth) :
    unfolding.Permitted floors floors.length :=
  { hpermitted with
    exact := fun depth hdepth lower hlower => by
      rw [List.getElem?_eq_none (hreturns depth hdepth)] at hlower
      cases hlower }

/-- A rule gets its own depth as its floor, unless an exact return leads out of it. -/
theorem enter {target : Target} {body : Unfolding P} (hfloor : floor ≤ floors.length)
    (hpermitted : (rule target body).Permitted floors floor) :
    ∃ lower, floor ≤ lower ∧ lower ≤ floors.length ∧
      body.Permitted (floors ++ [lower]) lower := by
  obtain ⟨hcontained, hinside⟩ := contained_rule_iff.mp hpermitted.contained
  have hbody : ∀ {lower : Nat}, body.contained (floors ++ [lower]).length = true := by
    simpa using hinside
  by_cases hclosed : ∀ depth ∈ body.returns true, floors.length ≤ depth
  · refine ⟨floors.length, hfloor, le_refl _, faultless_rule_iff.mp hpermitted.faultless, hbody,
      fun depth hdepth lower hlower => ?_, fun depth hdepth lower hlower => ?_⟩
    · rcases getElem?_concat_eq_some_iff.mp hlower with hlower | ⟨-, rfl⟩
      · rw [List.getElem?_eq_none (hclosed depth hdepth)] at hlower
        cases hlower
      · exact le_refl _
    · rcases getElem?_concat_eq_some_iff.mp hlower with hlower | ⟨rfl, rfl⟩
      · exact hpermitted.inexact depth hdepth lower hlower
      · rfl
  · refine ⟨floor, le_refl _, hfloor, faultless_rule_iff.mp hpermitted.faultless, hbody,
      fun depth hdepth lower hlower => ?_, fun depth hdepth lower hlower => ?_⟩
    · rcases getElem?_concat_eq_some_iff.mp hlower with hlower | ⟨-, rfl⟩
      · exact hpermitted.exact depth hdepth lower hlower
      · exact le_refl _
    · rcases getElem?_concat_eq_some_iff.mp hlower with hlower | ⟨rfl, rfl⟩
      · exact hpermitted.inexact depth hdepth lower hlower
      · exact absurd (hcontained hdepth) hclosed

end Permitted

end Unfolding

/-! ## Unfolded expansions -/

open Unfolding (CoveredItems)

namespace Expansion

variable [BranchWeight P] {follow : List OpenRule → Nat → Reference → Unfolding P}

/-- If references do not return exactly to rules that are not at their end, no expansion does. -/
theorem le_of_mem_returns
    (hfollow : ∀ opened floor link, floor ≤ opened.length →
      ∀ depth ∈ (follow opened floor link).returns true, floor ≤ depth)
    {opened : List OpenRule} {floor : Nat} (hfloor : floor ≤ opened.length)
    (expansion : Expansion P) :
    ∀ depth ∈ (expansion.unfold follow opened floor).returns true, floor ≤ depth := by
  induction expansion using Expansion.structural generalizing floor with
  | literal text =>
      rw [unfold]
      exact fun depth hdepth => absurd hdepth List.not_mem_nil
  | reference link => exact hfollow opened floor link hfloor
  | sequence items ih =>
      rw [unfold]
      intro depth hdepth
      obtain ⟨part, hpart, hdepth⟩ := Unfolding.mem_returnsOfItems_iff.mp hdepth
      obtain ⟨item, hitem, lower, rfl | rfl, rfl⟩ := exists_of_mem_unfoldItems hpart
      · exact ih item hitem hfloor depth hdepth
      · exact hfloor.trans (ih item hitem (le_refl _) depth hdepth)
  | alternation branches ih =>
      rw [unfold]
      intro depth hdepth
      obtain ⟨part, hpart, hdepth⟩ := Unfolding.mem_returnsOfBranches_iff.mp hdepth
      obtain ⟨branch, hbranch, -, rfl⟩ := mem_unfoldBranches_iff.mp hpart
      exact ih branch hbranch hfloor depth hdepth
  | repetition body least most? ih =>
      cases most? with
      | none =>
          rw [unfold]
          exact fun depth hdepth => hfloor.trans (ih (le_refl _) depth hdepth)
      | some most =>
          rw [unfold]
          intro depth hdepth
          obtain ⟨copy, hcopy, hdepth⟩ := Unfolding.mem_returnsOfItems_iff.mp hdepth
          rcases Unfolding.eq_or_eq_of_mem_copiesOf hcopy with rfl | rfl
          · exact hfloor.trans (ih (le_refl _) depth hdepth)
          · exact ih hfloor depth hdepth
  | optional body ih =>
      rw [unfold]
      intro depth hdepth
      obtain ⟨copy, hcopy, hdepth⟩ := Unfolding.mem_returnsOfItems_iff.mp hdepth
      obtain rfl := List.mem_singleton.mp hcopy
      exact ih hfloor depth hdepth
  | tagged body tags ih =>
      rw [unfold]
      exact ih hfloor

omit [BranchWeight P] in
theorem coveredItems_copies {floors : List Nat} {lower : Nat} {early last : Unfolding P}
    (count : Nat) (hearly : 0 < count → early.Covered floors floors.length)
    (hlast : last.Covered floors lower) :
    CoveredItems floors lower (List.replicate count early ++ [last]) := by
  induction count with
  | zero => exact ⟨hlast, trivial⟩
  | succ count ih =>
      rw [List.replicate_succ, List.cons_append]
      refine ⟨?_, ih fun _ => hearly (Nat.succ_pos count)⟩
      rw [if_neg (by simp)]
      exact hearly (Nat.succ_pos count)

/-- If references are covered where their returns are permitted, so are all expansions. -/
theorem covered_of_permitted
    (hreturns : ∀ opened floor link, floor ≤ opened.length →
      ∀ depth ∈ (follow opened floor link).returns true, floor ≤ depth)
    (hfollow : ∀ opened floor link floors lower, floor ≤ opened.length →
      floors.length = opened.length → lower ≤ floors.length →
      (follow opened floor link).Permitted floors lower →
      (follow opened floor link).Covered floors lower)
    {opened : List OpenRule} {floor : Nat} {floors : List Nat} {lower : Nat}
    (hfloor : floor ≤ opened.length) (hlength : floors.length = opened.length)
    (hlower : lower ≤ floors.length) (expansion : Expansion P)
    (hpermitted : (expansion.unfold follow opened floor).Permitted floors lower) :
    (expansion.unfold follow opened floor).Covered floors lower := by
  have haside : ∀ (part : Expansion P) {lower : Nat},
      (part.unfold follow opened opened.length).Permitted floors lower →
      (part.unfold follow opened opened.length).Permitted floors floors.length := by
    intro part lower hpart
    refine hpart.aside ?_
    rw [hlength]
    exact le_of_mem_returns hreturns (le_refl _) part
  induction expansion using Expansion.structural generalizing floor lower with
  | literal text => trivial
  | reference link => exact hfollow opened floor link floors lower hfloor hlength hlower hpermitted
  | sequence items ih =>
      rw [unfold] at hpermitted ⊢
      have hparts := hpermitted.of_sequence
      clear hpermitted
      rw [Unfolding.Covered]
      induction items with
      | nil => trivial
      | cons item items ihItems =>
          rw [unfoldItems] at hparts ⊢
          obtain ⟨hitem, hitems⟩ := List.forall_mem_cons.mp hparts
          obtain ⟨ihItem, ihRest⟩ := List.forall_mem_cons.mp ih
          refine ⟨?_, ihItems ihRest hitems⟩
          cases items with
          | nil => exact ihItem hfloor hlower hitem
          | cons next items => exact ihItem (le_refl _) (le_refl _) (haside item hitem)
  | alternation branches ih =>
      rw [unfold] at hpermitted ⊢
      have hparts := hpermitted.of_choice
      rw [Unfolding.Covered, Unfolding.coveredBranches_iff]
      intro part hpart
      have hbranchPermitted := hparts part hpart
      obtain ⟨branch, hbranch, -, rfl⟩ := mem_unfoldBranches_iff.mp hpart
      exact ih branch hbranch hfloor hlower hbranchPermitted
  | repetition body least most? ih =>
      cases most? with
      | none =>
          rw [unfold] at hpermitted ⊢
          exact ih (le_refl _) (le_refl _) (haside body hpermitted.of_loop)
      | some most =>
          rw [unfold] at hpermitted ⊢
          have hcopies := hpermitted.of_copies
          have hfaultless := Unfolding.faultless_copies_iff.mp hpermitted.faultless
          rw [Unfolding.Covered]
          generalize max most least = count at hcopies hfaultless ⊢
          cases count with
          | zero => trivial
          | succ count =>
              rw [Unfolding.copiesOf_succ_of_faultless hfaultless] at hcopies ⊢
              obtain ⟨hearly, hlast⟩ := List.forall_mem_append.mp hcopies
              refine coveredItems_copies count (fun hcount => ?_)
                (ih hfloor hlower (hlast _ (List.mem_singleton_self _)))
              have hcopy := hearly _ (List.mem_replicate.mpr ⟨hcount.ne', rfl⟩)
              exact ih (le_refl _) (le_refl _) (haside body hcopy)
  | optional body ih =>
      rw [unfold] at hpermitted ⊢
      exact ⟨ih hfloor hlower (hpermitted.of_copies _ (List.mem_singleton_self _)), trivial⟩
  | tagged body tags ih =>
      rw [unfold] at hpermitted ⊢
      exact ih hfloor hlower hpermitted.of_tagged

end Expansion

namespace Scope

variable [BranchWeight P] {scope : Scope P}

theorem le_of_mem_returns_unfoldReference (room : Nat) (opened : List OpenRule) (floor : Nat)
    (link : Reference) (hfloor : floor ≤ opened.length) :
    ∀ depth ∈ (scope.unfoldReference room opened floor link).returns true, floor ≤ depth := by
  induction room using Nat.strongRecOn generalizing opened floor link with
  | ind room ih =>
      rcases unfoldReference_cases scope room opened floor link with ⟨reason, heq, -⟩ |
        ⟨target, -, ⟨place, rule, -, -, -, heq⟩ | ⟨left, rule, rfl, -, -, heq⟩⟩
      · rw [heq]
        exact fun depth hdepth => absurd hdepth List.not_mem_nil
      · rw [heq]
        exact fun depth => Unfolding.le_of_mem_returns_recursion
      · rw [heq]
        exact Expansion.le_of_mem_returns (ih left (Nat.lt_succ_self left))
          (hfloor.trans (by simp)) rule.body

theorem covered_unfoldReference (room : Nat) (opened : List OpenRule) (floor : Nat)
    (link : Reference) (floors : List Nat) (lower : Nat) (hfloor : floor ≤ opened.length)
    (hlength : floors.length = opened.length) (hlower : lower ≤ floors.length)
    (hpermitted : (scope.unfoldReference room opened floor link).Permitted floors lower) :
    (scope.unfoldReference room opened floor link).Covered floors lower := by
  induction room using Nat.strongRecOn generalizing opened floor link floors lower with
  | ind room ih =>
      rcases unfoldReference_cases scope room opened floor link with ⟨reason, heq, -⟩ |
        ⟨target, -, ⟨place, rule, hrule, -, -, heq⟩ | ⟨left, rule, rfl, -, -, heq⟩⟩
      · rw [heq] at hpermitted
        exact (Unfolding.not_faultless_fault reason hpermitted.faultless).elim
      · rw [heq] at hpermitted ⊢
        exact hpermitted.covered_recursion (hlength ▸ (List.getElem?_eq_some_iff.mp hrule).1)
      · rw [heq] at hpermitted ⊢
        obtain ⟨inner, hinner, hle, hbody⟩ := hpermitted.enter hlower
        refine ⟨inner, hinner, hle, ?_⟩
        exact Expansion.covered_of_permitted (le_of_mem_returns_unfoldReference left)
          (ih left (Nat.lt_succ_self left)) (hfloor.trans (by simp)) (by simp [hlength])
          (hle.trans (by simp)) rule.body hbody

/-- If returns are contained, those of a public rule are right. -/
theorem covered_publicUnfolding {target : Target} {top : Rule P}
    (hfaultless : (scope.publicUnfolding target top).Faultless)
    (hcontained : (scope.publicUnfolding target top).contained 0 = true) :
    (scope.publicUnfolding target top).Covered [] 0 :=
  covered_unfoldReference scope.ruleCount [] 0 _ [] 0 (le_refl _) rfl (le_refl _)
    { faultless := hfaultless
      contained := hcontained
      exact := fun _ _ _ hlower => nomatch hlower
      inexact := fun _ _ _ hlower => nomatch hlower }

end Scope

end SpeechGrammar
