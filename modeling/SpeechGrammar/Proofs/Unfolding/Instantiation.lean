import SpeechGrammar.Proofs.Unfolding.Faultless
import SpeechGrammar.Proofs.Unfolding.InexactReturns
import SpeechGrammar.Proofs.Unfolding.Termination

/-!
# The order of instantiation

Unfolding instantiates the rules that references mean, outermost first and
from left to right; a rule that is open is not instantiated inside itself, and
branches that cannot be taken are left out.  Written down without stopping at
faults, this order has every rule that the references lead to, and the first
rule in it that cannot be used is the one that unfolding meets as a fault.
-/

namespace SpeechGrammar

variable {P : Type} [BranchWeight P]

namespace Report

theorem fault?_andThen (first second : Report) :
    (first.andThen second).fault? = first.fault?.or second.fault? := by
  cases hfault : first.fault? <;> simp [andThen, hfault]

theorem fault?_times {count : Nat} (hcount : 0 < count) (report : Report) :
    (report.times count).fault? = report.fault? := by
  obtain ⟨count, rfl⟩ := Nat.exists_eq_succ_of_ne_zero (Nat.ne_of_gt hcount)
  rw [times]
  cases hfault : report.fault? with
  | none => rfl
  | some reason => exact hfault

end Report

namespace Expansion

mutual

/-- The references in an expansion but for those on branches that cannot be taken. -/
def takenReferences : Expansion P → List Reference
  | .literal _ => []
  | .reference link => [link]
  | .sequence items => takenReferencesOfItems items
  | .alternation branches => takenReferencesOfBranches branches
  | .repetition body _ _ => body.takenReferences
  | .optional body => body.takenReferences
  | .tagged body _ => body.takenReferences

def takenReferencesOfItems : List (Expansion P) → List Reference
  | [] => []
  | item :: items => item.takenReferences ++ takenReferencesOfItems items

def takenReferencesOfBranches : List (Branch P (Expansion P)) → List Reference
  | [] => []
  | ⟨_, probability, body⟩ :: branches =>
      if BranchWeight.isPositive probability then
        body.takenReferences ++ takenReferencesOfBranches branches
      else
        takenReferencesOfBranches branches

end

theorem mem_takenReferencesOfItems_iff {items : List (Expansion P)} {link : Reference} :
    link ∈ takenReferencesOfItems items ↔ ∃ item ∈ items, link ∈ item.takenReferences := by
  induction items with
  | nil => simp [takenReferencesOfItems]
  | cons item items ih => simp [takenReferencesOfItems, ih]

section Branches

variable {branch : Branch P (Expansion P)} {branches : List (Branch P (Expansion P))}

theorem takenReferencesOfBranches_of_pos (hpositive : 0 < branch.probability) :
    takenReferencesOfBranches (branch :: branches) =
      branch.body.takenReferences ++ takenReferencesOfBranches branches := by
  cases branch
  exact if_pos (decide_eq_true hpositive)

theorem takenReferencesOfBranches_of_not_pos (hnever : ¬ 0 < branch.probability) :
    takenReferencesOfBranches (branch :: branches) = takenReferencesOfBranches branches := by
  cases branch
  exact if_neg fun hpositive => hnever (of_decide_eq_true hpositive)

theorem mem_takenReferencesOfBranches_iff {link : Reference} :
    link ∈ takenReferencesOfBranches branches ↔
      ∃ branch ∈ branches, 0 < branch.probability ∧ link ∈ branch.body.takenReferences := by
  induction branches with
  | nil => simp [takenReferencesOfBranches]
  | cons branch branches ih =>
      by_cases hpositive : 0 < branch.probability
      · simp [takenReferencesOfBranches_of_pos hpositive, hpositive, ih]
      · simp [takenReferencesOfBranches_of_not_pos hpositive, hpositive, ih]

end Branches

theorem takenReferences_subset (expansion : Expansion P) :
    expansion.takenReferences ⊆ expansion.references := by
  induction expansion using Expansion.structural with
  | literal text => exact List.nil_subset _
  | reference link => exact List.Subset.refl _
  | sequence items ih =>
      intro link hlink
      rw [takenReferences, mem_takenReferencesOfItems_iff] at hlink
      obtain ⟨item, hitem, hinside⟩ := hlink
      rw [references, referencesOfItems_eq_flatMap]
      exact List.mem_flatMap.mpr ⟨item, hitem, ih item hitem hinside⟩
  | alternation branches ih =>
      intro link hlink
      rw [takenReferences, mem_takenReferencesOfBranches_iff] at hlink
      obtain ⟨branch, hbranch, -, hinside⟩ := hlink
      rw [references, referencesOfBranches_eq_flatMap]
      exact List.mem_flatMap.mpr ⟨branch, hbranch, ih branch hbranch hinside⟩
  | repetition body least most? ih => exact ih
  | optional body ih => exact ih
  | tagged body tags ih => exact ih

end Expansion

/-! ## The order of instantiation -/

namespace Scope

/-- The rules that a rule's references mean, but for those on branches that cannot be taken. -/
def takenSuccessors (scope : Scope P) (target : Target) : List Target :=
  match scope.follow? target with
  | none => []
  | some rule => rule.body.takenReferences.filterMap (·.target?)

omit [BranchWeight P] in
/-- Why the rule that a target means cannot be used, if so. -/
def unusableAt? (scope : Scope P) (target : Target) : Option Unusable :=
  (scope.follow? target).bind Rule.unusable?

/--
References inside open rules instantiate some rules, in this order: each the
rule that it means and behind that rule the ones in its body, unless it means
no rule or one that is open.
-/
inductive Visits (scope : Scope P) : List Target → List Reference → List Target → Prop where
  | nil (opened : List Target) : Visits scope opened [] []
  | skip {opened order : List Target} {link : Reference} {links : List Reference}
      (hskip : ∀ target, link.target? = some target →
        target ∈ opened ∨ scope.follow? target = none)
      (hrest : Visits scope opened links order) : Visits scope opened (link :: links) order
  | enter {opened inner order : List Target} {link : Reference} {links : List Reference}
      {target : Target} {rule : Rule P} (htarget : link.target? = some target)
      (hnew : target ∉ opened) (hrule : scope.follow? target = some rule)
      (hinner : Visits scope (opened ++ [target]) rule.body.takenReferences inner)
      (hrest : Visits scope opened links order) :
      Visits scope opened (link :: links) (target :: inner ++ order)

variable {scope : Scope P} {opened order : List Target} {links : List Reference}

theorem mem_takenSuccessors_iff {target next : Target} {rule : Rule P}
    (hrule : scope.follow? target = some rule) :
    next ∈ scope.takenSuccessors target ↔
      ∃ link ∈ rule.body.takenReferences, link.target? = some next := by
  rw [takenSuccessors, hrule]
  exact List.mem_filterMap

omit [BranchWeight P] in
theorem not_skipped {link : Reference} {target : Target} {rule : Rule P}
    (hskip : ∀ target, link.target? = some target → target ∈ opened ∨ scope.follow? target = none)
    (htarget : link.target? = some target) (hnew : target ∉ opened)
    (hrule : scope.follow? target = some rule) : False := by
  rcases hskip target htarget with hopen | hmissing
  · exact hnew hopen
  · cases hmissing.symm.trans hrule

/-- References instantiate rules in one order only. -/
theorem Visits.unique {other : List Target} (hfirst : scope.Visits opened links order)
    (hsecond : scope.Visits opened links other) : order = other := by
  induction hfirst generalizing other with
  | nil =>
      cases hsecond
      rfl
  | skip hskip _ ih =>
      cases hsecond with
      | skip _ hrest => exact ih hrest
      | enter htarget hnew hrule => exact (not_skipped hskip htarget hnew hrule).elim
  | enter htarget hnew hrule _ _ ihInner ihRest =>
      cases hsecond with
      | skip hskip => exact (not_skipped hskip htarget hnew hrule).elim
      | enter hagain _ hfound hinner hrest =>
          obtain rfl := Option.some.inj (htarget.symm.trans hagain)
          obtain rfl := Option.some.inj (hrule.symm.trans hfound)
          rw [ihInner hinner, ihRest hrest]

omit [BranchWeight P] in
theorem not_mem_map_target_iff {opened : List OpenRule} {target : Target} :
    target ∉ opened.map (·.target) ↔ ∀ other ∈ opened, other.target ≠ target := by
  rw [List.mem_map, not_exists]
  exact forall_congr' fun other => not_and

/-- The order of instantiation as computed with room for some rules inside the open ones. -/
def instantiated (scope : Scope P) : Nat → List Target → List Reference → List Target
  | 0, _, _ => []
  | room + 1, opened, links => links.flatMap fun link =>
      match link.target?, link.target?.bind scope.follow? with
      | some target, some rule =>
          if target ∈ opened then []
          else target :: instantiated scope room (opened ++ [target]) rule.body.takenReferences
      | _, _ => []

/-- With room for all the rules that are not open the order of instantiation is computed. -/
theorem visits_instantiated {room : Nat} {opened : List OpenRule}
    (hspacious : scope.Spacious room opened) (links : List Reference) :
    scope.Visits (opened.map (·.target)) links
      (scope.instantiated room (opened.map (·.target)) links) := by
  induction room generalizing opened links with
  | zero =>
      rw [instantiated]
      induction links with
      | nil => exact .nil _
      | cons link links ihLinks =>
          refine .skip (fun target _ => or_iff_not_imp_right.mpr fun hrule => ?_) ihLinks
          obtain ⟨rule, hrule⟩ := Option.ne_none_iff_exists'.mp hrule
          -- A rule that is not open would leave no room.
          by_contra hnew
          obtain ⟨_, ⟨⟩, -⟩ := hspacious.enter rule.name (mem_targets hrule)
            (not_mem_map_target_iff.mp hnew)
  | succ room ih =>
      rw [instantiated]
      induction links with
      | nil => exact .nil _
      | cons link links ihLinks =>
          rw [List.flatMap_cons]
          cases htarget : link.target? with
          | none => exact .skip (fun target hsome => nomatch htarget.symm.trans hsome) ihLinks
          | some target =>
              rw [Option.bind_some]
              cases hrule : scope.follow? target with
              | none =>
                  refine .skip (fun other hother => .inr ?_) ihLinks
                  rwa [← Option.some.inj (htarget.symm.trans hother)]
              | some rule =>
                  dsimp only
                  split
                  · rename_i hopen
                    refine .skip (fun other hother => .inl ?_) ihLinks
                    rwa [← Option.some.inj (htarget.symm.trans hother)]
                  · rename_i hnew
                    obtain ⟨left, hroom, hinside⟩ := hspacious.enter rule.name
                      (mem_targets hrule) (not_mem_map_target_iff.mp hnew)
                    obtain rfl := Nat.succ.inj hroom
                    have hinner := ih hinside rule.body.takenReferences
                    rw [List.map_append, List.map_singleton] at hinner
                    exact .enter htarget hnew hrule hinner ihLinks

/-! ## The rules that are instantiated -/

/-- Whatever is instantiated is led to by a reference. -/
theorem Visits.exists_leads (hvisits : scope.Visits opened links order) {found : Target}
    (hfound : found ∈ order) : ∃ link ∈ links, ∃ target, link.target? = some target ∧
      Graph.Leads scope.takenSuccessors target found := by
  induction hvisits with
  | nil => cases hfound
  | skip _ _ ih =>
      obtain ⟨link, hlink, hleads⟩ := ih hfound
      exact ⟨link, List.mem_cons_of_mem _ hlink, hleads⟩
  | @enter _ _ _ link _ target _ htarget _ hrule _ _ ihInner ihRest =>
      rcases List.mem_append.mp hfound with hinside | hbehind
      · rcases List.mem_cons.mp hinside with rfl | hinner
        · exact ⟨link, List.mem_cons_self .., _, htarget, .refl⟩
        · obtain ⟨inside, hinside, next, hnext, hleads⟩ := ihInner hinner
          have hstep : next ∈ scope.takenSuccessors target :=
            (mem_takenSuccessors_iff hrule).mpr ⟨inside, hinside, hnext⟩
          exact ⟨link, List.mem_cons_self .., target, htarget, .head hstep hleads⟩
      · obtain ⟨other, hother, hleads⟩ := ihRest hbehind
        exact ⟨other, List.mem_cons_of_mem _ hother, hleads⟩

/-- The rules that references mean are instantiated, and so are the ones in their bodies. -/
theorem Visits.closed (hvisits : scope.Visits opened links order) :
    (∀ link ∈ links, ∀ target, link.target? = some target → scope.follow? target ≠ none →
      target ∈ opened ∨ target ∈ order) ∧
    ∀ found ∈ order, ∀ next ∈ scope.takenSuccessors found, scope.follow? next ≠ none →
      next ∈ opened ∨ next ∈ order := by
  induction hvisits with
  | nil => exact ⟨fun _ hlink => (nomatch hlink), fun _ hfound => (nomatch hfound)⟩
  | skip hskip _ ih =>
      obtain ⟨hlinks, hfound⟩ := ih
      refine ⟨List.forall_mem_cons.mpr ⟨fun target htarget hrule => ?_, hlinks⟩, hfound⟩
      exact .inl ((hskip target htarget).resolve_right hrule)
  | @enter opened inner order link links target rule htarget hnew hrule _ _ ihInner ihRest =>
      -- What is open inside the rule is open outside of it, or the rule itself.
      have hinside : ∀ {next : Target}, next ∈ opened ++ [target] ∨ next ∈ inner →
          next ∈ opened ∨ next ∈ target :: inner ++ order := by
        intro next hnext
        simp only [List.mem_append, List.mem_cons] at hnext ⊢
        tauto
      have hbehind : ∀ {next : Target}, next ∈ opened ∨ next ∈ order →
          next ∈ opened ∨ next ∈ target :: inner ++ order :=
        fun hnext => hnext.imp_right (List.mem_append_right _)
      constructor
      · refine List.forall_mem_cons.mpr ⟨fun other hother _ => ?_, ?_⟩
        · obtain rfl := Option.some.inj (htarget.symm.trans hother)
          exact .inr (List.mem_cons_self ..)
        · intro other hother next hnext hfollow
          exact hbehind (ihRest.1 other hother next hnext hfollow)
      · intro found hfound next hnext hfollow
        rcases List.mem_append.mp hfound with hhead | hrest
        · rcases List.mem_cons.mp hhead with rfl | hinner
          · obtain ⟨inside, hmem, htargetInside⟩ := (mem_takenSuccessors_iff hrule).mp hnext
            exact hinside (ihInner.1 inside hmem next htargetInside hfollow)
          · exact hinside (ihInner.2 found hinner next hnext hfollow)
        · exact hbehind (ihRest.2 found hrest next hnext hfollow)

/-- Rules that are meant on branches that can be taken are meant. -/
theorem takenSuccessors_subset (target : Target) :
    scope.takenSuccessors target ⊆ scope.successors target := by
  intro next hnext
  cases hrule : scope.follow? target with
  | none =>
      rw [takenSuccessors, hrule] at hnext
      cases hnext
  | some rule =>
      obtain ⟨link, hlink, hmeans⟩ := (mem_takenSuccessors_iff hrule).mp hnext
      exact (mem_successors_iff hrule).mpr
        ⟨link, rule.body.takenReferences_subset hlink, hmeans⟩

/-- From a rule of a linked scope exactly the rules that it leads to are instantiated. -/
theorem Visits.mem_iff (hlinked : scope.Linked) {link : Reference} {root : Target}
    (hlink : link.target? = some root) (hroot : root ∈ scope.targets)
    (hvisits : scope.Visits [] [link] order) (found : Target) :
    found ∈ order ↔ Graph.Leads scope.takenSuccessors root found := by
  have hfollow {target : Target} (htarget : target ∈ scope.targets) :
      scope.follow? target ≠ none := by
    obtain ⟨rule, hrule⟩ := hlinked.exists_follow? htarget
    rw [hrule]
    exact Option.some_ne_none rule
  constructor
  · intro hfound
    obtain ⟨other, hother, target, htarget, hleads⟩ := hvisits.exists_leads hfound
    obtain rfl := List.mem_singleton.mp hother
    obtain rfl := Option.some.inj (hlink.symm.trans htarget)
    exact hleads
  · intro hleads
    obtain ⟨hlinks, hclosed⟩ := hvisits.closed
    refine hleads.mem_of_closed (fun target htarget next hnext => ?_) ?_
    · have hnextTarget : next ∈ scope.targets :=
        hlinked.successors_subset target (takenSuccessors_subset target hnext)
      exact (hclosed target htarget next hnext (hfollow hnextTarget)).resolve_left
        List.not_mem_nil
    · exact (hlinks link (List.mem_singleton_self link) root hlink (hfollow hroot)).resolve_left
        List.not_mem_nil

/-! ## The first rule that cannot be used -/

/-- What references in a row instantiate is what the first of them do, and then the others. -/
theorem Visits.append {first second : List Reference}
    (hvisits : scope.Visits opened (first ++ second) order) : ∃ before behind,
      order = before ++ behind ∧ scope.Visits opened first before ∧
        scope.Visits opened second behind := by
  induction first generalizing order with
  | nil => exact ⟨[], order, rfl, .nil opened, hvisits⟩
  | cons link links ih =>
      cases hvisits with
      | skip hskip hrest =>
          obtain ⟨before, behind, rfl, hbefore, hbehind⟩ := ih hrest
          exact ⟨before, behind, rfl, .skip hskip hbefore, hbehind⟩
      | enter htarget hnew hrule hinner hrest =>
          obtain ⟨before, behind, rfl, hbefore, hbehind⟩ := ih hrest
          exact ⟨_, behind, (List.append_assoc ..).symm, .enter htarget hnew hrule hinner hbefore,
            hbehind⟩

/-- A rule that is not open and that a single reference means is instantiated first. -/
theorem Visits.exists_of_new {link : Reference} {target : Target} {rule : Rule P}
    (hvisits : scope.Visits opened [link] order) (htarget : link.target? = some target)
    (hnew : target ∉ opened) (hrule : scope.follow? target = some rule) : ∃ inner,
      order = target :: inner ∧
        scope.Visits (opened ++ [target]) rule.body.takenReferences inner := by
  cases hvisits with
  | skip hskip => exact (not_skipped hskip htarget hnew hrule).elim
  | @enter _ inner _ _ _ _ _ hagain _ hfound hinner hrest =>
      obtain rfl := Option.some.inj (htarget.symm.trans hagain)
      obtain rfl := Option.some.inj (hrule.symm.trans hfound)
      cases hrest
      exact ⟨inner, List.append_nil _, hinner⟩

omit [BranchWeight P] in
theorem unusableAt?_eq {target : Target} {rule : Rule P}
    (hrule : scope.follow? target = some rule) : scope.unusableAt? target = rule.unusable? := by
  rw [unusableAt?, hrule, Option.bind_some]

/--
The first fault that unfolding meets is the first rule that cannot be used, of
those that are instantiated, as long as all references on the way have rules.
-/
theorem Unfolds.fault?_eq (hlinked : scope.Linked)
    (hbodies : scope.Bodies (Expansion.Everywhere Expansion.Endless)) {opened : List OpenRule}
    {floor : Nat} {expansion : Expansion P} {unfolding : Unfolding P}
    (hunfolds : scope.Unfolds opened floor expansion unfolding)
    (hendless : expansion.Everywhere Expansion.Endless)
    (hbound : ∀ link ∈ expansion.takenReferences, ∃ target ∈ scope.targets,
      link.target? = some target)
    (hvisits : scope.Visits (opened.map (·.target)) expansion.takenReferences order) :
    unfolding.report.fault? = order.findSome? scope.unusableAt? := by
  -- The order is taken apart along with the expansion, and carried into the rules that are entered.
  induction hunfolds generalizing order with
  | literal =>
      cases hvisits
      rfl
  | @unbound _ _ link hnone =>
      obtain ⟨target, -, htarget⟩ := hbound link (List.mem_singleton_self link)
      cases hnone.symm.trans htarget
  | back htarget hdepth =>
      cases hvisits with
      | skip _ hrest =>
          cases hrest
          exact Unfolding.faultless_recursion
      | enter hagain hnew =>
          obtain rfl := Option.some.inj (htarget.symm.trans hagain)
          cases hdepth.symm.trans
            (findIdx?_eq_none_of_forall_target_ne (not_mem_map_target_iff.mp hnew))
  | @missing _ _ link _ htarget _ hnone =>
      obtain ⟨target, hmem, hagain⟩ := hbound link (List.mem_singleton_self link)
      obtain rfl := Option.some.inj (htarget.symm.trans hagain)
      obtain ⟨rule, hrule⟩ := hlinked.exists_follow? hmem
      cases hnone.symm.trans hrule
  | unusable htarget hnew hrule hunusable =>
      obtain ⟨inner, rfl, -⟩ := hvisits.exists_of_new htarget
        (not_mem_map_target_iff.mpr hnew) hrule
      rw [List.findSome?_cons, unusableAt?_eq hrule, hunusable]
      rfl
  | enter htarget hnew hrule husable _ ih =>
      obtain ⟨inner, rfl, hinner⟩ := hvisits.exists_of_new htarget
        (not_mem_map_target_iff.mpr hnew) hrule
      rw [List.findSome?_cons, unusableAt?_eq hrule, husable]
      refine ih (hbodies.of_follow? hrule) (fun link hlink => ?_) (by simpa using hinner)
      exact hlinked.exists_target hrule husable (Expansion.takenReferences_subset _ hlink)
  | noItem =>
      cases hvisits
      rfl
  | item _ _ ihItem ihItems =>
      cases hendless with
      | sequence _ hitems =>
          obtain ⟨hitem, hothers⟩ := List.forall_mem_cons.mp hitems
          obtain ⟨hboundItem, hboundOthers⟩ := List.forall_mem_append.mp hbound
          obtain ⟨before, behind, rfl, hbefore, hbehind⟩ := hvisits.append
          rw [Unfolding.report, Unfolding.reportOfItems, Report.fault?_andThen,
            ihItem hitem hboundItem hbefore, List.findSome?_append]
          exact congrArg _ (ihItems (.sequence trivial hothers) hboundOthers hbehind)
  | noBranch =>
      cases hvisits
      rfl
  | neverTaken hnever _ ih =>
      cases hendless with
      | alternation _ hbranches =>
          rw [Expansion.takenReferences,
            Expansion.takenReferencesOfBranches_of_not_pos hnever] at hbound hvisits
          exact ih (.alternation trivial (List.forall_mem_cons.mp hbranches).2) hbound hvisits
  | taken hpositive _ _ ihBody ihRest =>
      cases hendless with
      | alternation _ hbranches =>
          obtain ⟨hbranch, hothers⟩ := List.forall_mem_cons.mp hbranches
          rw [Expansion.takenReferences,
            Expansion.takenReferencesOfBranches_of_pos hpositive] at hbound hvisits
          obtain ⟨hboundBody, hboundRest⟩ := List.forall_mem_append.mp hbound
          obtain ⟨before, behind, rfl, hbefore, hbehind⟩ := hvisits.append
          rw [Unfolding.report, Unfolding.reportOfBranches, Report.fault?_andThen,
            ihBody hbranch hboundBody hbefore, List.findSome?_append]
          exact congrArg _ (ihRest (.alternation trivial hothers) hboundRest hbehind)
  | copies =>
      cases hendless with
      | repetition hnone => cases hnone
  | loop _ ih =>
      cases hendless with
      | repetition _ hbody =>
          rw [Unfolding.report, Report.fault?_times (Nat.le_max_right _ 1)]
          exact ih hbody hbound hvisits
  | optional _ ih =>
      cases hendless with
      | optional _ hbody =>
          rw [Unfolding.report, Unfolding.reportOfItems, Unfolding.reportOfItems,
            Report.fault?_andThen, ih hbody hbound hvisits]
          exact Option.or_none
  | tagged _ ih =>
      cases hendless with
      | tagged _ hbody => exact ih hbody hbound hvisits

end Scope

end SpeechGrammar
