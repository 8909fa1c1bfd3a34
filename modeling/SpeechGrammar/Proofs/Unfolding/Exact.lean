import Mathlib.Data.List.Basic
import SpeechGrammar.Unfolding.Basic

/-!
# Exact unfoldings

An unfolding is exact if nothing is reported of it: no fault is met, and no
open rule is returned to before its end is near.  An unfolding is faultless, or
exact, if all its parts are.  An exact reference is a return to a rule whose end is near, or
the rule that it is bound to, unfolded in turn.
-/

namespace SpeechGrammar

variable {P : Type}

namespace Report

theorem andThen_eq_empty_iff {first second : Report} :
    first.andThen second = {} ↔ first = {} ∧ second = {} := by
  obtain ⟨inexact, fault?⟩ := first
  obtain ⟨others, otherFault?⟩ := second
  cases fault? <;> simp [andThen, and_assoc]

theorem times_empty (count : Nat) : times count {} = {} := by
  induction count with
  | zero => rfl
  | succ count ih => rw [times, ih]; rfl

theorem times_eq_empty_iff {count : Nat} (hcount : 0 < count) {report : Report} :
    report.times count = {} ↔ report = {} := by
  refine ⟨fun htimes => ?_, fun hreport => hreport ▸ times_empty count⟩
  obtain ⟨count, rfl⟩ : ∃ fewer, count = fewer + 1 := ⟨count - 1, by omega⟩
  obtain ⟨inexact, fault?⟩ := report
  cases fault? <;> simp_all [times]

theorem fault?_andThen_eq_none_iff {first second : Report} :
    (first.andThen second).fault? = none ↔ first.fault? = none ∧ second.fault? = none := by
  obtain ⟨inexact, fault?⟩ := first
  cases fault? <;> simp [andThen]

theorem fault?_times_eq_none_iff {count : Nat} (hcount : 0 < count) {report : Report} :
    (report.times count).fault? = none ↔ report.fault? = none := by
  obtain ⟨count, rfl⟩ : ∃ fewer, count = fewer + 1 := ⟨count - 1, by omega⟩
  obtain ⟨inexact, fault?⟩ := report
  cases fault? <;> simp [times]

end Report

namespace Unfolding

def Faultless (unfolding : Unfolding P) : Prop := unfolding.report.fault? = none

theorem fault?_reportOfItems_eq_none_iff {items : List (Unfolding P)} :
    (reportOfItems items).fault? = none ↔ ∀ item ∈ items, item.Faultless := by
  induction items with
  | nil => exact iff_of_true rfl fun item hitem => nomatch hitem
  | cons item items ih =>
      change (item.report.andThen (reportOfItems items)).fault? = none ↔ _
      rw [Report.fault?_andThen_eq_none_iff, ih, List.forall_mem_cons]
      rfl

theorem fault?_reportOfBranches_eq_none_iff {branches : List (P × Unfolding P)} :
    (reportOfBranches branches).fault? = none ↔ ∀ branch ∈ branches, branch.2.Faultless := by
  induction branches with
  | nil => exact iff_of_true rfl fun branch hbranch => nomatch hbranch
  | cons branch branches ih =>
      change (branch.2.report.andThen (reportOfBranches branches)).fault? = none ↔ _
      rw [Report.fault?_andThen_eq_none_iff, ih, List.forall_mem_cons]
      rfl

theorem faultless_sequence_iff {items : List (Unfolding P)} :
    (sequence items).Faultless ↔ ∀ item ∈ items, item.Faultless :=
  fault?_reportOfItems_eq_none_iff

theorem faultless_choice_iff {branches : List (P × Unfolding P)} :
    (choice branches).Faultless ↔ ∀ branch ∈ branches, branch.2.Faultless :=
  fault?_reportOfBranches_eq_none_iff

theorem faultless_copies_iff {least : Nat} {items : List (Unfolding P)} :
    (copies least items).Faultless ↔ ∀ item ∈ items, item.Faultless :=
  fault?_reportOfItems_eq_none_iff

theorem faultless_loop_iff {least : Nat} {body : Unfolding P} :
    (loop least body).Faultless ↔ body.Faultless :=
  Report.fault?_times_eq_none_iff (Nat.le_max_right least 1)

theorem faultless_tagged_iff {body : Unfolding P} {tags : List Tag} :
    (tagged body tags).Faultless ↔ body.Faultless := Iff.rfl

theorem faultless_rule_iff {target : Target} {body : Unfolding P} :
    (rule target body).Faultless ↔ body.Faultless := Iff.rfl

theorem faultless_recursion {depth : Nat} {name : String} {exact : Bool} :
    (recursion depth name exact : Unfolding P).Faultless := by
  cases exact <;> rfl

theorem not_faultless_fault (reason : Unusable) : ¬ (fault reason : Unfolding P).Faultless :=
  fun hfaultless => nomatch hfaultless

/-- Copies in a row without a fault are all there: any number of early ones, and a last one. -/
theorem copiesOf_succ_of_faultless {count : Nat} {early last : Unit → Unfolding P}
    (hfaultless : ∀ copy ∈ copiesOf (count + 1) early last, copy.Faultless) :
    copiesOf (count + 1) early last = List.replicate count (early ()) ++ [last ()] := by
  cases count with
  | zero => rfl
  | succ count =>
      rw [copiesOf] at hfaultless ⊢
      split
      · rename_i hfault
        rw [if_pos hfault] at hfaultless
        have hearly : (early ()).report.fault? = none := hfaultless _ (List.mem_singleton_self _)
        rw [hearly] at hfault
        cases hfault
      · rfl

/-! ## Exact unfoldings -/

def Exact (unfolding : Unfolding P) : Prop := unfolding.report = {}

theorem exact_iff {unfolding : Unfolding P} :
    unfolding.Exact ↔ unfolding.report.inexact = [] ∧ unfolding.report.fault? = none := by
  rw [Exact]
  cases unfolding.report
  simp

theorem Exact.faultless {unfolding : Unfolding P} (hexact : unfolding.Exact) :
    unfolding.Faultless := (exact_iff.mp hexact).2

theorem reportOfItems_eq_empty_iff {items : List (Unfolding P)} :
    reportOfItems items = {} ↔ ∀ item ∈ items, item.Exact := by
  induction items with
  | nil => exact iff_of_true rfl fun item hitem => nomatch hitem
  | cons item items ih =>
      change item.report.andThen (reportOfItems items) = {} ↔ _
      rw [Report.andThen_eq_empty_iff, ih, List.forall_mem_cons]
      rfl

theorem reportOfBranches_eq_empty_iff {branches : List (P × Unfolding P)} :
    reportOfBranches branches = {} ↔ ∀ branch ∈ branches, branch.2.Exact := by
  induction branches with
  | nil => exact iff_of_true rfl fun branch hbranch => nomatch hbranch
  | cons branch branches ih =>
      change branch.2.report.andThen (reportOfBranches branches) = {} ↔ _
      rw [Report.andThen_eq_empty_iff, ih, List.forall_mem_cons]
      rfl

theorem exact_sequence_iff {items : List (Unfolding P)} :
    (sequence items).Exact ↔ ∀ item ∈ items, item.Exact :=
  reportOfItems_eq_empty_iff

theorem exact_choice_iff {branches : List (P × Unfolding P)} :
    (choice branches).Exact ↔ ∀ branch ∈ branches, branch.2.Exact :=
  reportOfBranches_eq_empty_iff

theorem exact_copies_iff {least : Nat} {items : List (Unfolding P)} :
    (copies least items).Exact ↔ ∀ item ∈ items, item.Exact :=
  reportOfItems_eq_empty_iff

theorem exact_loop_iff {least : Nat} {body : Unfolding P} :
    (loop least body).Exact ↔ body.Exact :=
  Report.times_eq_empty_iff (Nat.le_max_right least 1)

theorem exact_tagged_iff {body : Unfolding P} {tags : List Tag} :
    (tagged body tags).Exact ↔ body.Exact := Iff.rfl

theorem exact_rule_iff {target : Target} {body : Unfolding P} :
    (rule target body).Exact ↔ body.Exact := Iff.rfl

theorem exact_recursion_iff {depth : Nat} {name : String} {exact : Bool} :
    (recursion depth name exact : Unfolding P).Exact ↔ exact = true := by
  cases exact with
  | true => exact iff_of_true rfl rfl
  | false => exact iff_of_false (fun hexact => nomatch hexact) (fun heq => nomatch heq)

theorem not_exact_fault (reason : Unusable) : ¬ (fault reason : Unfolding P).Exact :=
  fun hexact => nomatch hexact

theorem copiesOf_succ_of_exact {count : Nat} {early last : Unit → Unfolding P}
    (hexact : ∀ copy ∈ copiesOf (count + 1) early last, copy.Exact) :
    copiesOf (count + 1) early last = List.replicate count (early ()) ++ [last ()] :=
  copiesOf_succ_of_faultless fun copy hcopy => (hexact copy hcopy).faultless

end Unfolding

namespace Scope

variable [BranchWeight P]

/-- The first open rule with a property is the one at the first place with that property. -/
theorem getElem?_of_findIdx? {opened : List OpenRule} {test : OpenRule → Bool} {depth : Nat}
    {rule : OpenRule} (hdepth : opened.findIdx? test = some depth)
    (hrule : opened.find? test = some rule) :
    opened[depth]? = some rule ∧ test rule = true ∧
      ∀ place other, opened[place]? = some other → test other = true → depth ≤ place := by
  obtain ⟨hlt, htest, hbefore⟩ := List.findIdx?_eq_some_iff_getElem.mp hdepth
  obtain ⟨hpass, index, hindex, heq, hfirst⟩ := List.find?_eq_some_iff_getElem.mp hrule
  have hleast : ∀ place other, opened[place]? = some other → test other = true →
      depth ≤ place := by
    intro place other hother hpasses
    by_contra hless
    obtain ⟨hplace, rfl⟩ := List.getElem?_eq_some_iff.mp hother
    exact hbefore place (Nat.lt_of_not_le hless) hpasses
  have hsame : index = depth := by
    have hle := hleast index rule (List.getElem?_eq_some_iff.mpr ⟨hindex, heq⟩) hpass
    rcases Nat.lt_or_ge depth index with hmore | hge
    · have hfalse := hfirst depth hmore
      simp [htest] at hfalse
    · exact Nat.le_antisymm hge hle
  subst hsame
  exact ⟨by rw [List.getElem?_eq_getElem hlt, heq], hpass, hleast⟩

theorem forall_target_ne_of_not_found {opened : List OpenRule} {target : Target}
    (hclosed : ∀ depth rule, opened.findIdx? (·.target == target) = some depth →
      opened.find? (·.target == target) = some rule → False) :
    ∀ other ∈ opened, other.target ≠ target := by
  intro other hother heq
  have hindex : (opened.findIdx? (·.target == target)).isSome = true :=
    List.findIdx?_isSome.trans (List.any_eq_true.mpr ⟨other, hother, beq_iff_eq.mpr heq⟩)
  have hfind : (opened.find? (·.target == target)).isSome = true :=
    List.find?_isSome.mpr ⟨other, hother, beq_iff_eq.mpr heq⟩
  obtain ⟨depth, hdepth⟩ := Option.isSome_iff_exists.mp hindex
  obtain ⟨rule, hrule⟩ := Option.isSome_iff_exists.mp hfind
  exact hclosed depth rule hdepth hrule

/--
A reference returns to the first open rule that it means, or opens the rule,
which is not open.  It leaves a fault only where it means no rule, or one that
is not open and that cannot be used or has no room.
-/
theorem unfoldReference_cases (scope : Scope P) (room : Nat) (opened : List OpenRule)
    (floor : Nat) (link : Reference) :
    (∃ reason, scope.unfoldReference room opened floor link = .fault reason ∧
        ∀ target, link.target? = some target → (∀ other ∈ opened, other.target ≠ target) ∧
          ∀ rule, scope.follow? target = some rule → room = 0 ∨ rule.unusable? ≠ none) ∨
      ∃ target, link.target? = some target ∧
        ((∃ depth rule, opened[depth]? = some rule ∧ rule.target = target ∧
            (∀ place other, opened[place]? = some other → other.target = target →
              depth ≤ place) ∧
            scope.unfoldReference room opened floor link =
              .recursion depth rule.name (decide (floor ≤ depth))) ∨
          ∃ left rule, room = left + 1 ∧ scope.follow? target = some rule ∧
            (∀ other ∈ opened, other.target ≠ target) ∧
            scope.unfoldReference room opened floor link =
              .rule target (rule.body.unfold (scope.unfoldReference left)
                (opened ++ [⟨target, rule.name⟩]) floor)) := by
  unfold unfoldReference
  cases link.target? with
  | none => exact .inl ⟨_, rfl, fun target htarget => nomatch htarget⟩
  | some target =>
      dsimp only
      split
      · rename_i depth rule hdepth hrule
        obtain ⟨hget, htest, hleast⟩ := getElem?_of_findIdx? hdepth hrule
        refine .inr ⟨target, rfl, .inl ⟨depth, rule, hget, beq_iff_eq.mp htest, ?_, rfl⟩⟩
        exact fun place other hother heq => hleast place other hother (beq_iff_eq.mpr heq)
      · rename_i hclosed
        have hnew := forall_target_ne_of_not_found hclosed
        split
        · rename_i hnone
          refine .inl ⟨_, rfl, fun other hother => ?_⟩
          obtain rfl := Option.some.inj hother
          refine ⟨hnew, fun rule hrule => ?_⟩
          rw [hnone] at hrule
          cases hrule
        · refine .inl ⟨_, rfl, fun other hother => ?_⟩
          obtain rfl := Option.some.inj hother
          exact ⟨hnew, fun rule hrule => .inl rfl⟩
        · rename_i rule left hrule
          split
          · rename_i reason hreason
            refine .inl ⟨reason, rfl, fun other hother => ?_⟩
            obtain rfl := Option.some.inj hother
            refine ⟨hnew, fun found hfound => .inr ?_⟩
            obtain rfl := Option.some.inj (hrule.symm.trans hfound)
            rw [hreason]
            exact Option.some_ne_none reason
          · exact .inr ⟨target, rfl, .inr ⟨left, rule, rfl, hrule, hnew, rfl⟩⟩

/-- An exact reference returns to an open rule that is at its end, or opens the rule it means. -/
theorem exact_unfoldReference_cases {scope : Scope P} {room : Nat} {opened : List OpenRule}
    {floor : Nat} {link : Reference}
    (hexact : (scope.unfoldReference room opened floor link).Exact) :
    ∃ target, link.target? = some target ∧
      ((∃ depth rule, floor ≤ depth ∧ opened[depth]? = some rule ∧ rule.target = target ∧
          (∀ place other, opened[place]? = some other → other.target = target → depth ≤ place) ∧
          scope.unfoldReference room opened floor link = .recursion depth rule.name true) ∨
        ∃ left rule, room = left + 1 ∧ scope.follow? target = some rule ∧
          (∀ other ∈ opened, other.target ≠ target) ∧
          scope.unfoldReference room opened floor link =
            .rule target (rule.body.unfold (scope.unfoldReference left)
              (opened ++ [⟨target, rule.name⟩]) floor) ∧
          (rule.body.unfold (scope.unfoldReference left)
            (opened ++ [⟨target, rule.name⟩]) floor).Exact) := by
  rcases unfoldReference_cases scope room opened floor link with ⟨reason, heq, -⟩ |
    ⟨target, htarget, ⟨depth, rule, hrule, hsame, hleast, heq⟩ |
      ⟨left, rule, hroom, hrule, hnew, heq⟩⟩
  · rw [heq] at hexact
    exact (Unfolding.not_exact_fault reason hexact).elim
  · rw [heq] at hexact
    have hfloor := Unfolding.exact_recursion_iff.mp hexact
    exact ⟨target, htarget, .inl ⟨depth, rule, of_decide_eq_true hfloor, hrule, hsame, hleast,
      by rw [heq, hfloor]⟩⟩
  · rw [heq] at hexact
    exact ⟨target, htarget, .inr ⟨left, rule, hroom, hrule, hnew, heq,
      Unfolding.exact_rule_iff.mp hexact⟩⟩

def publicUnfolding (scope : Scope P) (target : Target) (top : Rule P) : Unfolding P :=
  scope.unfoldReference scope.ruleCount [] 0 ⟨top.name, some target⟩

theorem unfoldPublic_eq_map {scope : Scope P} (name : String) {languageWeight : P}
    (hfinite : BranchWeight.isFinite languageWeight = true) (hpositive : 0 < languageWeight) :
    scope.unfoldPublic name languageWeight = (scope.grammar.public name).map fun found =>
      scope.publicUnfolding found.1 found.2 := by
  have hlanguage : (BranchWeight.isFinite languageWeight &&
      BranchWeight.isPositive languageWeight) = true :=
    Bool.and_eq_true_iff.mpr ⟨hfinite, decide_eq_true hpositive⟩
  rw [unfoldPublic, if_pos hlanguage]
  rfl

theorem exists_of_unfoldPublic_eq_ok {scope : Scope P} {rule : String} {languageWeight : P}
    {unfolding : Unfolding P}
    (hunfold : scope.unfoldPublic rule languageWeight = .ok unfolding) :
    ∃ target top, scope.grammar.public rule = .ok (target, top) ∧
      unfolding = scope.publicUnfolding target top := by
  rw [unfoldPublic] at hunfold
  split at hunfold
  · cases hpublic : scope.grammar.public rule with
    | error refusal =>
        rw [hpublic] at hunfold
        cases hunfold
    | ok found =>
        rw [hpublic] at hunfold
        exact ⟨found.1, found.2, rfl, (Except.ok.inj hunfold).symm⟩
  · cases hunfold

end Scope

end SpeechGrammar
