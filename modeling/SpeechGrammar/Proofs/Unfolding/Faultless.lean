import Mathlib.Data.List.Nodup
import SpeechGrammar.Deduction.Search
import SpeechGrammar.Proofs.Derivation.Reach
import SpeechGrammar.Proofs.Grammar.Bounds
import SpeechGrammar.Proofs.Grammar.Linking
import SpeechGrammar.Proofs.Reachability
import SpeechGrammar.Proofs.Unfolding.Exact
import SpeechGrammar.Proofs.Unfolding.Parts

/-!
# Unfolding without faults

Whatever a rule leads to is searched through before the rule is matched against
an utterance.  If all of that can be used, no fault is met when the rule is
unfolded either: every reference is bound, can be followed, and leads to a rule
that can be used, and there is room for all rules to be open at a time.
-/

namespace SpeechGrammar

variable {P : Type} [BranchWeight P]

namespace Expansion

/-- Unfolding an expansion meets a reference: branches that cannot be taken are not unfolded. -/
inductive Meets (link : Reference) : Expansion P → Prop where
  | here : Meets link (.reference link)
  | sequence {items : List (Expansion P)} {item : Expansion P} (hmem : item ∈ items)
      (hitem : Meets link item) : Meets link (.sequence items)
  | alternation {branches : List (Branch P (Expansion P))} {branch : Branch P (Expansion P)}
      (hmem : branch ∈ branches) (hpositive : 0 < branch.probability)
      (hbody : Meets link branch.body) : Meets link (.alternation branches)
  | repetition {body : Expansion P} {least : Nat} {most? : Option Nat}
      (hcopies : most? = some 0 → 0 < least) (hbody : Meets link body) :
      Meets link (.repetition body least most?)
  | optional {body : Expansion P} (hbody : Meets link body) : Meets link (.optional body)
  | tagged {body : Expansion P} (tags : List Tag) (hbody : Meets link body) :
      Meets link (.tagged body tags)

variable {link : Reference} {expansion : Expansion P}

theorem Meets.mem_references (hmeets : expansion.Meets link) : link ∈ expansion.references := by
  induction hmeets with
  | here => exact List.mem_singleton_self link
  | sequence hmem _ ih =>
      rw [references, referencesOfItems_eq_flatMap]
      exact List.mem_flatMap.mpr ⟨_, hmem, ih⟩
  | alternation hmem _ _ ih =>
      rw [references, referencesOfBranches_eq_flatMap]
      exact List.mem_flatMap.mpr ⟨_, hmem, ih⟩
  | repetition _ _ ih => exact ih
  | optional _ ih => exact ih
  | tagged _ _ ih => exact ih

/-- Where repetitions have proper bounds, what is met can be come to. -/
theorem Meets.reaches (hmeets : expansion.Meets link) (hbounded : expansion.ProperlyBounded) :
    Reaches (.reference link) expansion := by
  induction hmeets with
  | here => exact .here
  | sequence hmem _ ih => exact .sequence hmem (ih (properlyBoundedItems_iff.mp hbounded _ hmem))
  | alternation hmem hpositive _ ih =>
      exact .alternation hmem hpositive (ih (properlyBoundedBranches_iff.mp hbounded _ hmem))
  | @repetition body least most? hcopies _ ih =>
      refine .repetition least (fun hnone => ?_) (ih hbounded.2)
      exact absurd (hcopies hnone) (Nat.not_lt_of_le (hbounded.1 0 hnone))
  | optional _ ih => exact .optional (ih hbounded)
  | tagged tags _ ih => exact .tagged tags (ih hbounded)

/-- What can be come to is met. -/
theorem meets_of_reaches (hreaches : Reaches (.reference link) expansion) :
    expansion.Meets link := by
  induction hreaches with
  | here => exact .here
  | sequence hmem _ ih => exact .sequence hmem ih
  | alternation hmem hpositive _ ih => exact .alternation hmem hpositive ih
  | repetition _ hmost _ ih => exact .repetition (fun hnone => absurd hnone hmost) ih
  | optional _ ih => exact .optional ih
  | tagged tags _ ih => exact .tagged tags ih

/-- What passes up holds of an unfolding if it holds of the references that are met. -/
theorem holds_unfold {holds : Unfolding P → Prop} (hpasses : Unfolding.PassesUp holds)
    {follow : List OpenRule → Nat → Reference → Unfolding P} {opened : List OpenRule}
    (floor : Nat) (expansion : Expansion P)
    (hfollow : ∀ link, expansion.Meets link → ∀ floor, holds (follow opened floor link)) :
    holds (expansion.unfold follow opened floor) := by
  induction expansion using Expansion.structural generalizing floor with
  | literal text => exact hpasses.word text
  | reference link => exact hfollow link .here floor
  | sequence items ih =>
      rw [unfold]
      refine hpasses.sequence fun part hpart => ?_
      obtain ⟨item, hitem, lower, -, rfl⟩ := exists_of_mem_unfoldItems hpart
      exact ih item hitem lower fun link hlink => hfollow link (.sequence hitem hlink)
  | alternation branches ih =>
      rw [unfold]
      refine hpasses.choice fun part hpart => ?_
      obtain ⟨branch, hbranch, hpositive, rfl⟩ := mem_unfoldBranches_iff.mp hpart
      exact ih branch hbranch floor fun link hlink =>
        hfollow link (.alternation hbranch hpositive hlink)
  | repetition body least most? ih =>
      cases most? with
      | none =>
          rw [unfold]
          refine hpasses.loop (ih _ fun link hlink => hfollow link (.repetition ?_ hlink))
          rintro ⟨⟩
      | some most =>
          rw [unfold]
          refine hpasses.copies fun copy hcopy => ?_
          have hmeets : ∀ link, body.Meets link →
              (Expansion.repetition body least (some most)).Meets link := by
            refine fun link => .repetition fun hnone => ?_
            obtain rfl := Option.some.inj hnone
            rw [Nat.zero_max] at hcopy
            exact Nat.pos_of_ne_zero fun hzero => by simp [hzero, Unfolding.copiesOf] at hcopy
          rcases Unfolding.eq_or_eq_of_mem_copiesOf hcopy with rfl | rfl
          · exact ih _ fun link hlink => hfollow link (hmeets link hlink)
          · exact ih _ fun link hlink => hfollow link (hmeets link hlink)
  | optional body ih =>
      rw [unfold]
      refine hpasses.copies fun copy hcopy => ?_
      obtain rfl := List.mem_singleton.mp hcopy
      exact ih _ fun link hlink => hfollow link (.optional hlink)
  | tagged body tags ih =>
      rw [unfold]
      exact hpasses.tagged (ih _ fun link hlink => hfollow link (.tagged tags hlink))

end Expansion

omit [BranchWeight P] in
theorem Unfolding.passesUp_faultless : PassesUp (Faultless (P := P)) where
  word _ := rfl
  sequence hitems := faultless_sequence_iff.mpr hitems
  choice hbranches := faultless_choice_iff.mpr hbranches
  copies hitems := faultless_copies_iff.mpr hitems
  loop hbody := faultless_loop_iff.mpr hbody
  tagged hbody := faultless_tagged_iff.mpr hbody

omit [BranchWeight P] in
theorem Unfolding.passesUp_exact :
    PassesUp fun unfolding : Unfolding P => unfolding.Faultless → unfolding.Exact where
  word _ _ := rfl
  sequence hitems hfaultless := exact_sequence_iff.mpr fun item hitem =>
    hitems item hitem (faultless_sequence_iff.mp hfaultless item hitem)
  choice hbranches hfaultless := exact_choice_iff.mpr fun branch hbranch =>
    hbranches branch hbranch (faultless_choice_iff.mp hfaultless branch hbranch)
  copies hitems hfaultless := exact_copies_iff.mpr fun item hitem =>
    hitems item hitem (faultless_copies_iff.mp hfaultless item hitem)
  loop hbody hfaultless := exact_loop_iff.mpr (hbody (faultless_loop_iff.mp hfaultless))
  tagged hbody hfaultless := exact_tagged_iff.mpr (hbody (faultless_tagged_iff.mp hfaultless))

omit [BranchWeight P] in
theorem Rule.unresolved_eq_nil {rule : Rule P} (husable : rule.unusable? = none) :
    rule.unresolved = [] := by
  rw [unusable?] at husable
  split at husable
  · cases husable
  · cases husable
  · assumption

namespace Scope

variable {scope : Scope P} {root : Target}

omit [BranchWeight P] in
theorem mem_successors_iff {target next : Target} {rule : Rule P}
    (hrule : scope.follow? target = some rule) :
    next ∈ scope.successors target ↔ ∃ link ∈ rule.body.references, link.target? = some next := by
  rw [successors, hrule]
  simp

theorem Calls.mem_successors {first second : Target} (hcalls : scope.Calls first second) :
    second ∈ scope.successors first := by
  obtain ⟨rule, link, hrule, hreaches, hlink⟩ := hcalls
  exact (mem_successors_iff hrule).mpr
    ⟨link, (Expansion.meets_of_reaches hreaches).mem_references, hlink⟩

theorem Leads.leads_successors {target other : Target} (hleads : scope.Leads target other) :
    Graph.Leads scope.successors target other :=
  Relation.ReflTransGen.mono (fun _ _ => Calls.mem_successors) _ _ hleads

omit [BranchWeight P] in
/-- In a linked scope rules lead to rules only. -/
theorem Linked.successors_subset (hlinked : scope.Linked) (target : Target) :
    scope.successors target ⊆ scope.targets := by
  intro next hnext
  cases hrule : scope.follow? target with
  | none =>
      rw [successors, hrule] at hnext
      cases hnext
  | some rule =>
      obtain ⟨link, hlink, heq⟩ := (mem_successors_iff hrule).mp hnext
      exact mem_targets_iff.mpr ((hlinked.rule hrule link hlink).2 next heq)

omit [BranchWeight P] in
/-- In a linked scope references in a rule that can be used mean rules of the scope. -/
theorem Linked.exists_target (hlinked : scope.Linked) {target : Target} {rule : Rule P}
    (hrule : scope.follow? target = some rule) (husable : rule.unusable? = none)
    {link : Reference} (hlink : link ∈ rule.body.references) :
    ∃ next ∈ scope.targets, link.target? = some next := by
  obtain ⟨hbound, hin⟩ := hlinked.rule hrule link hlink
  obtain ⟨next, hnext⟩ :=
    Option.ne_none_iff_exists'.mp (hbound (Rule.unresolved_eq_nil husable))
  exact ⟨next, mem_targets_iff.mpr (hin next hnext), hnext⟩

/-- Whatever a rule leads to can be used. -/
def Serves (scope : Scope P) (root : Target) : Prop :=
  ∀ target rule, Graph.Leads scope.successors root target → scope.follow? target = some rule →
    rule.unusable? = none

omit [BranchWeight P] in
/-- The search below a rule goes through all that the rule leads to, and nothing else. -/
theorem Linked.unusableBelow?_eq_none_iff (hlinked : scope.Linked) (hroot : root ∈ scope.targets) :
    scope.unusableBelow? root = none ↔ scope.Serves root := by
  have hnodes : ∀ node ∈ scope.targets, scope.successors node ⊆ scope.targets :=
    fun node _ => hlinked.successors_subset node
  have hroots : [root] ⊆ scope.targets := List.cons_subset.mpr ⟨hroot, List.nil_subset _⟩
  have hallowance : scope.targets.length ≤ scope.ruleCount + 2 := by
    rw [length_targets]
    exact Nat.le_add_right ..
  have hreached (target : Target) :
      target ∈ Graph.reachable scope.successors (scope.ruleCount + 2) [root] ↔
        Graph.Leads scope.successors root target := by
    simpa using Graph.mem_reachable_iff hnodes hroots hallowance target
  rw [unusableBelow?, List.findSome?_eq_none_iff]
  constructor
  · intro hnone target rule hleads hrule
    have husable := hnone target ((hreached target).mpr hleads)
    rwa [hrule] at husable
  · intro hserves target htarget
    cases hrule : scope.follow? target with
    | none => rfl
    | some rule => exact hserves target rule ((hreached target).mp htarget) hrule

/-- Rules that can all be used, and that unfolding one of them does not leave. -/
structure Sustains (scope : Scope P) (served : Target → Prop) : Prop where
  usable {target : Target} {rule : Rule P} (hserved : served target)
    (hrule : scope.follow? target = some rule) : rule.unusable? = none
  closed {target next : Target} {rule : Rule P} {link : Reference} (hserved : served target)
    (hrule : scope.follow? target = some rule) (hmeets : rule.body.Meets link)
    (hnext : link.target? = some next) : served next

theorem Serves.sustains (hserves : scope.Serves root) :
    scope.Sustains (Graph.Leads scope.successors root) where
  usable hleads hrule := hserves _ _ hleads hrule
  closed hleads hrule hmeets hnext :=
    hleads.tail ((mem_successors_iff hrule).mpr ⟨_, hmeets.mem_references, hnext⟩)

/-- Open rules, none of them twice, with enough room for the others. -/
structure Spacious (scope : Scope P) (room : Nat) (opened : List OpenRule) : Prop where
  nodup : (opened.map (·.target)).Nodup
  known : ∀ rule ∈ opened, rule.target ∈ scope.targets
  enough : scope.ruleCount ≤ room + opened.length

omit [BranchWeight P] in
theorem Spacious.enter {room : Nat} {opened : List OpenRule}
    (hspacious : scope.Spacious room opened) {target : Target} (name : String)
    (htarget : target ∈ scope.targets) (hnew : ∀ rule ∈ opened, rule.target ≠ target) :
    ∃ left, room = left + 1 ∧ scope.Spacious left (opened ++ [⟨target, name⟩]) := by
  have hnodup : ((opened ++ [OpenRule.mk target name]).map (·.target)).Nodup := by
    rw [List.map_append, List.map_singleton, List.nodup_append]
    refine ⟨hspacious.nodup, List.nodup_singleton _, fun other hother last hlast heq => ?_⟩
    obtain ⟨rule, hrule, rfl⟩ := List.mem_map.mp hother
    exact hnew rule hrule (heq.trans (List.mem_singleton.mp hlast))
  have hknown : ∀ rule ∈ opened ++ [⟨target, name⟩], rule.target ∈ scope.targets :=
    List.forall_mem_append.mpr ⟨hspacious.known, by simpa using htarget⟩
  have hlength := hnodup.length_le_of_subset (List.forall_mem_map.mpr hknown)
  rw [List.length_map, List.length_append, List.length_singleton, length_targets] at hlength
  have henough := hspacious.enough
  refine ⟨room - 1, by omega, hnodup, hknown, ?_⟩
  rw [List.length_append, List.length_singleton]
  omega

omit [BranchWeight P] in
theorem spacious_nil (scope : Scope P) : scope.Spacious scope.ruleCount [] :=
  ⟨List.nodup_nil, fun _ hrule => (nomatch hrule), le_refl _⟩

/-- Where unfolding stays among rules that can be used, it meets no fault. -/
theorem faultless_unfoldReference (hlinked : scope.Linked) {served : Target → Prop}
    (hsustains : scope.Sustains served) (room : Nat) (opened : List OpenRule)
    (hspacious : scope.Spacious room opened) (floor : Nat) {link : Reference} {target : Target}
    (hlink : link.target? = some target) (htarget : target ∈ scope.targets)
    (hserved : served target) : (scope.unfoldReference room opened floor link).Faultless := by
  induction room using Nat.strongRecOn generalizing opened floor link target with
  | ind room ih =>
      rcases unfoldReference_cases scope room opened floor link with ⟨reason, -, hfault⟩ |
        ⟨other, hother, ⟨depth, rule, -, -, -, heq⟩ | ⟨left, rule, rfl, hrule, hnew, heq⟩⟩
      · obtain ⟨hnew, hunusable⟩ := hfault target hlink
        obtain ⟨rule, hrule⟩ := hlinked.exists_follow? htarget
        obtain ⟨left, hroom, -⟩ := hspacious.enter rule.name htarget hnew
        rcases hunusable rule hrule with hfull | hbroken
        · omega
        · exact absurd (hsustains.usable hserved hrule) hbroken
      · rw [heq]
        exact Unfolding.faultless_recursion
      · obtain rfl := Option.some.inj (hlink.symm.trans hother)
        obtain ⟨less, hroom, hinside⟩ := hspacious.enter rule.name htarget hnew
        obtain rfl := Nat.succ.inj hroom
        rw [heq, Unfolding.faultless_rule_iff]
        refine Expansion.holds_unfold Unfolding.passesUp_faultless floor rule.body
          fun inner hmeets near => ?_
        obtain ⟨next, hin, hnext⟩ := hlinked.exists_target hrule
          (hsustains.usable hserved hrule) hmeets.mem_references
        exact ih left (Nat.lt_succ_self left) _ hinside near hnext hin
          (hsustains.closed hserved hrule hmeets hnext)

theorem Sustains.faultless (hlinked : scope.Linked) {served : Target → Prop}
    (hsustains : scope.Sustains served) {rule : String} {top : Rule P}
    (hpublic : scope.grammar.public rule = .ok (root, top)) (hserved : served root) :
    (scope.publicUnfolding root top).Faultless :=
  faultless_unfoldReference hlinked hsustains scope.ruleCount [] scope.spacious_nil 0 rfl
    (mem_targets (follow?_of_public hpublic)) hserved

/-- A public rule is unfolded without faults if all that it leads to can be used. -/
theorem faultless_publicUnfolding (hlinked : scope.Linked) {rule : String} {top : Rule P}
    (hpublic : scope.grammar.public rule = .ok (root, top))
    (husable : scope.unusableBelow? root = none) :
    (scope.publicUnfolding root top).Faultless := by
  have hroot : root ∈ scope.targets := mem_targets (follow?_of_public hpublic)
  have hserves : scope.Serves root := (hlinked.unusableBelow?_eq_none_iff hroot).mp husable
  exact hserves.sustains.faultless hlinked hpublic .refl

end Scope

end SpeechGrammar
