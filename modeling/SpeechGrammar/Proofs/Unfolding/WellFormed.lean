import Mathlib.Algebra.Order.BigOperators.Group.List
import Mathlib.Algebra.Order.Field.Basic
import SpeechGrammar.Proofs.Automaton.Path
import SpeechGrammar.Proofs.Grammar.Probabilities
import SpeechGrammar.Proofs.Unfolding.Numbering
import SpeechGrammar.Proofs.Unfolding.Parts

/-!
# Built automata are well formed

A piece is wired on states that are numbered before its end, and its
transitions either cost nothing or the logarithm of the probability of a
branch that can be taken.
-/

namespace SpeechGrammar

variable {P W : Type}

namespace Unfolding

/-- The branches of an unfolding have probabilities that are likely enough. -/
inductive Probable (likely : P → Prop) : Unfolding P → Prop where
  | word (text : String) : Probable likely (.word text)
  | sequence {items : List (Unfolding P)} (hitems : ∀ item ∈ items, Probable likely item) :
      Probable likely (.sequence items)
  | choice {branches : List (P × Unfolding P)} (hlikely : ∀ branch ∈ branches, likely branch.1)
      (hbranches : ∀ branch ∈ branches, Probable likely branch.2) :
      Probable likely (.choice branches)
  | copies (least : Nat) {items : List (Unfolding P)}
      (hitems : ∀ item ∈ items, Probable likely item) : Probable likely (.copies least items)
  | loop (least : Nat) {body : Unfolding P} (hbody : Probable likely body) :
      Probable likely (.loop least body)
  | tagged (tags : List Tag) {body : Unfolding P} (hbody : Probable likely body) :
      Probable likely (.tagged body tags)
  | rule (target : Target) {body : Unfolding P} (hbody : Probable likely body) :
      Probable likely (.rule target body)
  | recursion (depth : Nat) (name : String) (exact : Bool) :
      Probable likely (.recursion depth name exact)
  | fault (reason : Unusable) : Probable likely (.fault reason)

end Unfolding

open Unfolding (Probable)

def Expansion.HasLikely [BranchWeight P] (likely : P → Prop) : Expansion P → Prop
  | .alternation branches =>
      ∀ branch ∈ branches, 0 < branch.probability → likely branch.probability
  | _ => True

section Unfold

variable [BranchWeight P] {likely : P → Prop}

theorem Expansion.hasLikely_pos (expansion : Expansion P) : expansion.HasLikely (0 < ·) := by
  cases expansion with
  | alternation branches => exact fun _ _ hpositive => hpositive
  | _ => trivial

theorem Expansion.probable_unfold {follow : List OpenRule → Nat → Reference → Unfolding P}
    (hfollow : ∀ opened floor link, Probable likely (follow opened floor link))
    {expansion : Expansion P} (hlikely : expansion.Everywhere (Expansion.HasLikely likely))
    (opened : List OpenRule) (floor : Nat) :
    Probable likely (expansion.unfold follow opened floor) := by
  induction hlikely generalizing floor with
  | literal _ =>
      rw [unfold]
      exact .word _
  | reference _ => exact hfollow _ _ _
  | sequence _ _ ih =>
      rw [unfold]
      refine .sequence fun part hpart => ?_
      obtain ⟨item, hitem, lower, -, rfl⟩ := exists_of_mem_unfoldItems hpart
      exact ih item hitem lower
  | alternation hbranches _ ih =>
      rw [unfold]
      refine .choice (fun part hpart => ?_) fun part hpart => ?_
      · obtain ⟨branch, hbranch, hpositive, rfl⟩ := mem_unfoldBranches_iff.mp hpart
        exact hbranches branch hbranch hpositive
      · obtain ⟨branch, hbranch, -, rfl⟩ := mem_unfoldBranches_iff.mp hpart
        exact ih branch hbranch floor
  | @repetition body least most? _ _ ih =>
      cases most? with
      | none =>
          rw [unfold]
          exact .loop _ (ih _)
      | some most =>
          rw [unfold]
          refine .copies _ fun copy hcopy => ?_
          rcases Unfolding.eq_or_eq_of_mem_copiesOf hcopy with rfl | rfl
          · exact ih _
          · exact ih _
  | optional _ _ ih =>
      rw [unfold]
      exact .copies _ (List.forall_mem_singleton.mpr (ih floor))
  | tagged _ _ ih =>
      rw [unfold]
      exact .tagged _ (ih floor)

theorem Scope.probable_unfoldReference {scope : Scope P}
    (hlikely : scope.Bodies (Expansion.Everywhere (Expansion.HasLikely likely))) (room : Nat)
    (opened : List OpenRule) (floor : Nat) (link : Reference) :
    Probable likely (scope.unfoldReference room opened floor link) := by
  induction room generalizing opened floor link with
  | zero =>
      unfold unfoldReference
      split
      · exact .fault _
      · split
        · exact .recursion _ _ _
        · split
          · exact .fault _
          · exact .fault _
          · rename_i heq
            cases heq
  | succ room ih =>
      unfold unfoldReference
      split
      · exact .fault _
      · split
        · exact .recursion _ _ _
        · split
          · exact .fault _
          · exact .fault _
          · rename_i rule left hrule heq
            obtain rfl := Nat.succ.inj heq
            split
            · exact .fault _
            · exact .rule _ (Expansion.probable_unfold ih (hlikely.of_follow? hrule) _ _)

theorem Scope.probable_pos (scope : Scope P) (room : Nat) (opened : List OpenRule) (floor : Nat)
    (link : Reference) : Probable (0 < ·) (scope.unfoldReference room opened floor link) :=
  probable_unfoldReference (fun _ _ rule _ => .of_forall Expansion.hasLikely_pos rule.body) room
    opened floor link

end Unfold

def IsProbability [ExactBranchWeight P] (probability : P) : Prop :=
  0 < probability ∧ probability ≤ 1

/-- No branch of a scope that can be taken is more than certain. -/
theorem Scope.Prepared.probable [ExactBranchWeight P] {scope : Scope P} (hscope : scope.Prepared)
    (room : Nat) (opened : List OpenRule) (floor : Nat) (link : Reference) :
    Probable IsProbability (scope.unfoldReference room opened floor link) := by
  refine probable_unfoldReference (fun grammar hgrammar rule hrule => ?_) room opened floor link
  refine (hscope.weighed grammar hgrammar rule hrule).imp fun part hweighed => ?_
  cases part with
  | alternation branches =>
      exact fun branch hbranch hpositive => ⟨hpositive, (hweighed branch hbranch).1⟩
  | _ => trivial

/-! ## Weights of transitions -/

section Wire

variable [BranchWeight P] [ExactWeight W] [ExactLikelihood P W]

/--
What holds of the transitions that pieces are wired with: of words, of joints
without weight, and of those into branches that are likely enough.
-/
structure Wired (languageWeight : P) (likely : P → Prop) (holds : Transition W → Prop) :
    Prop where
  word (source target : Nat) (text : String) (tags : TagSet) :
    holds ⟨source, target, some text, 0, tags⟩
  joint (tags : TagSet) (source target : Nat) : holds (Unfolding.epsilon tags source target)
  branch (tags : TagSet) (source target : Nat) {probability : P} (hlikely : likely probability) :
    holds (Unfolding.weighted tags source target
      (Logarithm.scale languageWeight (Logarithm.ln probability)))

theorem wired_finite {languageWeight : P} (hlanguage : 0 < languageWeight) :
    Wired languageWeight (0 < ·) fun step : Transition W => LogWeight.floor < step.weight where
  word _ _ _ _ := ExactWeight.floor_lt_zero
  joint _ _ _ := ExactWeight.floor_lt_zero
  branch _ _ _ _ hpositive :=
    ExactLikelihood.floor_lt_scale hlanguage (ExactLikelihood.floor_lt_ln hpositive)

theorem wired_word_weight (languageWeight : P) (likely : P → Prop) :
    Wired languageWeight likely fun step : Transition W =>
      step.word? ≠ none → step.weight = 0 where
  word _ _ _ _ _ := rfl
  joint _ _ _ hword := absurd rfl hword
  branch _ _ _ _ _ hword := absurd rfl hword

namespace Unfolding

variable {languageWeight : P} {likely : P → Prop} {holds : Transition W → Prop}
  {items : List (Unfolding P)}

theorem forall_mem_wireItems (hwired : Wired languageWeight likely holds)
    (hitems : ∀ item ∈ items, ∀ (doors : List Doors) (tags : TagSet) (next : Nat),
      ∀ step ∈ (item.wire languageWeight doors tags next : Piece W).transitions, holds step)
    (doors : List Doors) (tags : TagSet) (last next : Nat) :
    ∀ step ∈ (wireItems languageWeight doors tags last next items : Piece W).transitions,
      holds step := by
  induction items generalizing last next with
  | nil =>
      rw [wireItems]
      exact List.forall_mem_nil _
  | cons item items ih =>
      obtain ⟨hitem, hothers⟩ := List.forall_mem_cons.mp hitems
      rw [wireItems]
      exact List.forall_mem_append.mpr ⟨hitem doors tags next,
        List.forall_mem_cons.mpr ⟨hwired.joint _ _ _, ih hothers _ _⟩⟩

theorem forall_mem_wireBranches (hwired : Wired languageWeight likely holds)
    {branches : List (P × Unfolding P)}
    (hlikely : ∀ branch ∈ branches, likely branch.1)
    (hbranches : ∀ branch ∈ branches, ∀ (doors : List Doors) (tags : TagSet) (next : Nat),
      ∀ step ∈ (branch.2.wire languageWeight doors tags next : Piece W).transitions, holds step)
    (doors : List Doors) (tags : TagSet) (first last next : Nat) :
    ∀ step ∈ (wireBranches languageWeight doors tags first last next branches :
      Piece W).transitions, holds step := by
  induction branches generalizing next with
  | nil =>
      rw [wireBranches]
      exact List.forall_mem_nil _
  | cons branch branches ih =>
      obtain ⟨hbranch, hothers⟩ := List.forall_mem_cons.mp hbranches
      obtain ⟨hprobability, hprobabilities⟩ := List.forall_mem_cons.mp hlikely
      rw [wireBranches]
      exact List.forall_mem_append.mpr ⟨hbranch doors tags next,
        List.forall_mem_cons.mpr ⟨hwired.branch _ _ _ hprobability,
          List.forall_mem_cons.mpr ⟨hwired.joint _ _ _, ih hprobabilities hothers _⟩⟩⟩

theorem forall_mem_wireCopies (hwired : Wired languageWeight likely holds)
    (hitems : ∀ item ∈ items, ∀ (doors : List Doors) (tags : TagSet) (next : Nat),
      ∀ step ∈ (item.wire languageWeight doors tags next : Piece W).transitions, holds step)
    (doors : List Doors) (tags : TagSet) (bypass required last next : Nat) :
    ∀ step ∈ (wireCopies languageWeight doors tags bypass required last next items :
      Piece W).transitions, holds step := by
  induction items generalizing required last next with
  | nil =>
      rw [wireCopies]
      exact List.forall_mem_nil _
  | cons item items ih =>
      obtain ⟨hitem, hothers⟩ := List.forall_mem_cons.mp hitems
      rw [wireCopies]
      refine List.forall_mem_append.mpr ⟨hitem doors tags next,
        List.forall_mem_cons.mpr ⟨hwired.joint _ _ _, List.forall_mem_append.mpr
          ⟨?_, ih hothers _ _ _⟩⟩⟩
      split
      · exact List.forall_mem_singleton.mpr (hwired.joint _ _ _)
      · exact List.forall_mem_nil _

theorem forall_mem_wireLoop (hwired : Wired languageWeight likely holds) {body : Nat → Piece W}
    (hbody : ∀ next, ∀ step ∈ (body next).transitions, holds step) (tags : TagSet)
    (count last next : Nat) :
    ∀ step ∈ (wireLoop (P := P) body tags count last next).transitions, holds step := by
  induction count generalizing last next with
  | zero =>
      rw [wireLoop]
      exact List.forall_mem_nil _
  | succ count ih =>
      rw [wireLoop]
      refine List.forall_mem_append.mpr ⟨hbody next, List.forall_mem_cons.mpr
        ⟨hwired.joint _ _ _, List.forall_mem_append.mpr ⟨?_, ih _ _⟩⟩⟩
      split
      · exact List.forall_mem_singleton.mpr (hwired.joint _ _ _)
      · exact List.forall_mem_nil _

/-- What holds of the transitions that pieces are wired with holds of all of a piece. -/
theorem forall_mem_wire (hwired : Wired languageWeight likely holds) {unfolding : Unfolding P}
    (hprobable : unfolding.Probable likely) (doors : List Doors) (tags : TagSet) (next : Nat) :
    ∀ step ∈ (unfolding.wire languageWeight doors tags next : Piece W).transitions,
      holds step := by
  induction hprobable generalizing doors tags next with
  | word text =>
      rw [wire]
      exact List.forall_mem_singleton.mpr (hwired.word _ _ _ _)
  | @sequence items _ ih =>
      cases items with
      | nil =>
          rw [wire]
          exact List.forall_mem_singleton.mpr (hwired.joint _ _ _)
      | cons item items =>
          obtain ⟨hitem, hothers⟩ := List.forall_mem_cons.mp ih
          rw [wire]
          exact List.forall_mem_append.mpr
            ⟨hitem doors tags next, forall_mem_wireItems hwired hothers _ _ _ _⟩
  | choice hlikely _ ih =>
      rw [wire]
      exact forall_mem_wireBranches hwired hlikely ih _ _ _ _ _
  | copies least _ ih =>
      rw [wire]
      exact List.forall_mem_append.mpr ⟨forall_mem_wireCopies hwired ih _ _ _ _ _ _,
        List.forall_mem_singleton.mpr (hwired.joint _ _ _)⟩
  | loop least _ ih =>
      rw [wire]
      refine List.forall_mem_append.mpr
        ⟨forall_mem_wireLoop hwired (fun next => ih doors tags next) _ _ _ _,
          List.forall_mem_cons.mpr ⟨hwired.joint _ _ _, ?_⟩⟩
      split
      · exact List.forall_mem_singleton.mpr (hwired.joint _ _ _)
      · exact List.forall_mem_nil _
  | tagged extra _ ih =>
      rw [wire]
      exact ih _ _ _
  | rule target _ ih =>
      rw [wire]
      exact List.forall_mem_append.mpr ⟨ih _ _ _, List.forall_mem_cons.mpr
        ⟨hwired.joint _ _ _, List.forall_mem_singleton.mpr (hwired.joint _ _ _)⟩⟩
  | recursion depth name exact =>
      rw [wire]
      refine List.forall_mem_cons.mpr ⟨hwired.joint _ _ _, ?_⟩
      split
      · exact List.forall_mem_nil _
      · exact List.forall_mem_singleton.mpr (hwired.joint _ _ _)
  | fault reason =>
      rw [wire]
      exact List.forall_mem_nil _

theorem numbered_automaton (name : String) (languageWeight : P) (unfolding : Unfolding P) :
    (unfolding.automaton name languageWeight : Automaton P W).Numbered := by
  have hdoors : DoorsBelow 0 [] := fun _ hdoor => nomatch hdoor
  have hbounded : (unfolding.wire languageWeight [] .empty 0 : Piece W).Bounded 0 :=
    wire_bounded languageWeight .empty hdoors unfolding
  exact ⟨hbounded.first_lt, fun step hstep => (hbounded.ends step hstep).1,
    fun step hstep => (hbounded.ends step hstep).2⟩

end Unfolding

theorem Scope.exists_of_buildRaw_eq_ok {scope : Scope P} {rule : String} {languageWeight : P}
    {automaton : Automaton P W} (hbuild : scope.buildRaw rule languageWeight = .ok automaton) :
    0 < languageWeight ∧ ∃ link, automaton =
      (scope.unfoldReference scope.ruleCount [] 0 link).automaton (scope.automatonName rule)
        languageWeight := by
  rw [buildRaw, unfoldPublic] at hbuild
  split at hbuild
  · rename_i hlanguage
    have hpositive : 0 < languageWeight :=
      of_decide_eq_true (Bool.and_eq_true_iff.mp hlanguage).2
    cases hpublic : scope.grammar.public rule with
    | error refusal =>
        rw [hpublic] at hbuild
        cases hbuild
    | ok found =>
        rw [hpublic] at hbuild
        dsimp only [bind, Except.bind, pure, Except.pure] at hbuild
        split at hbuild
        · cases hbuild
        · exact ⟨hpositive, _, (Except.ok.inj hbuild).symm⟩
  · cases hbuild

theorem Scope.finite_of_buildRaw_eq_ok {scope : Scope P} {rule : String} {languageWeight : P}
    {automaton : Automaton P W} (hbuild : scope.buildRaw rule languageWeight = .ok automaton) :
    automaton.Numbered ∧ ∀ step ∈ automaton.transitions, LogWeight.floor < step.weight := by
  obtain ⟨hpositive, link, rfl⟩ := exists_of_buildRaw_eq_ok hbuild
  exact ⟨Unfolding.numbered_automaton _ _ _, Unfolding.forall_mem_wire (wired_finite hpositive)
    (scope.probable_pos _ _ _ _) _ _ _⟩

end Wire

section Signs

variable [ExactBranchWeight P] [ExactWeight W] [ExactLikelihood P W]

/-- A transition into a branch costs the scaled logarithm of its probability. -/
theorem wired_payable {languageWeight : P} (hlanguage : 0 < languageWeight) :
    Wired languageWeight IsProbability fun step : Transition W =>
      LogWeight.floor < step.weight ∧ step.weight ≤ 0 where
  word _ _ _ _ := ⟨ExactWeight.floor_lt_zero, le_refl _⟩
  joint _ _ _ := ⟨ExactWeight.floor_lt_zero, le_refl _⟩
  branch _ _ _ _ hlikely :=
    ⟨ExactLikelihood.floor_lt_scale hlanguage (ExactLikelihood.floor_lt_ln hlikely.1),
      ExactLikelihood.scale_nonpos hlanguage (ExactLikelihood.ln_nonpos hlikely.1 hlikely.2)⟩

/-- Automata are only built with a positive language weight, and are well formed. -/
theorem Scope.wellFormed_of_buildRaw_eq_ok {scope : Scope P} (hscope : scope.Prepared)
    {rule : String} {languageWeight : P} {automaton : Automaton P W}
    (hbuild : scope.buildRaw rule languageWeight = .ok automaton) : automaton.WellFormed := by
  obtain ⟨hpositive, link, rfl⟩ := exists_of_buildRaw_eq_ok hbuild
  have hnumbered := Unfolding.numbered_automaton (W := W) (scope.automatonName rule)
    languageWeight (scope.unfoldReference scope.ruleCount [] 0 link)
  have hpayable := Unfolding.forall_mem_wire (wired_payable (W := W) hpositive)
    (hscope.probable scope.ruleCount [] 0 link) [] .empty 0
  exact
    { start_lt := hnumbered.start_lt
      source_lt := hnumbered.source_lt
      target_lt := hnumbered.target_lt
      finite := fun step hstep => (hpayable step hstep).1
      nonpositive := fun step hstep => (hpayable step hstep).2 }

end Signs

end SpeechGrammar
