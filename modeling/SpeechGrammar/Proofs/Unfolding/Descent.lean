import SpeechGrammar.Proofs.Derivation.Reach
import SpeechGrammar.Proofs.Unfolding.Exact
import SpeechGrammar.Proofs.Unfolding.Parts

/-!
# From an unfolding to the references in it

An unfolding without faults has unfoldings without faults for its parts, and an
exact one has exact parts.  Every reference that an expansion can come to is
unfolded in some part of its unfolding; so it is unfolded without faults, or
exactly, if the expansion is.
-/

namespace SpeechGrammar

variable {P : Type} {holds : Unfolding P → Prop}

namespace Unfolding

/-- A property that faulty unfoldings do not have and that passes to all parts of an unfolding. -/
structure PassesDown (holds : Unfolding P → Prop) : Prop where
  faultless {unfolding : Unfolding P} (hholds : holds unfolding) : unfolding.Faultless
  sequence {items : List (Unfolding P)} (hholds : holds (.sequence items)) :
    ∀ item ∈ items, holds item
  choice {branches : List (P × Unfolding P)} (hholds : holds (.choice branches)) :
    ∀ branch ∈ branches, holds branch.2
  copies {least : Nat} {items : List (Unfolding P)} (hholds : holds (.copies least items)) :
    ∀ item ∈ items, holds item
  loop {least : Nat} {body : Unfolding P} (hholds : holds (.loop least body)) : holds body
  tagged {body : Unfolding P} {tags : List Tag} (hholds : holds (.tagged body tags)) : holds body

theorem passesDown_faultless : PassesDown (Faultless : Unfolding P → Prop) where
  faultless hfaultless := hfaultless
  sequence := faultless_sequence_iff.mp
  choice := faultless_choice_iff.mp
  copies := faultless_copies_iff.mp
  loop := faultless_loop_iff.mp
  tagged := faultless_tagged_iff.mp

theorem passesDown_exact : PassesDown (Exact : Unfolding P → Prop) where
  faultless := Exact.faultless
  sequence := exact_sequence_iff.mp
  choice := exact_choice_iff.mp
  copies := exact_copies_iff.mp
  loop := exact_loop_iff.mp
  tagged := exact_tagged_iff.mp

theorem PassesDown.of_copiesOf (hpasses : PassesDown holds) {count : Nat}
    {early last : Unit → Unfolding P} (hcount : 0 < count)
    (hholds : ∀ copy ∈ copiesOf count early last, holds copy) :
    holds (last ()) ∧ (1 < count → holds (early ())) := by
  obtain ⟨fewer, rfl⟩ : ∃ fewer, count = fewer + 1 := ⟨count - 1, by omega⟩
  rw [copiesOf_succ_of_faultless fun copy hcopy => hpasses.faultless (hholds copy hcopy)] at hholds
  refine ⟨hholds _ (by simp), fun hmany => hholds _ ?_⟩
  exact List.mem_append_left _ (List.mem_replicate.mpr ⟨by omega, rfl⟩)

end Unfolding

namespace Expansion

variable [BranchWeight P] {follow : List OpenRule → Nat → Reference → Unfolding P}
  {opened : List OpenRule} {floor : Nat}

theorem exists_unfold_mem_unfoldItems {items : List (Expansion P)} {item : Expansion P}
    (hmem : item ∈ items) :
    ∃ lower, (lower = floor ∨ lower = opened.length) ∧
      item.unfold follow opened lower ∈ unfoldItems follow opened floor items := by
  induction items with
  | nil => cases hmem
  | cons head items ih =>
      rw [unfoldItems]
      rcases List.mem_cons.mp hmem with rfl | hmem
      · refine ⟨_, ?_, List.mem_cons_self ..⟩
        split
        · exact .inl rfl
        · exact .inr rfl
      · obtain ⟨lower, hlower, hunfold⟩ := ih hmem
        exact ⟨lower, hlower, List.mem_cons_of_mem _ hunfold⟩

/-- What passes down from an unfolding holds of every reference that can be come to, unfolded. -/
theorem holds_follow_of_reaches (hpasses : Unfolding.PassesDown holds) {expansion : Expansion P}
    {link : Reference} (hreaches : Reaches (.reference link) expansion)
    (hholds : holds (expansion.unfold follow opened floor)) :
    ∃ lower, (lower = floor ∨ lower = opened.length) ∧ holds (follow opened lower link) := by
  induction hreaches generalizing floor with
  | here =>
      rw [unfold] at hholds
      exact ⟨floor, .inl rfl, hholds⟩
  | @sequence items item hmem _ ih =>
      rw [unfold] at hholds
      obtain ⟨lower, hlower, hunfold⟩ : ∃ lower, (lower = floor ∨ lower = opened.length) ∧
          item.unfold follow opened lower ∈ unfoldItems follow opened floor items :=
        exists_unfold_mem_unfoldItems hmem
      obtain ⟨lowest, hlowest, hfollow⟩ := ih (hpasses.sequence hholds _ hunfold)
      refine ⟨lowest, ?_, hfollow⟩
      rcases hlowest with rfl | rfl
      · exact hlower
      · exact .inr rfl
  | alternation hmem hpositive _ ih =>
      rw [unfold] at hholds
      exact ih (hpasses.choice hholds _ (mem_unfoldBranches_iff.mpr ⟨_, hmem, hpositive, rfl⟩))
  | @repetition body least most? hmost _ ih =>
      cases most? with
      | none =>
          rw [unfold] at hholds
          obtain ⟨lower, hlower, hfollow⟩ := ih (hpasses.loop hholds)
          exact ⟨lower, .inr (hlower.elim id id), hfollow⟩
      | some most =>
          rw [unfold] at hholds
          have hpositive : 0 < most := Nat.pos_of_ne_zero fun hzero => hmost (by rw [hzero])
          have hcount : 0 < max most least := hpositive.trans_le (Nat.le_max_left ..)
          exact ih (hpasses.of_copiesOf hcount (hpasses.copies hholds)).1
  | optional _ ih =>
      rw [unfold] at hholds
      exact ih (hpasses.copies hholds _ (List.mem_singleton_self _))
  | tagged _ _ ih =>
      rw [unfold] at hholds
      exact ih (hpasses.tagged hholds)

end Expansion

end SpeechGrammar
