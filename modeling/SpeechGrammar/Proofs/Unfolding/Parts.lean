import SpeechGrammar.Unfolding.Basic

/-!
# The parts of unfoldings

An unfolding is put together from the unfoldings of the parts of an expansion:
of items, of branches that can be taken, and of the bodies of repetitions.
-/

namespace SpeechGrammar

variable {P : Type} {follow : List OpenRule → Nat → Reference → Unfolding P}
  {opened : List OpenRule} {floor : Nat}

/-- Induction over unfoldings, through the items and branches that they are put together from. -/
theorem Unfolding.structural {motive : Unfolding P → Prop}
    (word : ∀ text, motive (.word text))
    (sequence : ∀ items, (∀ item ∈ items, motive item) → motive (.sequence items))
    (choice : ∀ branches : List (P × Unfolding P), (∀ branch ∈ branches, motive branch.2) →
      motive (.choice branches))
    (copies : ∀ least items, (∀ item ∈ items, motive item) → motive (.copies least items))
    (loop : ∀ least body, motive body → motive (.loop least body))
    (tagged : ∀ body tags, motive body → motive (.tagged body tags))
    (rule : ∀ target body, motive body → motive (.rule target body))
    (recursion : ∀ depth name exact, motive (.recursion depth name exact))
    (fault : ∀ reason, motive (.fault reason)) : ∀ unfolding, motive unfolding := by
  refine @Unfolding.rec P motive (fun items => ∀ item ∈ items, motive item)
    (fun branches => ∀ branch ∈ branches, motive branch.2) (fun branch => motive branch.2)
    word sequence choice copies loop tagged rule recursion fault ?_ ?_ ?_ ?_ ?_
  · exact fun item hitem => nomatch hitem
  · exact fun _ _ hitem hitems => List.forall_mem_cons.mpr ⟨hitem, hitems⟩
  · exact fun branch hbranch => nomatch hbranch
  · exact fun _ _ hbranch hbranches => List.forall_mem_cons.mpr ⟨hbranch, hbranches⟩
  · exact fun _ _ hbody => hbody

/-- What holds of an unfolding if it holds of all its parts. -/
structure Unfolding.PassesUp (holds : Unfolding P → Prop) : Prop where
  word (text : String) : holds (.word text)
  sequence {items : List (Unfolding P)} (hitems : ∀ item ∈ items, holds item) :
    holds (.sequence items)
  choice {branches : List (P × Unfolding P)} (hbranches : ∀ branch ∈ branches, holds branch.2) :
    holds (.choice branches)
  copies {least : Nat} {items : List (Unfolding P)} (hitems : ∀ item ∈ items, holds item) :
    holds (.copies least items)
  loop {least : Nat} {body : Unfolding P} (hbody : holds body) : holds (.loop least body)
  tagged {body : Unfolding P} {tags : List Tag} (hbody : holds body) : holds (.tagged body tags)

theorem Unfolding.eq_or_eq_of_mem_copiesOf {count : Nat} {early last : Unit → Unfolding P}
    {copy : Unfolding P} (hmem : copy ∈ copiesOf count early last) :
    copy = early () ∨ copy = last () := by
  match count with
  | 0 => cases hmem
  | 1 => exact .inr (List.mem_singleton.mp hmem)
  | count + 2 =>
      rw [copiesOf] at hmem
      split at hmem
      · exact .inl (List.mem_singleton.mp hmem)
      · rcases List.mem_append.mp hmem with hmem | hmem
        · exact .inl (List.eq_of_mem_replicate hmem)
        · exact .inr (List.mem_singleton.mp hmem)

namespace Expansion

variable [BranchWeight P]

/-- The later items of a sequence are unfolded at its end or in front of other items. -/
theorem exists_of_mem_unfoldItems {items : List (Expansion P)} {part : Unfolding P}
    (hmem : part ∈ unfoldItems follow opened floor items) :
    ∃ item ∈ items, ∃ lower, (lower = floor ∨ lower = opened.length) ∧
      part = item.unfold follow opened lower := by
  induction items with
  | nil => cases hmem
  | cons item items ih =>
      rw [unfoldItems] at hmem
      rcases List.mem_cons.mp hmem with rfl | hmem
      · refine ⟨item, List.mem_cons_self .., _, ?_, rfl⟩
        split
        · exact .inl rfl
        · exact .inr rfl
      · obtain ⟨other, hother, heq⟩ := ih hmem
        exact ⟨other, List.mem_cons_of_mem _ hother, heq⟩

/-- The branches that are unfolded are those that can be taken. -/
theorem mem_unfoldBranches_iff {branches : List (Branch P (Expansion P))}
    {part : P × Unfolding P} :
    part ∈ unfoldBranches follow opened floor branches ↔
      ∃ branch ∈ branches, 0 < branch.probability ∧
        part = (branch.probability, branch.body.unfold follow opened floor) := by
  induction branches with
  | nil => simp [unfoldBranches]
  | cons branch branches ih =>
      obtain ⟨weight?, probability, body⟩ := branch
      rw [unfoldBranches]
      constructor
      · intro hmem
        split at hmem
        · rename_i hpositive
          rcases List.mem_cons.mp hmem with rfl | hmem
          · exact ⟨_, List.mem_cons_self .., of_decide_eq_true hpositive, rfl⟩
          · obtain ⟨other, hother, hparts⟩ := ih.mp hmem
            exact ⟨other, List.mem_cons_of_mem _ hother, hparts⟩
        · obtain ⟨other, hother, hparts⟩ := ih.mp hmem
          exact ⟨other, List.mem_cons_of_mem _ hother, hparts⟩
      · rintro ⟨branch, hmem, hpositive, rfl⟩
        rcases List.mem_cons.mp hmem with rfl | hmem
        · have htaken : BranchWeight.isPositive probability = true := decide_eq_true hpositive
          rw [if_pos htaken]
          exact List.mem_cons_self ..
        · have hothers := ih.mpr ⟨branch, hmem, hpositive, rfl⟩
          split
          · exact List.mem_cons_of_mem _ hothers
          · exact hothers

theorem unfold_optional (body : Expansion P) :
    body.optional.unfold follow opened floor =
      (Expansion.repetition body 0 (some 1)).unfold follow opened floor := by
  rw [unfold, unfold]
  rfl

end Expansion

end SpeechGrammar
