import SpeechGrammar.Proofs.Derivation.Climbing

/-!
# Checking derivation trees

A tree says all that there is to say about how an expansion is expanded, so
whether it is a tree of the expansion can be decided by going through it.
-/

namespace SpeechGrammar

variable {P : Type} [BranchWeight P] [DecidableEq P]

namespace Tree

mutual

def expands (scope : Scope P) : Tree P → Expansion P → Bool
  | .word text, .literal other => other == text
  | .rule target body, .reference link =>
      decide (link.target? = some target) &&
        (scope.follow? target).any fun rule => body.expands scope rule.body
  | .sequence trees, .sequence items => expandsItems scope trees items
  | .branch probability tree, .alternation branches =>
      branches.any fun branch => decide (branch.probability = probability) &&
        BranchWeight.isPositive branch.probability && tree.expands scope branch.body
  | .iterations least trees, .repetition body least' most? =>
      least' == least && decide (least ≤ trees.length) && most?.all (trees.length ≤ ·) &&
        expandsEach scope trees body
  | .iterations least trees, .optional body =>
      least == 0 && decide (trees.length ≤ 1) && expandsEach scope trees body
  | .tagged tree tags, .tagged body others =>
      decide (others = tags) && tree.expands scope body
  | _, _ => false

def expandsItems (scope : Scope P) : List (Tree P) → List (Expansion P) → Bool
  | [], [] => true
  | tree :: trees, item :: items => tree.expands scope item && expandsItems scope trees items
  | _, _ => false

def expandsEach (scope : Scope P) : List (Tree P) → Expansion P → Bool
  | [], _ => true
  | tree :: trees, body => tree.expands scope body && expandsEach scope trees body

end

variable {scope : Scope P}

theorem expandsEach_iff {trees : List (Tree P)} {body : Expansion P} :
    expandsEach scope trees body = true ↔ ∀ tree ∈ trees, tree.expands scope body = true := by
  induction trees with
  | nil => simp [expandsEach]
  | cons tree trees ih => simp [expandsEach, ih]

/-- Some trees are those of a sequence if each turns out to be one of its item. -/
theorem derives_of_expandsItems {trees : List (Tree P)} {items : List (Expansion P)}
    (htrees : ∀ tree ∈ trees, ∀ expansion, tree.expands scope expansion = true →
      Derives scope expansion tree) (hexpands : expandsItems scope trees items = true) :
    Derives scope (.sequence items) (.sequence trees) := by
  induction trees generalizing items with
  | nil =>
      cases items with
      | nil => exact Derives.sequence_nil_iff.mpr rfl
      | cons item items => simp [expandsItems] at hexpands
  | cons tree trees ih =>
      cases items with
      | nil => simp [expandsItems] at hexpands
      | cons item items =>
          rw [expandsItems, Bool.and_eq_true] at hexpands
          obtain ⟨htree, htrees⟩ := List.forall_mem_cons.mp htrees
          exact Derives.sequence_cons_iff.mpr
            ⟨tree, trees, rfl, htree item hexpands.1, ih htrees hexpands.2⟩

/-- What turns out to be a tree of an expansion is one. -/
theorem derives_of_expands {tree : Tree P} {expansion : Expansion P}
    (hexpands : tree.expands scope expansion = true) : Derives scope expansion tree := by
  induction tree using Tree.structural generalizing expansion with
  | word text =>
      cases expansion with
      | literal other =>
          obtain rfl : other = text := by simpa [expands] using hexpands
          exact .literal other
      | _ => simp [expands] at hexpands
  | rule target body ih =>
      cases expansion with
      | reference link =>
          simp only [expands, Bool.and_eq_true, decide_eq_true_eq, Option.any_eq_true] at hexpands
          obtain ⟨htarget, rule, hrule, hbody⟩ := hexpands
          exact .reference htarget hrule (ih hbody)
      | _ => simp [expands] at hexpands
  | sequence trees ih =>
      cases expansion with
      | sequence items =>
          exact derives_of_expandsItems (fun tree htree _ => ih tree htree) hexpands
      | _ => simp [expands] at hexpands
  | branch probability tree ih =>
      cases expansion with
      | alternation branches =>
          simp only [expands, List.any_eq_true, Bool.and_eq_true, decide_eq_true_eq,
            BranchWeight.isPositive] at hexpands
          obtain ⟨branch, hmem, ⟨rfl, hpositive⟩, hbody⟩ := hexpands
          exact .alternation hmem hpositive (ih hbody)
      | _ => simp [expands] at hexpands
  | iterations least trees ih =>
      cases expansion with
      | repetition body least' most? =>
          simp only [expands, Bool.and_eq_true, beq_iff_eq, decide_eq_true_eq, expandsEach_iff]
            at hexpands
          obtain ⟨⟨⟨rfl, hleast⟩, hmost⟩, hall⟩ := hexpands
          refine .repetition hleast (fun most hmem => ?_)
            fun tree htree => ih tree htree (hall tree htree)
          rw [Option.mem_def.mp hmem] at hmost
          exact of_decide_eq_true hmost
      | optional body =>
          simp only [expands, Bool.and_eq_true, beq_iff_eq, decide_eq_true_eq, expandsEach_iff]
            at hexpands
          obtain ⟨⟨rfl, hmost⟩, hall⟩ := hexpands
          refine .optional (.repetition (Nat.zero_le _) (fun most hmem => ?_)
            fun tree htree => ih tree htree (hall tree htree))
          obtain rfl := Option.some.inj hmem
          exact hmost
      | _ => simp [expands] at hexpands
  | tagged tree tags ih =>
      cases expansion with
      | tagged body others =>
          simp only [expands, Bool.and_eq_true, decide_eq_true_eq] at hexpands
          obtain ⟨rfl, hbody⟩ := hexpands
          exact .tagged (ih hbody)
      | _ => simp [expands] at hexpands

theorem expandsItems_of_zip {trees : List (Tree P)} {items : List (Expansion P)}
    (hlength : items.length = trees.length)
    (hexpands : ∀ item tree, (item, tree) ∈ items.zip trees → tree.expands scope item = true) :
    expandsItems scope trees items = true := by
  induction items generalizing trees with
  | nil =>
      obtain rfl := List.length_eq_zero_iff.mp hlength.symm
      rfl
  | cons item items ih =>
      obtain ⟨tree, trees, rfl⟩ := List.exists_cons_of_length_eq_add_one hlength.symm
      rw [expandsItems, Bool.and_eq_true]
      exact ⟨hexpands item tree (List.mem_cons_self ..), ih (Nat.succ.inj hlength)
        fun other otherTree hmem => hexpands other otherTree (List.mem_cons_of_mem _ hmem)⟩

/-- What is a tree of an expansion turns out to be one. -/
theorem expands_of_derives {tree : Tree P} {expansion : Expansion P}
    (hderives : Derives scope expansion tree) : tree.expands scope expansion = true := by
  induction hderives with
  | literal text => simp [expands]
  | reference htarget hrule _ ih => simp [expands, htarget, hrule, ih]
  | sequence hlength _ ih => exact expandsItems_of_zip hlength ih
  | alternation hmem hpositive _ ih =>
      refine List.any_eq_true.mpr ⟨_, hmem, ?_⟩
      simp [BranchWeight.isPositive, hpositive, ih]
  | @repetition body least most? trees hleast hmost _ ih =>
      have hall : most?.all (trees.length ≤ ·) = true := by
        cases most? with
        | none => rfl
        | some most => exact decide_eq_true (hmost most rfl)
      simp [expands, hleast, hall, expandsEach_iff.mpr ih]
  | optional htree ih =>
      cases htree with
      | repetition => simpa [expands] using ih
  | tagged _ ih => simp [expands, ih]

end Tree

instance {scope : Scope P} {expansion : Expansion P} {tree : Tree P} :
    Decidable (Derives scope expansion tree) :=
  decidable_of_iff (tree.expands scope expansion = true)
    ⟨Tree.derives_of_expands, Tree.expands_of_derives⟩

instance {scope : Scope P} {name : String} {tree : Tree P} :
    Decidable (scope.DerivesPublic name tree) :=
  match hpublic : scope.grammar.public name with
  | .ok _ => decidable_of_iff _ (Scope.derivesPublic_iff hpublic).symm
  | .error _ => isFalse fun ⟨_, _, _, hfound, _⟩ => by simp [hpublic] at hfound

end SpeechGrammar
