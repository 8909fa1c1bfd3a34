import Mathlib.Data.List.Basic
import SpeechGrammar.Expansion.Basic

/-!
# What holds everywhere in an expansion

Expansions are nested in lists of items and of branches.  An induction over
expansions reaches all of these, and a property may be asked of an expansion
and of everything in it.  Binding references and computing probabilities are
changes that go through all parts.
-/

namespace SpeechGrammar.Expansion

variable {P : Type}

/-- Induction over expansions, through the items of sequences and the branches of alternations. -/
theorem structural {motive : Expansion P → Prop}
    (literal : ∀ text, motive (.literal text))
    (reference : ∀ link, motive (.reference link))
    (sequence : ∀ items, (∀ item ∈ items, motive item) → motive (.sequence items))
    (alternation : ∀ branches : List (Branch P (Expansion P)),
      (∀ branch ∈ branches, motive branch.body) → motive (.alternation branches))
    (repetition : ∀ body least most?, motive body → motive (.repetition body least most?))
    (optional : ∀ body, motive body → motive (.optional body))
    (tagged : ∀ body tags, motive body → motive (.tagged body tags)) :
    ∀ expansion, motive expansion := by
  refine @Expansion.rec P motive (fun items => ∀ item ∈ items, motive item)
    (fun branches => ∀ branch ∈ branches, motive branch.body) (fun branch => motive branch.body)
    literal reference sequence alternation repetition optional tagged ?_ ?_ ?_ ?_ ?_
  · exact fun item hitem => nomatch hitem
  · exact fun _ _ hitem hitems => List.forall_mem_cons.mpr ⟨hitem, hitems⟩
  · exact fun branch hbranch => nomatch hbranch
  · exact fun _ _ hbranch hbranches => List.forall_mem_cons.mpr ⟨hbranch, hbranches⟩
  · exact fun _ _ _ hbody => hbody

theorem mapReferencesOfItems_eq_map (change : Reference → Reference)
    (items : List (Expansion P)) :
    mapReferencesOfItems change items = items.map (·.mapReferences change) := by
  induction items with
  | nil => rfl
  | cons item items ih => rw [mapReferencesOfItems, ih, List.map_cons]

theorem mapReferencesOfBranches_eq_map (change : Reference → Reference)
    (branches : List (Branch P (Expansion P))) :
    mapReferencesOfBranches change branches =
      branches.map fun branch => { branch with body := branch.body.mapReferences change } := by
  induction branches with
  | nil => rfl
  | cons branch branches ih => rw [mapReferencesOfBranches, ih, List.map_cons]

theorem itemsWithProbabilities_eq_map (share : List (Option P) → Option P → P)
    (items : List (Expansion P)) :
    itemsWithProbabilities share items = items.map (·.withProbabilities share) := by
  induction items with
  | nil => rfl
  | cons item items ih => rw [itemsWithProbabilities, ih, List.map_cons]

theorem branchesWithProbabilities_eq_map (share : List (Option P) → Option P → P)
    (weights : List (Option P)) (branches : List (Branch P (Expansion P))) :
    branchesWithProbabilities share weights branches =
      branches.map fun branch =>
        ⟨branch.weight?, share weights branch.weight?, branch.body.withProbabilities share⟩ := by
  induction branches with
  | nil => rfl
  | cons branch branches ih => rw [branchesWithProbabilities, ih, List.map_cons]

/--
Changes that go through all parts of an expansion: they keep its construction, its words, tags
and weights, and change what references and probabilities are.
-/
structure IsPartwise (change : Expansion P → Expansion P) : Prop where
  literal (text : String) : change (.literal text) = .literal text
  reference (link : Reference) : ∃ other, change (.reference link) = .reference other
  sequence (items : List (Expansion P)) :
    change (.sequence items) = .sequence (items.map change)
  alternation (branches : List (Branch P (Expansion P))) :
    ∃ share : Branch P (Expansion P) → P, change (.alternation branches) =
      .alternation (branches.map fun branch =>
        ⟨branch.weight?, share branch, change branch.body⟩)
  repetition (body : Expansion P) (least : Nat) (most? : Option Nat) :
    change (.repetition body least most?) = .repetition (change body) least most?
  optional (body : Expansion P) : change (.optional body) = .optional (change body)
  tagged (body : Expansion P) (tags : List Tag) :
    change (.tagged body tags) = .tagged (change body) tags

theorem isPartwise_mapReferences (change : Reference → Reference) :
    IsPartwise (mapReferences change : Expansion P → Expansion P) where
  literal _ := rfl
  reference _ := ⟨_, rfl⟩
  sequence items := congrArg Expansion.sequence (mapReferencesOfItems_eq_map change items)
  alternation branches :=
    ⟨_, congrArg Expansion.alternation (mapReferencesOfBranches_eq_map change branches)⟩
  repetition _ _ _ := rfl
  optional _ := rfl
  tagged _ _ := rfl

theorem isPartwise_withProbabilities (share : List (Option P) → Option P → P) :
    IsPartwise (withProbabilities share) where
  literal _ := rfl
  reference _ := ⟨_, rfl⟩
  sequence items := congrArg Expansion.sequence (itemsWithProbabilities_eq_map share items)
  alternation branches :=
    ⟨_, congrArg Expansion.alternation (branchesWithProbabilities_eq_map share _ branches)⟩
  repetition _ _ _ := rfl
  optional _ := rfl
  tagged _ _ := rfl

theorem referencesOfItems_eq_flatMap (items : List (Expansion P)) :
    referencesOfItems items = items.flatMap (·.references) := by
  induction items with
  | nil => rfl
  | cons item items ih => rw [referencesOfItems, ih, List.flatMap_cons]

theorem referencesOfBranches_eq_flatMap (branches : List (Branch P (Expansion P))) :
    referencesOfBranches branches = branches.flatMap fun branch => branch.body.references := by
  induction branches with
  | nil => rfl
  | cons branch branches ih => rw [referencesOfBranches, ih, List.flatMap_cons]

/-- Computing probabilities leaves references alone. -/
theorem references_withProbabilities (share : List (Option P) → Option P → P)
    (expansion : Expansion P) :
    (expansion.withProbabilities share).references = expansion.references := by
  induction expansion using structural with
  | literal text => rfl
  | reference link => rfl
  | sequence items ih =>
      rw [withProbabilities, references, references, referencesOfItems_eq_flatMap,
        referencesOfItems_eq_flatMap, itemsWithProbabilities_eq_map, List.flatMap_map]
      exact List.flatMap_congr ih
  | alternation branches ih =>
      rw [withProbabilities, references, references, referencesOfBranches_eq_flatMap,
        referencesOfBranches_eq_flatMap, branchesWithProbabilities_eq_map, List.flatMap_map]
      exact List.flatMap_congr ih
  | repetition body least most? ih => exact ih
  | optional body ih => exact ih
  | tagged body tags ih => exact ih

/-! ## Properties of all parts -/

/-- A property that an expansion has, and so has everything in it. -/
inductive Everywhere (good : Expansion P → Prop) : Expansion P → Prop where
  | literal {text : String} (hgood : good (.literal text)) : Everywhere good (.literal text)
  | reference {link : Reference} (hgood : good (.reference link)) :
      Everywhere good (.reference link)
  | sequence {items : List (Expansion P)} (hgood : good (.sequence items))
      (hitems : ∀ item ∈ items, Everywhere good item) : Everywhere good (.sequence items)
  | alternation {branches : List (Branch P (Expansion P))} (hgood : good (.alternation branches))
      (hbranches : ∀ branch ∈ branches, Everywhere good branch.body) :
      Everywhere good (.alternation branches)
  | repetition {body : Expansion P} {least : Nat} {most? : Option Nat}
      (hgood : good (.repetition body least most?)) (hbody : Everywhere good body) :
      Everywhere good (.repetition body least most?)
  | optional {body : Expansion P} (hgood : good (.optional body))
      (hbody : Everywhere good body) : Everywhere good (.optional body)
  | tagged {body : Expansion P} {tags : List Tag} (hgood : good (.tagged body tags))
      (hbody : Everywhere good body) : Everywhere good (.tagged body tags)

namespace Everywhere

variable {good better : Expansion P → Prop} {expansion : Expansion P}

theorem here (heverywhere : expansion.Everywhere good) : good expansion := by
  cases heverywhere <;> assumption

/-- What all expansions have an expansion has everywhere. -/
theorem of_forall (hgood : ∀ part, good part) (expansion : Expansion P) :
    expansion.Everywhere good := by
  induction expansion using structural with
  | literal text => exact .literal (hgood _)
  | reference link => exact .reference (hgood _)
  | sequence items ih => exact .sequence (hgood _) ih
  | alternation branches ih => exact .alternation (hgood _) ih
  | repetition body least most? ih => exact .repetition (hgood _) ih
  | optional body ih => exact .optional (hgood _) ih
  | tagged body tags ih => exact .tagged (hgood _) ih

/-- A property of all parts is passed on to what follows from it. -/
theorem imp (himp : ∀ part, good part → better part) (heverywhere : expansion.Everywhere good) :
    expansion.Everywhere better := by
  induction heverywhere with
  | literal hgood => exact .literal (himp _ hgood)
  | reference hgood => exact .reference (himp _ hgood)
  | sequence hgood _ ih => exact .sequence (himp _ hgood) ih
  | alternation hgood _ ih => exact .alternation (himp _ hgood) ih
  | repetition hgood _ ih => exact .repetition (himp _ hgood) ih
  | optional hgood _ ih => exact .optional (himp _ hgood) ih
  | tagged hgood _ ih => exact .tagged (himp _ hgood) ih

/-- A property that a change of all parts brings or keeps holds in all parts afterwards. -/
theorem partwise {change : Expansion P → Expansion P} (hchange : IsPartwise change)
    (hkeep : ∀ part, good part → better (change part)) (heverywhere : expansion.Everywhere good) :
    (change expansion).Everywhere better := by
  have hhere := hkeep _ heverywhere.here
  induction heverywhere with
  | @literal text _ =>
      rw [hchange.literal] at hhere ⊢
      exact .literal hhere
  | @reference link _ =>
      obtain ⟨other, heq⟩ := hchange.reference link
      rw [heq] at hhere ⊢
      exact .reference hhere
  | sequence _ hitems ih =>
      rw [hchange.sequence] at hhere ⊢
      exact .sequence hhere (List.forall_mem_map.mpr fun item hitem =>
        ih item hitem (hkeep _ (hitems item hitem).here))
  | @alternation branches _ hbranches ih =>
      obtain ⟨share, heq⟩ := hchange.alternation branches
      rw [heq] at hhere ⊢
      exact .alternation hhere (List.forall_mem_map.mpr fun branch hbranch =>
        ih branch hbranch (hkeep _ (hbranches branch hbranch).here))
  | repetition _ hbody ih =>
      rw [hchange.repetition] at hhere ⊢
      exact .repetition hhere (ih (hkeep _ hbody.here))
  | optional _ hbody ih =>
      rw [hchange.optional] at hhere ⊢
      exact .optional hhere (ih (hkeep _ hbody.here))
  | tagged _ hbody ih =>
      rw [hchange.tagged] at hhere ⊢
      exact .tagged hhere (ih (hkeep _ hbody.here))

/-- What holds everywhere after a change of all parts held before if the change cannot bring it. -/
theorem of_partwise {change : Expansion P → Expansion P} (hchange : IsPartwise change)
    (hback : ∀ part, good (change part) → good part)
    (heverywhere : (change expansion).Everywhere good) : expansion.Everywhere good := by
  have hhere := hback _ heverywhere.here
  induction expansion using structural with
  | literal text => exact .literal hhere
  | reference link => exact .reference hhere
  | sequence items ih =>
      rw [hchange.sequence] at heverywhere
      cases heverywhere with
      | sequence _ hitems =>
          rw [List.forall_mem_map] at hitems
          exact .sequence hhere fun item hitem =>
            ih item hitem (hitems item hitem) (hback _ (hitems item hitem).here)
  | alternation branches ih =>
      obtain ⟨share, heq⟩ := hchange.alternation branches
      rw [heq] at heverywhere
      cases heverywhere with
      | alternation _ hbranches =>
          rw [List.forall_mem_map] at hbranches
          exact .alternation hhere fun branch hbranch =>
            ih branch hbranch (hbranches branch hbranch) (hback _ (hbranches branch hbranch).here)
  | repetition body least most? ih =>
      rw [hchange.repetition] at heverywhere
      cases heverywhere with
      | repetition _ hbody => exact .repetition hhere (ih hbody (hback _ hbody.here))
  | optional body ih =>
      rw [hchange.optional] at heverywhere
      cases heverywhere with
      | optional _ hbody => exact .optional hhere (ih hbody (hback _ hbody.here))
  | tagged body tags ih =>
      rw [hchange.tagged] at heverywhere
      cases heverywhere with
      | tagged _ hbody => exact .tagged hhere (ih hbody (hback _ hbody.here))

/-- Two properties of all parts are one. -/
theorem and (hgood : expansion.Everywhere good) (hbetter : expansion.Everywhere better) :
    expansion.Everywhere fun part => good part ∧ better part := by
  induction hgood with
  | literal hgood => exact .literal ⟨hgood, hbetter.here⟩
  | reference hgood => exact .reference ⟨hgood, hbetter.here⟩
  | sequence hgood _ ih =>
      cases hbetter with
      | sequence hbetter hitems =>
          exact .sequence ⟨hgood, hbetter⟩ fun item hitem => ih item hitem (hitems item hitem)
  | alternation hgood _ ih =>
      cases hbetter with
      | alternation hbetter hbranches =>
          exact .alternation ⟨hgood, hbetter⟩ fun branch hbranch =>
            ih branch hbranch (hbranches branch hbranch)
  | repetition hgood _ ih =>
      cases hbetter with
      | repetition hbetter hbody => exact .repetition ⟨hgood, hbetter⟩ (ih hbody)
  | optional hgood _ ih =>
      cases hbetter with
      | optional hbetter hbody => exact .optional ⟨hgood, hbetter⟩ (ih hbody)
  | tagged hgood _ ih =>
      cases hbetter with
      | tagged hbetter hbody => exact .tagged ⟨hgood, hbetter⟩ (ih hbody)

end Everywhere

/-! ## Deciding a property of all parts -/

section Decidable

variable (good : Expansion P → Prop) [DecidablePred good]

mutual

def holdsEverywhere : Expansion P → Bool
  | .literal text => decide (good (.literal text))
  | .reference link => decide (good (.reference link))
  | .sequence items => decide (good (.sequence items)) && holdsInItems items
  | .alternation branches => decide (good (.alternation branches)) && holdsInBranches branches
  | .repetition body least most? =>
      decide (good (.repetition body least most?)) && holdsEverywhere body
  | .optional body => decide (good (.optional body)) && holdsEverywhere body
  | .tagged body tags => decide (good (.tagged body tags)) && holdsEverywhere body

def holdsInItems : List (Expansion P) → Bool
  | [] => true
  | item :: items => holdsEverywhere item && holdsInItems items

def holdsInBranches : List (Branch P (Expansion P)) → Bool
  | [] => true
  | ⟨_, _, body⟩ :: branches => holdsEverywhere body && holdsInBranches branches

end

variable {good}

theorem holdsInItems_iff {items : List (Expansion P)} :
    holdsInItems good items = true ↔ ∀ item ∈ items, holdsEverywhere good item = true := by
  induction items with
  | nil => simp [holdsInItems]
  | cons item items ih => rw [holdsInItems, Bool.and_eq_true, ih, List.forall_mem_cons]

theorem holdsInBranches_iff {branches : List (Branch P (Expansion P))} :
    holdsInBranches good branches = true ↔
      ∀ branch ∈ branches, holdsEverywhere good branch.body = true := by
  induction branches with
  | nil => simp [holdsInBranches]
  | cons branch branches ih => rw [holdsInBranches, Bool.and_eq_true, ih, List.forall_mem_cons]

theorem holdsEverywhere_iff {expansion : Expansion P} :
    holdsEverywhere good expansion = true ↔ expansion.Everywhere good := by
  induction expansion using structural with
  | literal text =>
      rw [holdsEverywhere, decide_eq_true_iff]
      exact ⟨.literal, Everywhere.here⟩
  | reference link =>
      rw [holdsEverywhere, decide_eq_true_iff]
      exact ⟨.reference, Everywhere.here⟩
  | sequence items ih =>
      rw [holdsEverywhere, Bool.and_eq_true, decide_eq_true_iff, holdsInItems_iff,
        forall₂_congr ih]
      constructor
      · exact fun ⟨hgood, hitems⟩ => .sequence hgood hitems
      · intro heverywhere
        cases heverywhere with
        | sequence hgood hitems => exact ⟨hgood, hitems⟩
  | alternation branches ih =>
      rw [holdsEverywhere, Bool.and_eq_true, decide_eq_true_iff, holdsInBranches_iff,
        forall₂_congr ih]
      constructor
      · exact fun ⟨hgood, hbranches⟩ => .alternation hgood hbranches
      · intro heverywhere
        cases heverywhere with
        | alternation hgood hbranches => exact ⟨hgood, hbranches⟩
  | repetition body least most? ih =>
      rw [holdsEverywhere, Bool.and_eq_true, decide_eq_true_iff, ih]
      constructor
      · exact fun ⟨hgood, hbody⟩ => .repetition hgood hbody
      · intro heverywhere
        cases heverywhere with
        | repetition hgood hbody => exact ⟨hgood, hbody⟩
  | optional body ih =>
      rw [holdsEverywhere, Bool.and_eq_true, decide_eq_true_iff, ih]
      constructor
      · exact fun ⟨hgood, hbody⟩ => .optional hgood hbody
      · intro heverywhere
        cases heverywhere with
        | optional hgood hbody => exact ⟨hgood, hbody⟩
  | tagged body tags ih =>
      rw [holdsEverywhere, Bool.and_eq_true, decide_eq_true_iff, ih]
      constructor
      · exact fun ⟨hgood, hbody⟩ => .tagged hgood hbody
      · intro heverywhere
        cases heverywhere with
        | tagged hgood hbody => exact ⟨hgood, hbody⟩

instance : DecidablePred (Everywhere good) := fun _ => decidable_of_iff _ holdsEverywhere_iff

end Decidable

end SpeechGrammar.Expansion
