import SpeechGrammar.Tag
import SpeechGrammar.Weight.Basic

/-!
# Expansions

The body of a rule is an expansion: words, references to rules, and what is
built from them by sequences, alternations, repetitions and tags.  The empty
sequence matches nothing but the empty utterance; the empty alternation
matches no utterance at all.
-/

namespace SpeechGrammar

/-- The identity of a grammar, by which bound references find it. -/
structure GrammarId where
  number : Nat
  deriving DecidableEq, Repr, Inhabited

/-- A rule: the grammar it belongs to and its place among that grammar's rules. -/
structure Target where
  grammar : GrammarId
  index : Nat
  deriving DecidableEq, Repr, Inhabited

/-- A reference to a rule by the name it is written with, bound to the rule it means if known. -/
structure Reference where
  name : String
  target? : Option Target := none
  deriving DecidableEq, Repr, Inhabited

namespace Reference

/-- The grammar name and the rule name of a name with a dot, cut at the last one. -/
def qualified? (reference : Reference) : Option (String × String) :=
  (Text.cutLast? '.' reference.name.toList).map fun (grammar, rule) =>
    (String.ofList grammar, String.ofList rule)

def ruleName (reference : Reference) : String :=
  match reference.qualified? with
  | some (_, rule) => rule
  | none => reference.name

end Reference

/-- A branch of an alternation: its weight as written, its probability and what it expands to. -/
structure Branch (P E : Type) where
  weight? : Option P
  probability : P
  body : E
  deriving DecidableEq, Repr

inductive Expansion (P : Type) where
  | literal (text : String)
  | reference (link : Reference)
  | sequence (items : List (Expansion P))
  | alternation (branches : List (Branch P (Expansion P)))
  /-- At least `least` times over, and at most `most?` times if that is given. -/
  | repetition (body : Expansion P) (least : Nat) (most? : Option Nat)
  | optional (body : Expansion P)
  | tagged (body : Expansion P) (tags : List Tag)
  deriving Inhabited

namespace Expansion

variable {P : Type}

def null : Expansion P := .sequence []

def void : Expansion P := .alternation []

def star (body : Expansion P) : Expansion P := .repetition body 0 none

def plus (body : Expansion P) : Expansion P := .repetition body 1 none

mutual

def references : Expansion P → List Reference
  | .literal _ => []
  | .reference link => [link]
  | .sequence items => referencesOfItems items
  | .alternation branches => referencesOfBranches branches
  | .repetition body _ _ => body.references
  | .optional body => body.references
  | .tagged body _ => body.references

def referencesOfItems : List (Expansion P) → List Reference
  | [] => []
  | item :: items => item.references ++ referencesOfItems items

def referencesOfBranches : List (Branch P (Expansion P)) → List Reference
  | [] => []
  | ⟨_, _, body⟩ :: branches => body.references ++ referencesOfBranches branches

end

mutual

def mapReferences (change : Reference → Reference) : Expansion P → Expansion P
  | .literal text => .literal text
  | .reference link => .reference (change link)
  | .sequence items => .sequence (mapReferencesOfItems change items)
  | .alternation branches => .alternation (mapReferencesOfBranches change branches)
  | .repetition body least most? => .repetition (body.mapReferences change) least most?
  | .optional body => .optional (body.mapReferences change)
  | .tagged body tags => .tagged (body.mapReferences change) tags

def mapReferencesOfItems (change : Reference → Reference) :
    List (Expansion P) → List (Expansion P)
  | [] => []
  | item :: items => item.mapReferences change :: mapReferencesOfItems change items

def mapReferencesOfBranches (change : Reference → Reference) :
    List (Branch P (Expansion P)) → List (Branch P (Expansion P))
  | [] => []
  | ⟨weight?, probability, body⟩ :: branches =>
      ⟨weight?, probability, body.mapReferences change⟩ ::
        mapReferencesOfBranches change branches

end

mutual

/-- Give every branch the probability that follows from its siblings' weights and its own. -/
def withProbabilities (share : List (Option P) → Option P → P) : Expansion P → Expansion P
  | .literal text => .literal text
  | .reference link => .reference link
  | .sequence items => .sequence (itemsWithProbabilities share items)
  | .alternation branches =>
      .alternation (branchesWithProbabilities share (branches.map (·.weight?)) branches)
  | .repetition body least most? => .repetition (body.withProbabilities share) least most?
  | .optional body => .optional (body.withProbabilities share)
  | .tagged body tags => .tagged (body.withProbabilities share) tags

def itemsWithProbabilities (share : List (Option P) → Option P → P) :
    List (Expansion P) → List (Expansion P)
  | [] => []
  | item :: items => item.withProbabilities share :: itemsWithProbabilities share items

def branchesWithProbabilities (share : List (Option P) → Option P → P)
    (weights : List (Option P)) :
    List (Branch P (Expansion P)) → List (Branch P (Expansion P))
  | [] => []
  | ⟨weight?, _, body⟩ :: branches =>
      ⟨weight?, share weights weight?, body.withProbabilities share⟩ ::
        branchesWithProbabilities share weights branches

end

mutual

theorem references_mapReferences (change : Reference → Reference) (expansion : Expansion P) :
    (expansion.mapReferences change).references = expansion.references.map change := by
  match expansion with
  | .literal _ => rfl
  | .reference _ => rfl
  | .sequence items =>
      simpa [mapReferences, references] using referencesOfItems_map change items
  | .alternation branches =>
      simpa [mapReferences, references] using referencesOfBranches_map change branches
  | .repetition body least most? =>
      simpa [mapReferences, references] using references_mapReferences change body
  | .optional body => simpa [mapReferences, references] using references_mapReferences change body
  | .tagged body tags =>
      simpa [mapReferences, references] using references_mapReferences change body

theorem referencesOfItems_map (change : Reference → Reference) (items : List (Expansion P)) :
    referencesOfItems (mapReferencesOfItems change items) =
      (referencesOfItems items).map change := by
  match items with
  | [] => rfl
  | item :: items =>
      simp [mapReferencesOfItems, referencesOfItems, references_mapReferences change item,
        referencesOfItems_map change items]

theorem referencesOfBranches_map (change : Reference → Reference)
    (branches : List (Branch P (Expansion P))) :
    referencesOfBranches (mapReferencesOfBranches change branches) =
      (referencesOfBranches branches).map change := by
  match branches with
  | [] => rfl
  | ⟨_, _, body⟩ :: branches =>
      simp [mapReferencesOfBranches, referencesOfBranches, references_mapReferences change body,
        referencesOfBranches_map change branches]

end

end Expansion

end SpeechGrammar
