import SpeechGrammar.Proofs.Automaton.Path
import SpeechGrammar.Proofs.Derivation.Tree

/-!
# Readings

A path and a derivation tree are compared by what is read off them: words, a
set of tags and a weight.  Readings are joined one behind another.  Tags are
collected in no order, so a reading may be marked with tags before or after it
is joined to others.
-/

namespace SpeechGrammar

variable {P W : Type}

/-- What is read along a path, or off a tree. -/
@[ext]
structure Reading (W : Type) where
  words : List String
  tags : TagSet
  weight : W

namespace Reading

def mark (tags : TagSet) (reading : Reading W) : Reading W :=
  { reading with tags := tags.union reading.tags }

theorem mark_mark (first second : TagSet) (reading : Reading W) :
    (reading.mark second).mark first = reading.mark (first.union second) := by
  simp [mark, SortedSet.union_assoc]

@[simp] theorem mark_mark_self (tags : TagSet) (reading : Reading W) :
    (reading.mark tags).mark tags = reading.mark tags := by
  rw [mark_mark, SortedSet.union_self]

@[simp] theorem mark_empty (reading : Reading W) : reading.mark .empty = reading := by
  simp [mark]

variable [ExactWeight W]

def silent (weight : W) : Reading W := ⟨[], .empty, weight⟩

def append (first second : Reading W) : Reading W :=
  ⟨first.words ++ second.words, first.tags.union second.tags, first.weight + second.weight⟩

@[simp] theorem silent_zero_append (reading : Reading W) :
    (silent 0).append reading = reading := by
  simp [append, silent]

@[simp] theorem append_silent_zero (reading : Reading W) :
    reading.append (silent 0) = reading := by
  simp [append, silent]

theorem append_assoc (first second third : Reading W) :
    (first.append second).append third = first.append (second.append third) := by
  simp [append, SortedSet.union_assoc, add_assoc]

theorem mark_append (tags : TagSet) (first second : Reading W) :
    (first.mark tags).append second = (first.append second).mark tags := by
  simp [append, mark, SortedSet.union_assoc]

theorem append_mark (tags : TagSet) (first second : Reading W) :
    first.append (second.mark tags) = (first.append second).mark tags := by
  simp only [append, mark, mk.injEq, true_and, and_true]
  ac_rfl

end Reading

section Paths

variable [ExactWeight W]

def Transition.reading (step : Transition W) : Reading W :=
  ⟨step.word?.toList, step.tags, step.weight⟩

def readingOf (steps : List (Transition W)) : Reading W :=
  ⟨wordsOf steps, tagsOf steps, weightOf steps⟩

@[simp] theorem readingOf_nil : readingOf ([] : List (Transition W)) = .silent 0 := rfl

@[simp] theorem readingOf_cons (step : Transition W) (steps : List (Transition W)) :
    readingOf (step :: steps) = step.reading.append (readingOf steps) := by
  simp [readingOf, Reading.append, Transition.reading, wordsOf_cons]

theorem readingOf_append (before after : List (Transition W)) :
    readingOf (before ++ after) = (readingOf before).append (readingOf after) := by
  induction before with
  | nil => simp
  | cons step before ih =>
      rw [List.cons_append, readingOf_cons, ih, readingOf_cons, Reading.append_assoc]

end Paths

section Trees

variable [BranchWeight P] [ExactWeight W] [ExactLogarithm P W]

def Tree.reading (languageWeight : P) (tree : Tree P) : Reading W :=
  ⟨tree.yield, tree.tags, Logarithm.scale languageWeight tree.weight⟩

variable (languageWeight : P)

@[simp] theorem reading_word (text : String) :
    (Tree.word text : Tree P).reading languageWeight = (⟨[text], .empty, 0⟩ : Reading W) := by
  simp [Tree.reading, ExactLogarithm.scale_zero]

@[simp] theorem reading_rule (target : Target) (body : Tree P) :
    ((Tree.rule target body).reading languageWeight : Reading W) =
      body.reading languageWeight := rfl

@[simp] theorem reading_iterations (least : Nat) (items : List (Tree P)) :
    ((Tree.iterations least items).reading languageWeight : Reading W) =
      (Tree.sequence items).reading languageWeight := rfl

theorem reading_branch (probability : P) (body : Tree P) :
    ((Tree.branch probability body).reading languageWeight : Reading W) =
      (Reading.silent (Logarithm.scale languageWeight (Logarithm.ln probability))).append
        (body.reading languageWeight) := by
  simp [Tree.reading, Reading.append, Reading.silent, ExactLogarithm.scale_add]

theorem reading_tagged (body : Tree P) (tags : List Tag) :
    ((Tree.tagged body tags).reading languageWeight : Reading W) =
      (body.reading languageWeight).mark (.ofList tags) := by
  simp [Tree.reading, Reading.mark]

@[simp] theorem reading_nil :
    (Tree.sequence [] : Tree P).reading languageWeight = (.silent 0 : Reading W) := by
  simp [Tree.reading, Reading.silent, ExactLogarithm.scale_zero]

theorem reading_cons (item : Tree P) (items : List (Tree P)) :
    ((Tree.sequence (item :: items)).reading languageWeight : Reading W) =
      (item.reading languageWeight).append ((Tree.sequence items).reading languageWeight) := by
  simp [Tree.reading, Reading.append, ExactLogarithm.scale_add]

end Trees

end SpeechGrammar
