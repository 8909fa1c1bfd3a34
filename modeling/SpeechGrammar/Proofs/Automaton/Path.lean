import Mathlib.Algebra.Order.BigOperators.Group.List
import SpeechGrammar.Proofs.ExactWeight
import SpeechGrammar.Automaton.Basic

/-!
# Paths through automata

A path is the list of transitions it takes.  It reads words, adds up weights
and collects tags.  An accepting path leads from the start to a final state.
Where no weight is positive, a path can be shortened to one that comes to no
state twice and is no worse.
-/

namespace SpeechGrammar

variable {P W : Type}

/-- Steps that follow one another from a first state to a last one. -/
def PathIn (transitions : List (Transition W)) : Nat → List (Transition W) → Nat → Prop
  | first, [], last => first = last
  | first, step :: steps, last =>
      step ∈ transitions ∧ step.source = first ∧ PathIn transitions step.target steps last

def wordsOf (steps : List (Transition W)) : List String := steps.filterMap (·.word?)

def tagsOf : List (Transition W) → TagSet
  | [] => .empty
  | step :: steps => step.tags.union (tagsOf steps)

/-- The states that a path comes to, its first one included. -/
def visited (first : Nat) (steps : List (Transition W)) : List Nat :=
  first :: steps.map (·.target)

section Weights

variable [ExactWeight W]

def weightOf (steps : List (Transition W)) : W := (steps.map (·.weight)).sum

/-- The sum of the weights of steps up to the last one that reads a word. -/
def weightToLastWord : List (Transition W) → W
  | [] => 0
  | step :: steps =>
      if (wordsOf (step :: steps)).isEmpty then 0 else step.weight + weightToLastWord steps

end Weights

namespace Automaton

/-- The steps of an accepting path that reads some tokens. -/
def Accepting (automaton : Automaton P W) (tokens : List String)
    (steps : List (Transition W)) : Prop :=
  wordsOf steps = tokens ∧
    ∃ final, final ∈ automaton.finals ∧
      PathIn automaton.transitions automaton.start steps final

/-- All states that are named exist, but for final ones, which nothing need lead to. -/
structure Numbered (automaton : Automaton P W) : Prop where
  start_lt : automaton.start < automaton.stateCount
  source_lt : ∀ step ∈ automaton.transitions, step.source < automaton.stateCount
  target_lt : ∀ step ∈ automaton.transitions, step.target < automaton.stateCount

variable [ExactWeight W]

/-- All states that are named exist, and all weights are finite and not positive. -/
structure WellFormed (automaton : Automaton P W) : Prop where
  start_lt : automaton.start < automaton.stateCount
  source_lt : ∀ step ∈ automaton.transitions, step.source < automaton.stateCount
  target_lt : ∀ step ∈ automaton.transitions, step.target < automaton.stateCount
  finite : ∀ step ∈ automaton.transitions, LogWeight.floor < step.weight
  nonpositive : ∀ step ∈ automaton.transitions, step.weight ≤ 0

theorem WellFormed.numbered {automaton : Automaton P W} (hwf : automaton.WellFormed) :
    automaton.Numbered :=
  ⟨hwf.start_lt, hwf.source_lt, hwf.target_lt⟩

/-- The weights of the accepting paths that read some tokens. -/
def pathWeights (automaton : Automaton P W) (tokens : List String) : Set W :=
  {weight | ∃ steps, automaton.Accepting tokens steps ∧ weightOf steps = weight}

/-- The weights up to the last word of the accepting paths that read some tokens. -/
def spokenWeights (automaton : Automaton P W) (tokens : List String) : Set W :=
  {weight | ∃ steps, automaton.Accepting tokens steps ∧ weightToLastWord steps = weight}

end Automaton

namespace PathIn

variable {transitions : List (Transition W)} {first middle last : Nat}
  {steps before after : List (Transition W)} {step : Transition W}

@[simp] theorem nil_iff : PathIn transitions first [] last ↔ first = last := Iff.rfl

@[simp] theorem cons_iff :
    PathIn transitions first (step :: steps) last ↔
      step ∈ transitions ∧ step.source = first ∧ PathIn transitions step.target steps last :=
  Iff.rfl

/-- A path through two lists of steps meets a state between them. -/
theorem append_iff :
    PathIn transitions first (before ++ after) last ↔
      ∃ middle, PathIn transitions first before middle ∧
        PathIn transitions middle after last := by
  induction before generalizing first with
  | nil => simp
  | cons step before ih =>
      simp only [List.cons_append, cons_iff, ih]
      constructor
      · rintro ⟨hmem, hsource, middle, hbefore, hafter⟩
        exact ⟨middle, ⟨hmem, hsource, hbefore⟩, hafter⟩
      · rintro ⟨middle, ⟨hmem, hsource, hbefore⟩, hafter⟩
        exact ⟨hmem, hsource, middle, hbefore, hafter⟩

theorem append (hbefore : PathIn transitions first before middle)
    (hafter : PathIn transitions middle after last) :
    PathIn transitions first (before ++ after) last :=
  append_iff.mpr ⟨middle, hbefore, hafter⟩

theorem single (hmem : step ∈ transitions) :
    PathIn transitions step.source [step] step.target :=
  ⟨hmem, rfl, rfl⟩

theorem subset (hpath : PathIn transitions first steps last) : steps ⊆ transitions := by
  induction steps generalizing first with
  | nil => simp
  | cons step steps ih =>
      obtain ⟨hmem, -, hrest⟩ := hpath
      exact List.cons_subset.mpr ⟨hmem, ih hrest⟩

theorem visited_lt {bound : Nat} (htargets : ∀ step ∈ transitions, step.target < bound)
    (hpath : PathIn transitions first steps last) (hfirst : first < bound) :
    ∀ state ∈ visited first steps, state < bound := by
  intro state hstate
  rcases List.mem_cons.mp hstate with rfl | hstate
  · exact hfirst
  · obtain ⟨step, hstep, rfl⟩ := List.mem_map.mp hstate
    exact htargets step (hpath.subset hstep)

/-- A path that comes to no state twice has fewer steps than there are states. -/
theorem length_lt_of_nodup {bound : Nat} (htargets : ∀ step ∈ transitions, step.target < bound)
    (hpath : PathIn transitions first steps last) (hfirst : first < bound)
    (hnodup : (visited first steps).Nodup) : steps.length < bound := by
  have hsubset : visited first steps ⊆ List.range bound := fun state hstate =>
    List.mem_range.mpr (hpath.visited_lt htargets hfirst state hstate)
  have hlength := List.Nodup.length_le_of_subset hnodup hsubset
  rwa [visited, List.length_cons, List.length_map, List.length_range] at hlength

theorem last_mem_visited (hpath : PathIn transitions first steps last) :
    last ∈ visited first steps := by
  induction steps generalizing first with
  | nil =>
      obtain rfl := nil_iff.mp hpath
      exact List.mem_singleton_self _
  | cons step steps ih => exact List.mem_cons_of_mem _ (ih hpath.2.2)

theorem last_unique {other : Nat} (hpath : PathIn transitions first steps last)
    (hother : PathIn transitions first steps other) : last = other := by
  induction steps generalizing first with
  | nil => exact hpath.symm.trans hother
  | cons step steps ih => exact ih hpath.2.2 hother.2.2

theorem split_at (hpath : PathIn transitions first steps last) {state : Nat}
    (hstate : state ∈ visited first steps) :
    ∃ before after, steps = before ++ after ∧ PathIn transitions first before state ∧
      PathIn transitions state after last ∧ visited state after <:+ visited first steps := by
  induction steps generalizing first with
  | nil =>
      obtain rfl := List.mem_singleton.mp hstate
      exact ⟨[], [], rfl, rfl, hpath, List.suffix_refl _⟩
  | cons step steps ih =>
      rcases List.mem_cons.mp hstate with rfl | htail
      · exact ⟨[], step :: steps, rfl, rfl, hpath, List.suffix_refl _⟩
      · obtain ⟨hmem, hsource, hrest⟩ := hpath
        obtain ⟨before, after, rfl, hbefore, hafter, hsuffix⟩ := ih hrest htail
        exact ⟨step :: before, after, rfl, ⟨hmem, hsource, hbefore⟩, hafter,
          hsuffix.trans (List.suffix_cons ..)⟩

/-- Leaving out what lies between two visits of a state leaves a path that visits none twice. -/
theorem exists_simple_sublist (hpath : PathIn transitions first steps last) :
    ∃ simple, simple.Sublist steps ∧ PathIn transitions first simple last ∧
      (visited first simple).Nodup := by
  induction steps generalizing first with
  | nil => exact ⟨[], List.Sublist.refl _, hpath, by simp [visited]⟩
  | cons step steps ih =>
      obtain ⟨hmem, rfl, hrest⟩ := hpath
      obtain ⟨simple, hfewer, hsimple, hnodup⟩ := ih hrest
      by_cases hloop : step.source ∈ visited step.target simple
      · -- The path comes back to where it starts, so what lies before that can be left out.
        obtain ⟨before, after, rfl, -, hafter, hsuffix⟩ := hsimple.split_at hloop
        refine ⟨after, ?_, hafter, hsuffix.sublist.nodup hnodup⟩
        exact ((List.sublist_append_right before after).trans hfewer).cons step
      · exact ⟨step :: simple, hfewer.cons_cons step, ⟨hmem, rfl, hsimple⟩,
          List.nodup_cons.mpr ⟨hloop, hnodup⟩⟩

end PathIn

/-! ## Words, weights and tags of steps -/

@[simp] theorem wordsOf_nil : wordsOf ([] : List (Transition W)) = [] := rfl

@[simp] theorem wordsOf_append (before after : List (Transition W)) :
    wordsOf (before ++ after) = wordsOf before ++ wordsOf after :=
  List.filterMap_append

theorem wordsOf_cons (step : Transition W) (steps : List (Transition W)) :
    wordsOf (step :: steps) = step.word?.toList ++ wordsOf steps := by
  cases hword : step.word? <;> simp [wordsOf, hword]

theorem wordsOf_cons_none {step : Transition W} (hword : step.word? = none)
    (steps : List (Transition W)) : wordsOf (step :: steps) = wordsOf steps :=
  List.filterMap_cons_none hword

theorem wordsOf_cons_some {step : Transition W} {word : String} (hword : step.word? = some word)
    (steps : List (Transition W)) : wordsOf (step :: steps) = word :: wordsOf steps :=
  List.filterMap_cons_some hword

theorem wordsOf_eq_nil_iff {steps : List (Transition W)} :
    wordsOf steps = [] ↔ ∀ step ∈ steps, step.word? = none :=
  List.filterMap_eq_nil_iff

theorem wordsOf_eq_nil_of_sublist {steps fewer : List (Transition W)}
    (hfewer : fewer.Sublist steps) (hsilent : wordsOf steps = []) : wordsOf fewer = [] :=
  wordsOf_eq_nil_iff.mpr fun step hstep =>
    wordsOf_eq_nil_iff.mp hsilent step (hfewer.subset hstep)

theorem wordsOf_append_of_silent {before after : List (Transition W)}
    (hsilent : wordsOf after = []) : wordsOf (before ++ after) = wordsOf before := by
  rw [wordsOf_append, hsilent, List.append_nil]

theorem wordsOf_concat_none {step : Transition W} (hword : step.word? = none)
    (steps : List (Transition W)) : wordsOf (steps ++ [step]) = wordsOf steps :=
  wordsOf_append_of_silent (wordsOf_cons_none hword [])

/-- Steps that read one more word take one transition that reads it, and epsilons behind it. -/
theorem wordsOf_eq_append_singleton {steps : List (Transition W)} {words : List String}
    {word : String} (hwords : wordsOf steps = words ++ [word]) :
    ∃ before step after, steps = before ++ step :: after ∧ wordsOf before = words ∧
      step.word? = some word ∧ wordsOf after = [] := by
  obtain ⟨before, rest, rfl, hbefore, hrest⟩ := List.filterMap_eq_append_iff.mp hwords
  obtain ⟨epsilons, step, after, rfl, hepsilons, hstep, hafter⟩ :=
    List.filterMap_eq_cons_iff.mp hrest
  have hsilent : wordsOf (before ++ epsilons) = wordsOf before :=
    wordsOf_append_of_silent (wordsOf_eq_nil_iff.mpr hepsilons)
  exact ⟨before ++ epsilons, step, after, by simp, hsilent.trans hbefore, hstep, hafter⟩

theorem wordsOf_eq_cons {steps : List (Transition W)} {words : List String} {word : String}
    (hwords : wordsOf steps = word :: words) :
    ∃ before step after, steps = before ++ step :: after ∧ wordsOf before = [] ∧
      step.word? = some word ∧ wordsOf after = words := by
  obtain ⟨before, step, after, rfl, hbefore, hstep, hafter⟩ :=
    List.filterMap_eq_cons_iff.mp hwords
  exact ⟨before, step, after, rfl, wordsOf_eq_nil_iff.mpr hbefore, hstep, hafter⟩

@[simp] theorem tagsOf_nil : tagsOf ([] : List (Transition W)) = .empty := rfl

@[simp] theorem tagsOf_cons (step : Transition W) (steps : List (Transition W)) :
    tagsOf (step :: steps) = step.tags.union (tagsOf steps) := rfl

theorem mem_tagsOf {steps : List (Transition W)} {tag : Tag} :
    tag ∈ tagsOf steps ↔ ∃ step ∈ steps, tag ∈ step.tags := by
  induction steps with
  | nil => simp [SortedSet.not_mem_empty]
  | cons step steps ih => simp [SortedSet.mem_union, ih]

section Weights

variable [ExactWeight W] {transitions : List (Transition W)} {first last : Nat}
  {steps : List (Transition W)}

@[simp] theorem weightOf_nil : weightOf ([] : List (Transition W)) = 0 := rfl

@[simp] theorem weightOf_cons (step : Transition W) (steps : List (Transition W)) :
    weightOf (step :: steps) = step.weight + weightOf steps :=
  List.sum_cons

@[simp] theorem weightOf_append (before after : List (Transition W)) :
    weightOf (before ++ after) = weightOf before + weightOf after := by
  simp [weightOf]

theorem weightOf_nonpos (hsteps : ∀ step ∈ steps, step.weight ≤ 0) : weightOf steps ≤ 0 := by
  induction steps with
  | nil => exact le_refl _
  | cons step steps ih =>
      rw [weightOf_cons]
      exact add_nonpos (hsteps step (List.mem_cons_self ..))
        (ih fun other hother => hsteps other (List.mem_cons_of_mem _ hother))

theorem floor_lt_weightOf (hsteps : ∀ step ∈ steps, LogWeight.floor < step.weight) :
    LogWeight.floor < weightOf steps := by
  induction steps with
  | nil => exact ExactWeight.floor_lt_zero
  | cons step steps ih =>
      rw [weightOf_cons]
      exact ExactWeight.floor_lt_add (hsteps step (List.mem_cons_self ..))
        (ih fun other hother => hsteps other (List.mem_cons_of_mem _ hother))

theorem weightToLastWord_of_silent (hwords : wordsOf steps = []) :
    weightToLastWord steps = 0 := by
  cases steps with
  | nil => rfl
  | cons step steps => simp [weightToLastWord, hwords]

theorem weightToLastWord_append (before : List (Transition W)) (hwords : wordsOf steps ≠ []) :
    weightToLastWord (before ++ steps) = weightOf before + weightToLastWord steps := by
  induction before with
  | nil => simp
  | cons step before ih =>
      have hrest : wordsOf (step :: (before ++ steps)) ≠ [] := by
        rw [← List.cons_append, wordsOf_append]
        exact List.append_ne_nil_of_right_ne_nil _ hwords
      rw [List.cons_append, weightToLastWord, if_neg (by simpa using hrest), ih, weightOf_cons,
        add_assoc]

theorem weightToLastWord_cons_some {step : Transition W} {word : String}
    (hword : step.word? = some word) (steps : List (Transition W)) :
    weightToLastWord (step :: steps) = step.weight + weightToLastWord steps := by
  rw [weightToLastWord, wordsOf_cons_some hword]
  simp

/-- The weight up to the last word is no less than the weight of the whole. -/
theorem weightOf_le_weightToLastWord (hsteps : ∀ step ∈ steps, step.weight ≤ 0) :
    weightOf steps ≤ weightToLastWord steps := by
  induction steps with
  | nil => exact le_refl _
  | cons step steps ih =>
      rw [weightToLastWord]
      split
      · exact weightOf_nonpos hsteps
      · rw [weightOf_cons]
        exact add_le_add_right
          (ih fun other hother => hsteps other (List.mem_cons_of_mem _ hother)) _

/-- Leaving out steps of weights that are not positive does not make the rest weigh less. -/
theorem weightOf_le_of_sublist {fewer : List (Transition W)}
    (hsteps : ∀ step ∈ steps, step.weight ≤ 0) (hfewer : fewer.Sublist steps) :
    weightOf steps ≤ weightOf fewer := by
  induction hfewer with
  | slnil => exact le_refl _
  | cons step _ ih =>
      obtain ⟨hstep, hrest⟩ := List.forall_mem_cons.mp hsteps
      rw [weightOf_cons]
      exact (add_le_add hstep (ih hrest)).trans_eq (zero_add _)
  | cons_cons step _ ih =>
      rw [weightOf_cons, weightOf_cons]
      exact add_le_add_right (ih (List.forall_mem_cons.mp hsteps).2) _

/--
A path through epsilons of weights that are not positive can be shortened to
one that comes to no state twice and weighs no less.
-/
theorem PathIn.exists_simple (htransitions : ∀ step ∈ transitions, step.weight ≤ 0)
    (hpath : PathIn transitions first steps last) (hsilent : wordsOf steps = []) :
    ∃ simple, PathIn transitions first simple last ∧ wordsOf simple = [] ∧
      weightOf steps ≤ weightOf simple ∧ (visited first simple).Nodup := by
  obtain ⟨simple, hfewer, hsimple, hnodup⟩ := hpath.exists_simple_sublist
  refine ⟨simple, hsimple, wordsOf_eq_nil_of_sublist hfewer hsilent, ?_, hnodup⟩
  exact weightOf_le_of_sublist (fun step hstep => htransitions step (hpath.subset hstep)) hfewer

end Weights

end SpeechGrammar
