import SpeechGrammar.Proofs.Unfolding.Reading
import SpeechGrammar.Proofs.Unfolding.Exact
import SpeechGrammar.Proofs.Unfolding.Numbering

/-!
# Labelling states with readings

Every state of a piece is labelled with readings, so that whatever is read from
a state to the end of the automaton is in its label.  It is enough that every
transition respects the labels.  The label of a piece's first state consists of
readings of derivation trees in front of what is read behind the piece.  At an
exact return to an open rule that is so because all that can be read from the
rule's first state ends where the return does.
-/

namespace SpeechGrammar

variable {P W : Type} [BranchWeight P] [ExactWeight W]

/-- The readings made of one from a first set and one from a second behind it, marked. -/
def through (tags : TagSet) (inner rest : Set (Reading W)) : Set (Reading W) :=
  {reading | ∃ first ∈ inner, ∃ second ∈ rest, reading = (first.append second).mark tags}

def marked (tags : TagSet) (rest : Set (Reading W)) : Set (Reading W) :=
  {reading | ∃ second ∈ rest, reading = second.mark tags}

theorem mark_mem_through {tags : TagSet} {first second both rest : Set (Reading W)}
    {reading : Reading W} (hreading : reading ∈ through tags first (through tags second rest))
    (hboth : ∀ one ∈ first, ∀ other ∈ second, one.append other ∈ both) :
    reading.mark tags ∈ through tags both rest := by
  obtain ⟨one, hone, _, ⟨other, hother, behind, hbehind, rfl⟩, rfl⟩ := hreading
  refine ⟨_, hboth one hone other hother, behind, hbehind, ?_⟩
  rw [Reading.append_mark, Reading.mark_mark_self, Reading.mark_mark_self, Reading.append_assoc]

theorem mark_of_mem_through {tags : TagSet} {inner rest : Set (Reading W)} {reading : Reading W}
    (hreading : reading ∈ through tags inner rest) : reading.mark tags = reading := by
  obtain ⟨first, -, second, -, rfl⟩ := hreading
  exact Reading.mark_mark_self ..

theorem through_mono {tags : TagSet} {inner larger rest : Set (Reading W)}
    (hsubset : inner ⊆ larger) : through tags inner rest ⊆ through tags larger rest := by
  rintro _ ⟨first, hfirst, second, hsecond, rfl⟩
  exact ⟨first, hsubset hfirst, second, hsecond, rfl⟩

theorem marked_subset_through {tags : TagSet} {inner rest : Set (Reading W)}
    (hblank : Reading.silent 0 ∈ inner) : marked tags rest ⊆ through tags inner rest := by
  rintro _ ⟨second, hsecond, rfl⟩
  exact ⟨_, hblank, second, hsecond, by rw [Reading.silent_zero_append]⟩

@[simp] theorem reading_epsilon_append (tags : TagSet) (source target : Nat)
    (reading : Reading W) :
    (Unfolding.epsilon tags source target).reading.append reading = reading.mark tags := by
  simp [Unfolding.epsilon, Unfolding.weighted, Transition.reading, Reading.append, Reading.mark]

@[simp] theorem reading_weighted_append (tags : TagSet) (source target : Nat) (weight : W)
    (reading : Reading W) :
    (Unfolding.weighted tags source target weight).reading.append reading =
      ((Reading.silent weight).append reading).mark tags := by
  simp [Unfolding.weighted, Transition.reading, Reading.append, Reading.silent, Reading.mark]

def Respects (label : Nat → Set (Reading W)) (transitions : List (Transition W)) : Prop :=
  ∀ step ∈ transitions, ∀ reading ∈ label step.target,
    step.reading.append reading ∈ label step.source

namespace Respects

variable {label other : Nat → Set (Reading W)} {transitions others : List (Transition W)}
  {step : Transition W}

theorem nil : Respects label ([] : List (Transition W)) := by
  simp [Respects]

theorem cons
    (hstep : ∀ reading ∈ label step.target, step.reading.append reading ∈ label step.source)
    (hrest : Respects label transitions) : Respects label (step :: transitions) :=
  List.forall_mem_cons.mpr ⟨hstep, hrest⟩

theorem epsilon {tags : TagSet} {source target : Nat}
    (hstep : ∀ reading ∈ label target, reading.mark tags ∈ label source)
    (hrest : Respects label transitions) :
    Respects label (Unfolding.epsilon tags source target :: transitions) := by
  refine .cons (fun reading hreading => ?_) hrest
  rw [reading_epsilon_append]
  exact hstep reading hreading

theorem append (hfirst : Respects label transitions) (hsecond : Respects label others) :
    Respects label (transitions ++ others) :=
  List.forall_mem_append.mpr ⟨hfirst, hsecond⟩

theorem congr {bound : Nat} (hrespects : Respects label transitions)
    (hends : EndsBelow bound transitions) (hagrees : ∀ state < bound, other state = label state) :
    Respects other transitions := by
  intro step hstep reading hreading
  obtain ⟨hsource, htarget⟩ := hends step hstep
  rw [hagrees _ htarget] at hreading
  rw [hagrees _ hsource]
  exact hrespects step hstep reading hreading

/-- What is read along a path to a state stands in front of the label of that state. -/
theorem reading_mem (hrespects : Respects label transitions) {first last : Nat}
    {steps : List (Transition W)} (hpath : PathIn transitions first steps last)
    {reading : Reading W} (hreading : reading ∈ label last) :
    (readingOf steps).append reading ∈ label first := by
  induction steps generalizing first with
  | nil =>
      obtain rfl := PathIn.nil_iff.mp hpath
      simpa using hreading
  | cons step steps ih =>
      obtain ⟨hmem, rfl, hrest⟩ := hpath
      rw [readingOf_cons, Reading.append_assoc]
      exact hrespects step hmem _ (ih hrest)

end Respects

variable [ExactLogarithm P W]

namespace Scope

def readings (scope : Scope P) (languageWeight : P) (expansion : Expansion P) :
    Set (Reading W) :=
  {reading | ∃ tree, Derives scope expansion tree ∧ tree.reading languageWeight = reading}

def ruleReadings (scope : Scope P) (languageWeight : P) (target : Target) : Set (Reading W) :=
  {reading | ∃ rule, scope.follow? target = some rule ∧
    reading ∈ scope.readings languageWeight rule.body}

variable {scope : Scope P} {languageWeight : P} {first second : Reading W}

theorem readings_reference {link : Reference} {target : Target}
    (htarget : link.target? = some target)
    (hfirst : first ∈ scope.ruleReadings languageWeight target) :
    first ∈ scope.readings languageWeight (.reference link) := by
  obtain ⟨rule, hrule, tree, htree, rfl⟩ := hfirst
  exact ⟨.rule target tree, .reference htarget hrule htree, rfl⟩

theorem readings_nil : Reading.silent 0 ∈
    (scope.readings languageWeight (.sequence []) : Set (Reading W)) :=
  ⟨.sequence [], Derives.sequence_nil_iff.mpr rfl, by simp⟩

theorem readings_cons {item : Expansion P} {items : List (Expansion P)}
    (hfirst : first ∈ scope.readings languageWeight item)
    (hsecond : second ∈ scope.readings languageWeight (.sequence items)) :
    first.append second ∈ scope.readings languageWeight (.sequence (item :: items)) := by
  obtain ⟨tree, htree, rfl⟩ := hfirst
  obtain ⟨rest, hrest, rfl⟩ := hsecond
  cases hrest with
  | sequence hlength hitems =>
      rename_i trees
      exact ⟨.sequence (tree :: trees),
        Derives.sequence_cons_iff.mpr ⟨tree, trees, rfl, htree, .sequence hlength hitems⟩,
        reading_cons ..⟩

theorem readings_branch {branches : List (Branch P (Expansion P))}
    {branch : Branch P (Expansion P)} (hmem : branch ∈ branches)
    (hpositive : 0 < branch.probability)
    (hfirst : first ∈ scope.readings languageWeight branch.body) :
    (Reading.silent (Logarithm.scale languageWeight (Logarithm.ln branch.probability))).append
      first ∈ scope.readings languageWeight (.alternation branches) := by
  obtain ⟨tree, htree, rfl⟩ := hfirst
  exact ⟨.branch branch.probability tree, .alternation hmem hpositive htree, reading_branch ..⟩

theorem readings_no_iteration {body : Expansion P} {most? : Option Nat} :
    Reading.silent 0 ∈
      (scope.readings languageWeight (.repetition body 0 most?) : Set (Reading W)) :=
  ⟨.iterations 0 [], .repetition (le_refl _) (by simp) (by simp), by simp⟩

/-- An iteration in front of others is one iteration more. -/
theorem readings_iteration {body : Expansion P} {least fewer : Nat} {most? fewerMost? : Option Nat}
    (hleast : least ≤ fewer + 1)
    (hmost : ∀ most ∈ most?, ∃ bound ∈ fewerMost?, bound + 1 ≤ most)
    (hfirst : first ∈ scope.readings languageWeight body)
    (hsecond : second ∈ scope.readings languageWeight (.repetition body fewer fewerMost?)) :
    first.append second ∈ scope.readings languageWeight (.repetition body least most?) := by
  obtain ⟨tree, htree, rfl⟩ := hfirst
  obtain ⟨rest, hrest, rfl⟩ := hsecond
  cases hrest with
  | repetition hfewer hfewerMost htrees =>
      rename_i trees
      refine ⟨.iterations least (tree :: trees), .repetition ?_ (fun most hmem => ?_)
        (List.forall_mem_cons.mpr ⟨htree, htrees⟩), reading_cons ..⟩
      · rw [List.length_cons]
        omega
      · obtain ⟨bound, hbound, hle⟩ := hmost most hmem
        have hlength := hfewerMost bound hbound
        rw [List.length_cons]
        omega

theorem readings_repetition_mono {body : Expansion P} {least more : Nat} {most? : Option Nat}
    (hle : least ≤ more) :
    (scope.readings languageWeight (.repetition body more most?) : Set (Reading W)) ⊆
      scope.readings languageWeight (.repetition body least most?) := by
  rintro _ ⟨tree, htree, rfl⟩
  cases htree with
  | repetition hmore hmost htrees =>
      exact ⟨.iterations least _, .repetition (hle.trans hmore) hmost htrees, rfl⟩

theorem readings_tagged {body : Expansion P} {tags : List Tag}
    (hfirst : first ∈ scope.readings languageWeight body) :
    first.mark (.ofList tags) ∈ scope.readings languageWeight (.tagged body tags) := by
  obtain ⟨tree, htree, rfl⟩ := hfirst
  exact ⟨.tagged tree tags, .tagged htree, reading_tagged ..⟩

end Scope

end SpeechGrammar
