import Mathlib.Algebra.Order.BigOperators.Group.Finset
import Mathlib.Data.Finite.Prod
import SpeechGrammar.Proofs.Automaton.Scoring

/-!
# Spreading labels with a stack

Labels can also be spread by working off a stack of states, onto which a state
comes back whenever its label gets better.  Whatever the order in which states
come on the stack at first, the stack is worked off in the end, and the labels
are those that rounds over all transitions find.  The reason is that a label is
the weight of a path that comes to no state twice: where a path comes back to a
state, it brings no more than what the state has had since the path left it.
-/

namespace SpeechGrammar

variable {P W : Type}

namespace Automaton

section Definitions

variable [LogWeight W]

/--
Follow an epsilon transition from a state of some weight.  The target comes on
the stack if that gives it a better label.
-/
def relaxAlong (weight : W) (progress : Labels W × List Nat) (step : Transition W) :
    Labels W × List Nat :=
  let (labels, stack) := progress
  let found := weight + step.weight
  let isBetter := decide ((labels.weight? step.target).getD LogWeight.floor < found)
  (labels.improve step.target found, if isBetter then step.target :: stack else stack)

/-- Follow all epsilon transitions that leave a state of some weight. -/
def relax (automaton : Automaton P W) (state : Nat) (weight : W) (progress : Labels W × List Nat) :
    Labels W × List Nat :=
  ((automaton.leaving state).filter (·.isEpsilon)).foldl (relaxAlong weight) progress

/-- Working off a stack of states leads from some labels to others. -/
inductive Relaxes (automaton : Automaton P W) : Labels W × List Nat → Labels W → Prop where
  | done (labels : Labels W) : Relaxes automaton (labels, []) labels
  | next {labels found : Labels W} {state : Nat} {stack : List Nat} {weight : W}
      (hlabel : labels.weight? state = some weight)
      (hrest : Relaxes automaton (automaton.relax state weight (labels, stack)) found) :
      Relaxes automaton (labels, state :: stack) found

/-- A stack of states is worked off in one way only. -/
theorem Relaxes.unique {automaton : Automaton P W} {progress : Labels W × List Nat}
    {found other : Labels W} (hfirst : automaton.Relaxes progress found)
    (hsecond : automaton.Relaxes progress other) : found = other := by
  induction hfirst with
  | done =>
      cases hsecond
      rfl
  | next hlabel _ ih =>
      cases hsecond with
      | next hother hrest =>
          obtain rfl := Option.some.inj (hlabel.symm.trans hother)
          exact ih hrest

end Definitions

end Automaton

namespace Labels

variable [ExactWeight W] {labels other : Labels W} {state : Nat} {weight : W}

omit [ExactWeight W] in
/-- Labels are the same if every state has the same one. -/
theorem ext (hsize : labels.size = other.size)
    (hsame : ∀ state, labels.weight? state = other.weight? state) : labels = other := by
  refine Array.ext hsize fun state hstate hother => ?_
  have hlabel := hsame state
  rwa [weight?, weight?, Array.getElem?_eq_getElem hstate, Array.getElem?_eq_getElem hother,
    Option.join_some, Option.join_some] at hlabel

/-- Labels that are right in the same sense are the same. -/
theorem eq_of_covers {reach : Nat → W → Prop} (hsize : labels.size = other.size)
    (hwithin : labels.Within reach) (hcovers : labels.Covers reach)
    (hotherWithin : other.Within reach) (hotherCovers : other.Covers reach) : labels = other := by
  refine ext hsize fun state => ?_
  cases hlabel : labels.weight? state with
  | none =>
      cases hfound : other.weight? state with
      | none => rfl
      | some weight =>
          obtain ⟨greatest, hgreatest, -⟩ := hcovers state weight (hotherWithin _ _ hfound)
          exact absurd (hlabel.symm.trans hgreatest) (Option.some_ne_none greatest).symm
  | some weight =>
      obtain ⟨middle, hmiddle, hle⟩ := hotherCovers state weight (hwithin _ _ hlabel)
      obtain ⟨greatest, hgreatest, hmore⟩ := hcovers state middle (hotherWithin _ _ hmiddle)
      obtain rfl := Option.some.inj (hlabel.symm.trans hgreatest)
      rw [hmiddle, le_antisymm hle hmore]

theorem weight?_improve_of_lt (hstate : state < labels.size)
    (hless : (labels.weight? state).getD LogWeight.floor < weight) (place : Nat) :
    (labels.improve state weight).weight? place =
      if place = state then some weight else labels.weight? place := by
  rw [weight?_improve hstate, max_eq_right hless.le]

end Labels

namespace Automaton

variable [ExactWeight W] {automaton : Automaton P W} {given labels found : Labels W}
  {stack : List Nat} {state : Nat} {weight : W}

/-! ## Labels come from paths without repetitions -/

/--
A label stems from a path that comes to no state twice, and no state that the
path comes to has a label of less than what the path brings there.
-/
def Traced (automaton : Automaton P W) (given labels : Labels W) (state : Nat) (weight : W) :
    Prop :=
  ∃ origin start steps, given.weight? origin = some start ∧
    PathIn automaton.transitions origin steps state ∧ wordsOf steps = [] ∧
    start + weightOf steps = weight ∧ (visited origin steps).Nodup ∧
    ∀ before middle, before <+: steps → PathIn automaton.transitions origin before middle →
      ∃ known, labels.weight? middle = some known ∧ start + weightOf before ≤ known

theorem traced_of_given (hbetter : labels.AtLeast given)
    (hgiven : given.weight? state = some weight) :
    automaton.Traced given labels state weight := by
  refine ⟨state, weight, [], hgiven, rfl, rfl, by simp, by simp [visited], ?_⟩
  intro before middle hprefix hpath
  obtain rfl := List.prefix_nil.mp hprefix
  obtain rfl := PathIn.nil_iff.mp hpath
  simpa using hbetter state weight hgiven

theorem Traced.mono (htraced : automaton.Traced given labels state weight)
    (hbetter : found.AtLeast labels) : automaton.Traced given found state weight := by
  obtain ⟨origin, start, steps, hstart, hpath, hsilent, hweight, hnodup, hprefixes⟩ := htraced
  refine ⟨origin, start, steps, hstart, hpath, hsilent, hweight, hnodup, ?_⟩
  intro before middle hprefix hbefore
  obtain ⟨known, hknown, hle⟩ := hprefixes before middle hprefix hbefore
  obtain ⟨greatest, hgreatest, hmore⟩ := hbetter middle known hknown
  exact ⟨greatest, hgreatest, hle.trans hmore⟩

theorem Traced.reach (htraced : automaton.Traced given labels state weight) :
    automaton.EpsilonReach given state weight := by
  obtain ⟨origin, start, steps, hstart, hpath, hsilent, hweight, -⟩ := htraced
  exact ⟨origin, start, steps, hstart, hpath, hsilent, hweight⟩

theorem Traced.reachIn (hwf : automaton.WellFormed) (hsize : given.size = automaton.stateCount)
    (htraced : automaton.Traced given labels state weight) :
    automaton.EpsilonReachIn given automaton.stateCount state weight := by
  obtain ⟨origin, start, steps, hstart, hpath, hsilent, hweight, hnodup, -⟩ := htraced
  have horigin : origin < automaton.stateCount := hsize ▸ Labels.lt_size_of_weight? hstart
  have hlength := hpath.length_lt_of_nodup hwf.target_lt horigin hnodup
  exact ⟨origin, start, steps, hstart, hpath, hsilent, hlength.le, hweight⟩

/-- A way that gives a state a better label has not come to this state before. -/
theorem Traced.extend (hwf : automaton.WellFormed) {step : Transition W}
    (hmem : step ∈ automaton.transitions) (hword : step.word? = none)
    (htraced : automaton.Traced given labels step.source weight) (hbetter : found.AtLeast labels)
    (hless : ∀ known, labels.weight? step.target = some known → known < weight + step.weight)
    (hfound : found.weight? step.target = some (weight + step.weight)) :
    automaton.Traced given found step.target (weight + step.weight) := by
  obtain ⟨origin, start, steps, hstart, hpath, hsilent, rfl, hnodup, hprefixes⟩ := htraced
  -- Otherwise the path up to the target, which is no worse, would have given it its label.
  have hnew : step.target ∉ visited origin steps := by
    intro hback
    obtain ⟨before, after, rfl, hbefore, hafter, -⟩ := hpath.split_at hback
    obtain ⟨known, hknown, hle⟩ := hprefixes before _ (List.prefix_append ..) hbefore
    refine absurd (hless known hknown) (not_lt.mpr ?_)
    have hloop : weightOf after + step.weight ≤ 0 :=
      add_nonpos (weightOf_nonpos fun other hother => hwf.nonpositive other (hafter.subset hother))
        (hwf.nonpositive step hmem)
    calc
      start + weightOf (before ++ after) + step.weight =
          start + weightOf before + (weightOf after + step.weight) := by
        rw [weightOf_append, ← add_assoc, ← add_assoc]
      _ ≤ start + weightOf before + 0 := add_le_add_right hloop _
      _ = start + weightOf before := add_zero _
      _ ≤ known := hle
  have hweight : start + weightOf (steps ++ [step]) = start + weightOf steps + step.weight := by
    rw [weightOf_append, weightOf_cons, weightOf_nil, add_zero, add_assoc]
  have hwhole : PathIn automaton.transitions origin (steps ++ [step]) step.target :=
    hpath.append (PathIn.single hmem)
  refine ⟨origin, start, steps ++ [step], hstart, hwhole, ?_, hweight, ?_, ?_⟩
  · rw [wordsOf_concat_none hword, hsilent]
  · have hvisited : visited origin (steps ++ [step]) =
        (visited origin steps).concat step.target := by simp [visited]
    rw [hvisited]
    exact hnodup.concat hnew
  · intro before middle hprefix hbefore
    rcases List.prefix_concat_iff.mp hprefix with rfl | hprefix
    · obtain rfl := hbefore.last_unique hwhole
      exact ⟨_, hfound, hweight.le⟩
    · obtain ⟨known, hknown, hle⟩ := hprefixes before middle hprefix hbefore
      obtain ⟨greatest, hgreatest, hmore⟩ := hbetter middle known hknown
      exact ⟨greatest, hgreatest, hle.trans hmore⟩

/-! ## Working off the stack -/

/-- How many of some weights are better than a label. -/
def room (weights : Finset W) (label? : Option W) : Nat :=
  (weights.filter fun weight => ∀ known ∈ label?, known < weight).card

/-- How much better all labels together can get. -/
def totalRoom (automaton : Automaton P W) (weights : Finset W) (labels : Labels W) : Nat :=
  ∑ state ∈ Finset.range automaton.stateCount, room weights (labels.weight? state)

theorem room_lt {weights : Finset W} {label? : Option W} (hweight : weight ∈ weights)
    (hbetter : ∀ known ∈ label?, known < weight) :
    room weights (some weight) < room weights label? := by
  refine Finset.card_lt_card (Finset.ssubset_iff_of_subset ?_ |>.mpr ⟨weight, ?_, ?_⟩)
  · intro other hother
    rw [Finset.mem_filter] at hother ⊢
    have hless : weight < other := hother.2 weight rfl
    exact ⟨hother.1, fun known hknown => (hbetter known hknown).trans hless⟩
  · exact Finset.mem_filter.mpr ⟨hweight, hbetter⟩
  · intro hsame
    exact lt_irrefl weight ((Finset.mem_filter.mp hsame).2 weight rfl)

/-- Improving a label leaves less room. -/
theorem totalRoom_improve_lt {weights : Finset W} (hstate : state < automaton.stateCount)
    (hweight : weight ∈ weights) (hbetter : ∀ known ∈ labels.weight? state, known < weight)
    (himproved : ∀ place, (labels.improve state weight).weight? place =
      if place = state then some weight else labels.weight? place) :
    automaton.totalRoom weights (labels.improve state weight) <
      automaton.totalRoom weights labels := by
  have hless := room_lt hweight hbetter
  refine Finset.sum_lt_sum (fun place _ => ?_) ⟨state, Finset.mem_range.mpr hstate, ?_⟩
  · rw [himproved]
    split
    · rename_i hplace
      exact hplace ▸ hless.le
    · exact le_refl _
  · rwa [himproved, if_pos rfl]

omit [ExactWeight W] in
/-- Lists of a bounded length of some transitions are finitely many. -/
theorem finite_steps (transitions : List (Transition W)) (bound : Nat) :
    {steps : List (Transition W) | steps ⊆ transitions ∧ steps.length ≤ bound}.Finite := by
  induction bound with
  | zero =>
      refine (Set.finite_singleton []).subset fun steps hsteps => ?_
      exact List.length_eq_zero_iff.mp (Nat.le_zero.mp hsteps.2)
  | succ bound ih =>
      have hcons := Set.Finite.image2 List.cons transitions.finite_toSet ih
      refine (hcons.insert []).subset ?_
      rintro steps ⟨hsubset, hlength⟩
      cases steps with
      | nil => exact Set.mem_insert _ _
      | cons step steps =>
          obtain ⟨hstep, hrest⟩ := List.cons_subset.mp hsubset
          have hshorter : steps.length ≤ bound := Nat.le_of_succ_le_succ hlength
          exact Set.mem_insert_of_mem _ ⟨step, hstep, steps, ⟨hrest, hshorter⟩, rfl⟩

/-- Ways of a bounded number of steps have finitely many weights. -/
theorem finite_epsilonReachIn (automaton : Automaton P W) (given : Labels W) (bound : Nat) :
    {weight | ∃ state, automaton.EpsilonReachIn given bound state weight}.Finite := by
  have hstarts : {start | ∃ origin, given.weight? origin = some start}.Finite := by
    refine (given.toList.filterMap id).finite_toSet.subset ?_
    rintro start ⟨origin, hstart⟩
    have hlabel : some start ∈ given.toList :=
      Array.mem_toList_iff.mpr (Array.mem_of_getElem? (Option.join_eq_some_iff.mp hstart))
    exact List.mem_filterMap.mpr ⟨some start, hlabel, rfl⟩
  have hsteps := finite_steps automaton.transitions bound
  refine (Set.Finite.image2 (fun start steps => start + weightOf steps) hstarts hsteps).subset ?_
  rintro weight ⟨state, origin, start, steps, hstart, hpath, -, hlength, rfl⟩
  exact ⟨start, ⟨origin, hstart⟩, steps, ⟨hpath.subset, hlength⟩, rfl⟩

/--
What holds while a stack is worked off: where a label can still bring a better
one to the next state, its state is on the stack, or the transition is one of
those that are being followed.
-/
structure Relaxing (automaton : Automaton P W) (given labels : Labels W) (stack : List Nat)
    (rest : List (Transition W)) : Prop where
  size : labels.size = automaton.stateCount
  better : labels.AtLeast given
  labelled : ∀ state ∈ stack, ∃ weight, labels.weight? state = some weight
  traced : ∀ state weight, labels.weight? state = some weight →
    automaton.Traced given labels state weight
  followed : ∀ step ∈ automaton.transitions, step.word? = none →
    ∀ weight, labels.weight? step.source = some weight →
      step.source ∈ stack ∨ step ∈ rest ∨
        ∃ greatest, labels.weight? step.target = some greatest ∧ weight + step.weight ≤ greatest

theorem relaxAlong_of_lt {step : Transition W}
    (hless : (labels.weight? step.target).getD LogWeight.floor < weight + step.weight) :
    relaxAlong weight (labels, stack) step =
      (labels.improve step.target (weight + step.weight), step.target :: stack) := by
  simp [relaxAlong, hless]

/-- A label that is no worse stays. -/
theorem relaxAlong_of_le {step : Transition W} {known : W}
    (hknown : labels.weight? step.target = some known) (hle : weight + step.weight ≤ known) :
    relaxAlong weight (labels, stack) step = (labels, stack) := by
  have htarget := Labels.lt_size_of_weight? hknown
  have hsame : labels.improve step.target (weight + step.weight) = labels := by
    refine Labels.ext Labels.size_improve fun place => ?_
    rw [Labels.weight?_improve htarget]
    split
    · rename_i hplace
      rw [hplace, hknown, Option.getD_some, max_eq_left hle]
    · rfl
  simp [relaxAlong, hsame, hknown, not_lt.mpr hle]

/-- Stacking a state whose label got better keeps what holds. -/
theorem Relaxing.improve (hwf : automaton.WellFormed) {step : Transition W}
    {rest : List (Transition W)} (hrelaxing : automaton.Relaxing given labels stack (step :: rest))
    (hmem : step ∈ automaton.transitions) (hword : step.word? = none)
    (hlabel : labels.weight? step.source = some weight)
    (hless : (labels.weight? step.target).getD LogWeight.floor < weight + step.weight) :
    automaton.Relaxing given (labels.improve step.target (weight + step.weight))
        (step.target :: stack) rest ∧
      (labels.improve step.target (weight + step.weight)).weight? step.source = some weight := by
  have htarget : step.target < labels.size := hrelaxing.size ▸ hwf.target_lt step hmem
  have hbetter : (labels.improve step.target (weight + step.weight)).AtLeast labels :=
    Labels.improve_atLeast htarget
  have hplaces := Labels.weight?_improve_of_lt htarget hless
  have hfound : (labels.improve step.target (weight + step.weight)).weight? step.target =
      some (weight + step.weight) := (hplaces step.target).trans (if_pos rfl)
  have hother : ∀ place, place ≠ step.target →
      (labels.improve step.target (weight + step.weight)).weight? place = labels.weight? place :=
    fun place hplace => (hplaces place).trans (if_neg hplace)
  have hknown : ∀ known, labels.weight? step.target = some known →
      known < weight + step.weight := by
    intro known hknown
    rwa [hknown, Option.getD_some] at hless
  have hsource : step.source ≠ step.target := by
    intro hsame
    refine absurd (hknown weight (hsame ▸ hlabel)) (not_lt.mpr ?_)
    exact add_le_of_nonpos_right (hwf.nonpositive step hmem)
  refine ⟨?_, (hother _ hsource).trans hlabel⟩
  constructor
  case size => exact Labels.size_improve.trans hrelaxing.size
  case better => exact hrelaxing.better.trans hbetter
  case labelled =>
    refine List.forall_mem_cons.mpr ⟨⟨_, hfound⟩, fun place hplace => ?_⟩
    obtain ⟨known, hlabelled⟩ := hrelaxing.labelled place hplace
    obtain ⟨greatest, hgreatest, -⟩ := hbetter place known hlabelled
    exact ⟨greatest, hgreatest⟩
  case traced =>
    intro place label hlabelled
    by_cases hplace : place = step.target
    · subst hplace
      obtain rfl := Option.some.inj (hfound.symm.trans hlabelled)
      exact (hrelaxing.traced _ _ hlabel).extend hwf hmem hword hbetter hknown hfound
    · rw [hother place hplace] at hlabelled
      exact (hrelaxing.traced place label hlabelled).mono hbetter
  case followed =>
    intro next hnext hsilent label hlabelled
    by_cases hplace : next.source = step.target
    · exact .inl (hplace ▸ List.mem_cons_self ..)
    · rw [hother _ hplace] at hlabelled
      rcases hrelaxing.followed next hnext hsilent label hlabelled with hstacked | hrest | hdone
      · exact .inl (List.mem_cons_of_mem _ hstacked)
      · rcases List.mem_cons.mp hrest with rfl | hrest
        · obtain rfl := Option.some.inj (hlabel.symm.trans hlabelled)
          exact .inr (.inr ⟨_, hfound, le_refl _⟩)
        · exact .inr (.inl hrest)
      · obtain ⟨known, hknown, hle⟩ := hdone
        obtain ⟨greatest, hgreatest, hmore⟩ := hbetter _ known hknown
        exact .inr (.inr ⟨greatest, hgreatest, hle.trans hmore⟩)

/-- A transition that brings nothing better has been followed. -/
theorem Relaxing.skip {step : Transition W} {rest : List (Transition W)} {known : W}
    (hrelaxing : automaton.Relaxing given labels stack (step :: rest))
    (hlabel : labels.weight? step.source = some weight)
    (hknown : labels.weight? step.target = some known) (hle : weight + step.weight ≤ known) :
    automaton.Relaxing given labels stack rest := by
  refine { hrelaxing with followed := fun next hnext hsilent label hlabelled => ?_ }
  rcases hrelaxing.followed next hnext hsilent label hlabelled with hstacked | hrest | hdone
  · exact .inl hstacked
  · rcases List.mem_cons.mp hrest with rfl | hrest
    · obtain rfl := Option.some.inj (hlabel.symm.trans hlabelled)
      exact .inr (.inr ⟨known, hknown, hle⟩)
    · exact .inr (.inl hrest)
  · exact .inr (.inr hdone)

/-- Taking a state from the stack leaves the transitions out of it to be followed. -/
theorem Relaxing.pop (hrelaxing : automaton.Relaxing given labels (state :: stack) []) :
    automaton.Relaxing given labels stack ((automaton.leaving state).filter (·.isEpsilon)) := by
  refine { hrelaxing with
    labelled := (List.forall_mem_cons.mp hrelaxing.labelled).2
    followed := fun next hnext hsilent label hlabelled => ?_ }
  rcases hrelaxing.followed next hnext hsilent label hlabelled with hstacked | hrest | hdone
  · rcases List.mem_cons.mp hstacked with rfl | hstacked
    · refine .inr (.inl ?_)
      simp [leaving, hnext, Transition.isEpsilon, hsilent]
    · exact .inl hstacked
  · cases hrest
  · exact .inr (.inr hdone)

section Room

variable (hwf : automaton.WellFormed) (hsize : given.size = automaton.stateCount)
  (hfinite : ∀ state weight, given.weight? state = some weight → LogWeight.floor < weight)
  {weights : Finset W} (hweights : ∀ state weight,
    automaton.EpsilonReachIn given automaton.stateCount state weight → weight ∈ weights)

include hwf hsize hfinite hweights

/-- Following a transition keeps what holds, and what is stacked leaves less room. -/
theorem Relaxing.relaxAlong {step : Transition W} {rest : List (Transition W)}
    (hrelaxing : automaton.Relaxing given labels stack (step :: rest))
    (hmem : step ∈ automaton.transitions) (hword : step.word? = none)
    (hlabel : labels.weight? step.source = some weight) {after : Labels W} {more : List Nat}
    (hafter : Automaton.relaxAlong weight (labels, stack) step = (after, more)) :
    automaton.Relaxing given after more rest ∧ after.weight? step.source = some weight ∧
      automaton.totalRoom weights after + more.length ≤
        automaton.totalRoom weights labels + stack.length := by
  have htarget : step.target < labels.size := hrelaxing.size ▸ hwf.target_lt step hmem
  rcases lt_or_ge ((labels.weight? step.target).getD LogWeight.floor) (weight + step.weight) with
    hless | hle
  · rw [relaxAlong_of_lt hless] at hafter
    obtain ⟨rfl, rfl⟩ := Prod.mk.inj hafter
    obtain ⟨hnext, hsource⟩ := hrelaxing.improve hwf hmem hword hlabel hless
    refine ⟨hnext, hsource, ?_⟩
    have hfound : weight + step.weight ∈ weights := by
      refine hweights _ _ ((hnext.traced step.target _ ?_).reachIn hwf hsize)
      rw [Labels.weight?_improve_of_lt htarget hless, if_pos rfl]
    have hroom := totalRoom_improve_lt (hwf.target_lt step hmem) hfound
      (fun known hknown => by rwa [Option.mem_def.mp hknown, Option.getD_some] at hless)
      (Labels.weight?_improve_of_lt htarget hless)
    rw [List.length_cons]
    omega
  · cases hknown : labels.weight? step.target with
    | none =>
        have hreach := (hrelaxing.traced _ _ hlabel).reach.step hmem hword
        rw [hknown, Option.getD_none] at hle
        exact absurd (hreach.floor_lt hwf hfinite) (not_lt.mpr hle)
    | some known =>
        rw [hknown, Option.getD_some] at hle
        rw [relaxAlong_of_le hknown hle] at hafter
        obtain ⟨rfl, rfl⟩ := Prod.mk.inj hafter
        exact ⟨hrelaxing.skip hlabel hknown hle, hlabel, le_refl _⟩

/-- Following transitions that leave a state one after another keeps what holds. -/
theorem Relaxing.foldl {rest : List (Transition W)}
    (hrelaxing : automaton.Relaxing given labels stack rest)
    (hrest : ∀ step ∈ rest, step ∈ automaton.transitions ∧ step.word? = none ∧
      step.source = state)
    (hlabel : labels.weight? state = some weight) {after : Labels W} {more : List Nat}
    (hafter : rest.foldl (Automaton.relaxAlong weight) (labels, stack) = (after, more)) :
    automaton.Relaxing given after more [] ∧
      automaton.totalRoom weights after + more.length ≤
        automaton.totalRoom weights labels + stack.length := by
  induction rest generalizing labels stack with
  | nil =>
      obtain ⟨rfl, rfl⟩ := Prod.mk.inj hafter
      exact ⟨hrelaxing, le_refl _⟩
  | cons step rest ih =>
      obtain ⟨⟨hmem, hword, rfl⟩, hothers⟩ := List.forall_mem_cons.mp hrest
      rw [List.foldl_cons] at hafter
      obtain ⟨hnext, hsource, hroom⟩ :=
        hrelaxing.relaxAlong hwf hsize hfinite hweights hmem hword hlabel rfl
      obtain ⟨hlast, hrestRoom⟩ := ih hnext hothers hsource hafter
      exact ⟨hlast, hrestRoom.trans hroom⟩

/--
The stack is worked off in the end.  Each state that is taken from it leaves
less room or fewer states, as a state is only put there for room that is used.
-/
theorem Relaxing.exists_relaxes (hrelaxing : automaton.Relaxing given labels stack []) :
    ∃ found, automaton.Relaxes (labels, stack) found ∧ automaton.Relaxing given found [] [] := by
  induction hmeasure : automaton.totalRoom weights labels + stack.length using
    Nat.strong_induction_on generalizing labels stack with
  | h measure ih =>
      subst hmeasure
      cases stack with
      | nil => exact ⟨labels, .done labels, hrelaxing⟩
      | cons state stack =>
          obtain ⟨weight, hlabel⟩ := hrelaxing.labelled state (List.mem_cons_self ..)
          have hrest : ∀ step ∈ (automaton.leaving state).filter (·.isEpsilon),
              step ∈ automaton.transitions ∧ step.word? = none ∧ step.source = state := by
            simp +contextual [leaving, Transition.isEpsilon]
          obtain ⟨⟨after, more⟩, hafter⟩ : ∃ progress,
              automaton.relax state weight (labels, stack) = progress := ⟨_, rfl⟩
          obtain ⟨hnext, hroom⟩ :=
            hrelaxing.pop.foldl hwf hsize hfinite hweights hrest hlabel hafter
          rw [List.length_cons] at ih
          obtain ⟨found, hfound, hlast⟩ := ih _ (by omega) hnext rfl
          exact ⟨found, .next hlabel (hafter ▸ hfound), hlast⟩

end Room

/-- What holds at first, when the states with labels are on the stack. -/
theorem relaxing_of_labelled (hsize : given.size = automaton.stateCount)
    (hstack : ∀ state, state ∈ stack ↔ (given.weight? state).isSome) :
    automaton.Relaxing given given stack [] where
  size := hsize
  better := .refl given
  labelled := fun state hstate => Option.isSome_iff_exists.mp ((hstack state).mp hstate)
  traced := fun _ _ hlabel => traced_of_given (.refl given) hlabel
  followed := fun step _ _ _ hlabel => .inl ((hstack step.source).mpr (by rw [hlabel]; rfl))

/-- Whatever the order of the states with labels, working them off spreads the labels. -/
theorem relaxes_iff (hwf : automaton.WellFormed) (hsize : given.size = automaton.stateCount)
    (hfinite : ∀ state weight, given.weight? state = some weight → LogWeight.floor < weight)
    (hstack : ∀ state, state ∈ stack ↔ (given.weight? state).isSome) :
    automaton.Relaxes (given, stack) found ↔ found = automaton.spread given := by
  have hbounded := finite_epsilonReachIn automaton given automaton.stateCount
  have hweights : ∀ state weight, automaton.EpsilonReachIn given automaton.stateCount state weight →
      weight ∈ hbounded.toFinset :=
    fun state weight hreach => hbounded.mem_toFinset.mpr ⟨state, hreach⟩
  obtain ⟨last, hlast, hrelaxing⟩ :=
    (relaxing_of_labelled hsize hstack).exists_relaxes hwf hsize hfinite hweights
  have hsettled : automaton.Settled last := by
    intro step hmem hword weight hlabel
    rcases hrelaxing.followed step hmem hword weight hlabel with hstacked | hrest | hdone
    · cases hstacked
    · cases hrest
    · exact hdone
  obtain ⟨hsizeSpread, hwithin, hcovers⟩ := spread_spec hwf hsize hfinite
  have heq : last = automaton.spread given :=
    Labels.eq_of_covers (hrelaxing.size.trans hsizeSpread.symm)
      (fun state weight hlabel => (hrelaxing.traced state weight hlabel).reach)
      (hsettled.covers hrelaxing.better) hwithin hcovers
  rw [← heq]
  exact ⟨fun hfound => hfound.unique hlast, fun hfound => hfound ▸ hlast⟩

end Automaton

end SpeechGrammar
