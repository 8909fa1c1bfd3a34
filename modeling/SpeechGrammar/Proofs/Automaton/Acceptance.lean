import Mathlib.Data.List.Induction
import SpeechGrammar.Proofs.Automaton.Trim

/-!
# What is accepted where weights may be the least one

A state that is reached with the least weight counts as reached.  But epsilon
transitions are followed from it only if it was reached by a token, so of two
epsilon transitions in a row the second is not followed where the path weighs
the least weight behind the first.  Closing an automaton follows epsilon
transitions whatever they weigh.  So the closed automaton accepts what is read
along any accepting path, and the automaton itself only what is read along a
path that is pursued to its end.  Which weights are the greatest does not
matter to this, and nor does it if weights are positive.
-/

namespace SpeechGrammar

variable {P W : Type}

/-- Weights of which the least one stays the least, whatever is added to it. -/
class AbsorbingWeight (W : Type) extends ExactWeight W where
  floor_add (weight : W) : LogWeight.floor + weight = (LogWeight.floor : W)

instance {R : Type} [AddCommGroup R] [LinearOrder R] [IsOrderedAddMonoid R] :
    AbsorbingWeight (WithBot R) where
  floor_add := WithBot.bot_add

section Weights

variable [AbsorbingWeight W] {steps before after : List (Transition W)} {step : Transition W}

/-- A sum is above the least weight exactly if both of its parts are. -/
theorem AbsorbingWeight.floor_lt_add_iff {first second : W} :
    LogWeight.floor < first + second ↔ LogWeight.floor < first ∧ LogWeight.floor < second := by
  constructor
  · intro hsum
    constructor
    · refine lt_of_le_of_ne (ExactWeight.floor_le first) fun heq => hsum.ne' ?_
      rw [← heq, floor_add]
    · refine lt_of_le_of_ne (ExactWeight.floor_le second) fun heq => hsum.ne' ?_
      rw [← heq, add_comm, floor_add]
  · exact fun ⟨hfirst, hsecond⟩ => ExactWeight.floor_lt_add hfirst hsecond

theorem floor_lt_weightOf_append_iff :
    LogWeight.floor < weightOf (before ++ after) ↔
      LogWeight.floor < weightOf before ∧ LogWeight.floor < weightOf after := by
  rw [weightOf_append, AbsorbingWeight.floor_lt_add_iff]

theorem floor_lt_weightOf_iff :
    LogWeight.floor < weightOf steps ↔ ∀ step ∈ steps, LogWeight.floor < step.weight := by
  refine ⟨fun hsteps => ?_, floor_lt_weightOf⟩
  induction steps with
  | nil => exact List.forall_mem_nil _
  | cons step steps ih =>
      rw [weightOf_cons, AbsorbingWeight.floor_lt_add_iff] at hsteps
      exact List.forall_mem_cons.mpr ⟨hsteps.1, ih hsteps.2⟩

/--
Behind an epsilon transition up to which a path weighs the least weight, no other epsilon
transition comes next.
-/
def Pursued (steps : List (Transition W)) : Prop :=
  ∀ before step next after, steps = before ++ step :: next :: after →
    step.word? = none → next.word? = none → LogWeight.floor < weightOf (before ++ [step])

/-- Steps that do not end with an epsilon transition. -/
def EndsAloud (steps : List (Transition W)) : Prop :=
  ∀ before step, steps = before ++ [step] → step.word? ≠ none

theorem Pursued.of_append (hpursued : Pursued (before ++ after)) : Pursued before := by
  rintro earlier step next later rfl
  exact hpursued earlier step next (later ++ after) (by simp)

theorem pursued_of_floor_lt (hsteps : LogWeight.floor < weightOf steps) : Pursued steps := by
  rintro earlier step next later rfl - -
  rw [List.append_cons] at hsteps
  exact (floor_lt_weightOf_append_iff.mp hsteps).1

/-- One more step is pursued unless it makes two epsilon transitions behind the least weight. -/
theorem Pursued.concat (hpursued : Pursued steps)
    (hstep : step.word? ≠ none ∨ EndsAloud steps ∨ LogWeight.floor < weightOf steps) :
    Pursued (steps ++ [step]) := by
  intro earlier first second later heq hfirst hsecond
  rcases List.eq_nil_or_concat later with rfl | ⟨later, last, rfl⟩
  · have heq : steps ++ [step] = (earlier ++ [first]) ++ [second] := by simpa using heq
    obtain ⟨rfl, hlast⟩ := List.append_inj' heq rfl
    obtain rfl := List.singleton_inj.mp hlast
    rcases hstep with hword | hloud | hweight
    · exact absurd hsecond hword
    · exact absurd hfirst (hloud earlier first rfl)
    · exact hweight
  · have heq : steps ++ [step] = (earlier ++ first :: second :: later) ++ [last] := by
      simpa using heq
    obtain ⟨rfl, -⟩ := List.append_inj' heq rfl
    exact hpursued earlier first second later rfl hfirst hsecond

/-- What comes before one more epsilon transition of pursued steps ends aloud or is not least. -/
theorem Pursued.endsAloud_or_floor_lt (hpursued : Pursued (steps ++ [step]))
    (hword : step.word? = none) : EndsAloud steps ∨ LogWeight.floor < weightOf steps := by
  rcases List.eq_nil_or_concat steps with rfl | ⟨before, last, rfl⟩
  · exact .inr ExactWeight.floor_lt_zero
  · rw [List.concat_eq_append] at *
    cases hlast : last.word? with
    | none => exact .inr (hpursued before last step [] (by simp) hlast hword)
    | some word =>
        refine .inl fun earlier other heq => ?_
        obtain ⟨-, hsame⟩ := List.append_inj' heq rfl
        rw [← List.singleton_inj.mp hsame, hlast]
        exact Option.some_ne_none word

omit [AbsorbingWeight W] in
theorem endsAloud_nil : EndsAloud ([] : List (Transition W)) := by
  intro before step heq
  simp at heq

omit [AbsorbingWeight W] in
theorem endsAloud_concat (hword : step.word? ≠ none) : EndsAloud (steps ++ [step]) := by
  intro before last heq
  obtain ⟨-, hlast⟩ := List.append_inj' heq rfl
  rwa [← List.singleton_inj.mp hlast]

omit [AbsorbingWeight W] in
theorem EndsAloud.eq_nil (hloud : EndsAloud steps) (hsilent : wordsOf steps = []) :
    steps = [] := by
  rcases List.eq_nil_or_concat steps with rfl | ⟨before, step, rfl⟩
  · rfl
  · rw [List.concat_eq_append] at *
    exact absurd (wordsOf_eq_nil_iff.mp hsilent step (by simp)) (hloud before step rfl)

omit [AbsorbingWeight W] in
/-- Steps that do not end with an epsilon transition read the last of their words last. -/
theorem EndsAloud.exists_concat (hloud : EndsAloud steps) {tokens : List String} {token : String}
    (hwords : wordsOf steps = tokens ++ [token]) :
    ∃ before step, steps = before ++ [step] ∧ wordsOf before = tokens ∧
      step.word? = some token := by
  obtain ⟨before, step, after, rfl, hbefore, hword, hsilent⟩ := wordsOf_eq_append_singleton hwords
  rcases List.eq_nil_or_concat after with rfl | ⟨later, last, rfl⟩
  · exact ⟨before, step, rfl, hbefore, hword⟩
  · rw [List.concat_eq_append] at *
    exact absurd (wordsOf_eq_nil_iff.mp hsilent last (by simp))
      (hloud (before ++ step :: later) last (by simp))

omit [AbsorbingWeight W] in
theorem exists_endsAloud_append (steps : List (Transition W)) :
    ∃ before after, steps = before ++ after ∧ EndsAloud before ∧ wordsOf after = [] := by
  induction steps using List.reverseRecOn with
  | nil => exact ⟨[], [], rfl, endsAloud_nil, rfl⟩
  | append_singleton steps step ih =>
      cases hword : step.word? with
      | none =>
          obtain ⟨before, after, rfl, hloud, hsilent⟩ := ih
          refine ⟨before, after ++ [step], List.append_assoc .., hloud, ?_⟩
          rw [wordsOf_concat_none hword, hsilent]
      | some word =>
          refine ⟨steps ++ [step], [], (List.append_nil _).symm, endsAloud_concat ?_, rfl⟩
          exact hword ▸ Option.some_ne_none word

end Weights

def Labels.IsLit [LogWeight W] (labels : Labels W) (state : Nat) : Prop :=
  ∃ weight, labels.weight? state = some weight ∧ LogWeight.floor < weight

theorem Labels.AtLeast.isLit [ExactWeight W] {labels other : Labels W} {state : Nat}
    (hbetter : other.AtLeast labels) (hlit : labels.IsLit state) : other.IsLit state := by
  obtain ⟨weight, hlabel, hweight⟩ := hlit
  obtain ⟨greatest, hgreatest, hle⟩ := hbetter state weight hlabel
  exact ⟨greatest, hgreatest, hweight.trans_le hle⟩

theorem Labels.AtLeast.isSome [ExactWeight W] {labels other : Labels W} {state : Nat}
    (hbetter : other.AtLeast labels) (hsome : (labels.weight? state).isSome = true) :
    (other.weight? state).isSome = true := by
  obtain ⟨weight, hlabel⟩ := Option.isSome_iff_exists.mp hsome
  obtain ⟨greatest, hgreatest, -⟩ := hbetter state weight hlabel
  rw [hgreatest]
  rfl

namespace Automaton

variable [AbsorbingWeight W] {automaton : Automaton P W} {given labels : Labels W}
  {tokens : List String} {state : Nat} {weight : W}

/-! ## Spreading -/

/-- Epsilon transitions are followed from a state that was given or is reached above the floor. -/
def Opens (automaton : Automaton P W) (given : Labels W) (state : Nat) : Prop :=
  (given.weight? state).isSome = true ∨
    ∃ weight, LogWeight.floor < weight ∧ automaton.EpsilonReach given state weight

/--
A state is given, or reached by an epsilon transition that is followed; if it
has more than the least weight, that is the weight of a way to reach it.
-/
def SpreadsTo (automaton : Automaton P W) (given : Labels W) (state : Nat) (weight : W) : Prop :=
  ((given.weight? state).isSome = true ∨ ∃ step ∈ automaton.transitions,
      step.word? = none ∧ step.target = state ∧ automaton.Opens given step.source) ∧
    (LogWeight.floor < weight → automaton.EpsilonReach given state weight)

theorem epsilonClosed_spreadsTo (automaton : Automaton P W) (given : Labels W) :
    EpsilonClosed given automaton.transitions (automaton.SpreadsTo given) := by
  intro step weight hmem hword hsource hopen
  refine ⟨.inr ⟨step, hmem, hword, rfl, ?_⟩, fun hweight => ?_⟩
  · exact hopen.imp_right fun hweight => ⟨weight, hweight, hsource.2 hweight⟩
  · exact (hsource.2 (AbsorbingWeight.floor_lt_add_iff.mp hweight).1).step hmem hword

/-- Labels have whatever epsilon transitions lead to from what is given. -/
structure Completes (automaton : Automaton P W) (given labels : Labels W) : Prop where
  lit : ∀ state weight, automaton.EpsilonReach given state weight → LogWeight.floor < weight →
    labels.IsLit state
  marked : ∀ step ∈ automaton.transitions, step.word? = none → automaton.Opens given step.source →
    (labels.weight? step.target).isSome = true

/-- Labels have what no more epsilon transitions lead to than a number of rounds. -/
structure CompletesIn (automaton : Automaton P W) (given labels : Labels W) (bound : Nat) :
    Prop where
  lit : ∀ state weight, automaton.EpsilonReachIn given bound state weight →
    LogWeight.floor < weight → labels.IsLit state
  marked : ∀ step ∈ automaton.transitions, step.word? = none →
    (∃ fewer < bound, (given.weight? step.source).isSome = true ∨ ∃ weight,
      LogWeight.floor < weight ∧ automaton.EpsilonReachIn given fewer step.source weight) →
    (labels.weight? step.target).isSome = true

/-- Labels that no transition improves have all there is to reach. -/
theorem completes_of_idle (hnumbered : automaton.Numbered)
    (hsize : labels.size = automaton.stateCount) (hbetter : labels.AtLeast given)
    (hidle : automaton.transitions.any (improvesAlong given labels) = false) :
    automaton.Completes given labels := by
  have hlit : ∀ steps origin state, PathIn automaton.transitions origin steps state →
      wordsOf steps = [] → LogWeight.floor < weightOf steps → labels.IsLit origin →
      labels.IsLit state := by
    intro steps
    induction steps with
    | nil =>
        intro origin state hpath _ _ horigin
        rwa [← PathIn.nil_iff.mp hpath]
    | cons step steps ih =>
        rintro origin state ⟨hmem, rfl, hrest⟩ hsilent hsteps ⟨weight, hlabel, hweight⟩
        have hword := wordsOf_eq_nil_iff.mp hsilent step (List.mem_cons_self ..)
        rw [weightOf_cons, AbsorbingWeight.floor_lt_add_iff] at hsteps
        obtain ⟨greatest, hgreatest, hle⟩ :=
          exists_label_of_idle hnumbered hsize hidle hmem hword hlabel (.inr hweight)
        exact ih step.target state hrest (wordsOf_cons_none hword steps ▸ hsilent) hsteps.2
          ⟨greatest, hgreatest, (ExactWeight.floor_lt_add hweight hsteps.1).trans_le hle⟩
  have hreach : ∀ state weight, automaton.EpsilonReach given state weight →
      LogWeight.floor < weight → labels.IsLit state := by
    rintro state weight ⟨origin, start, steps, hstart, hpath, hsilent, rfl⟩ hweight
    obtain ⟨hgiven, hsteps⟩ := AbsorbingWeight.floor_lt_add_iff.mp hweight
    exact hlit steps origin state hpath hsilent hsteps (hbetter.isLit ⟨start, hstart, hgiven⟩)
  refine ⟨hreach, fun step hmem hword hopens => ?_⟩
  obtain ⟨weight, hlabel, hopen⟩ : ∃ weight, labels.weight? step.source = some weight ∧
      ((given.weight? step.source).isSome = true ∨ LogWeight.floor < weight) := by
    rcases hopens with hsome | ⟨weight, hweight, hsource⟩
    · obtain ⟨weight, hlabel⟩ := Option.isSome_iff_exists.mp (hbetter.isSome hsome)
      exact ⟨weight, hlabel, .inl hsome⟩
    · obtain ⟨label, hlabel, hless⟩ := hreach step.source weight hsource hweight
      exact ⟨label, hlabel, .inr hless⟩
  obtain ⟨greatest, hgreatest, -⟩ :=
    exists_label_of_idle hnumbered hsize hidle hmem hword hlabel hopen
  rw [hgreatest]
  rfl

/-- One more round completes paths of one more step. -/
theorem CompletesIn.round (hnumbered : automaton.Numbered)
    (hsize : labels.size = automaton.stateCount) (hbetter : labels.AtLeast given)
    (hwithin : labels.Within (automaton.SpreadsTo given)) {bound : Nat}
    (hcompletes : automaton.CompletesIn given labels bound) :
    automaton.CompletesIn given (automaton.transitions.foldl (followEpsilon given) labels)
      (bound + 1) := by
  obtain ⟨-, -, hmore, hdone⟩ :=
    foldl_followEpsilon_spec (List.Subset.refl automaton.transitions)
      (fun step hstep => hsize ▸ hnumbered.target_lt step hstep)
      (automaton.epsilonClosed_spreadsTo given) hwithin
  constructor
  case lit =>
    rintro state weight ⟨origin, start, steps, hstart, hpath, hsilent, hlength, rfl⟩ hweight
    rcases List.eq_nil_or_concat steps with rfl | ⟨before, step, rfl⟩
    · exact hmore.isLit (hcompletes.lit state _
        ⟨origin, start, [], hstart, hpath, hsilent, Nat.zero_le _, rfl⟩ hweight)
    · rw [List.concat_eq_append] at *
      obtain ⟨middle, hbefore, hmem, rfl, rfl⟩ := PathIn.append_iff.mp hpath
      rw [wordsOf_append, List.append_eq_nil_iff] at hsilent
      have hword := wordsOf_eq_nil_iff.mp hsilent.2 step (List.mem_singleton_self _)
      rw [weightOf_append, weightOf_cons, weightOf_nil, add_zero, ← add_assoc,
        AbsorbingWeight.floor_lt_add_iff] at hweight
      obtain ⟨label, hlabel, hless⟩ := hcompletes.lit step.source (start + weightOf before)
        ⟨origin, start, before, hstart, hbefore, hsilent.1, by simpa using hlength, rfl⟩ hweight.1
      obtain ⟨greatest, hgreatest, hle⟩ := hdone step hmem hword label hlabel (.inr hless)
      exact ⟨greatest, hgreatest, (ExactWeight.floor_lt_add hless hweight.2).trans_le hle⟩
  case marked =>
    rintro step hmem hword ⟨fewer, hfewer, hopens⟩
    obtain ⟨label, hlabel, hopen⟩ : ∃ label, labels.weight? step.source = some label ∧
        ((given.weight? step.source).isSome = true ∨ LogWeight.floor < label) := by
      rcases hopens with hsome | ⟨weight, hweight, origin, start, steps, hstart, hpath, hsilent,
        hlength, hsum⟩
      · obtain ⟨label, hlabel⟩ := Option.isSome_iff_exists.mp (hbetter.isSome hsome)
        exact ⟨label, hlabel, .inl hsome⟩
      · obtain ⟨label, hlabel, hless⟩ := hcompletes.lit step.source weight
          ⟨origin, start, steps, hstart, hpath, hsilent, by omega, hsum⟩ hweight
        exact ⟨label, hlabel, .inr hless⟩
    obtain ⟨greatest, hgreatest, -⟩ := hdone step hmem hword label hlabel hopen
    rw [hgreatest]
    rfl

/-- Settling reaches what there is, or what is reached in as many steps as rounds. -/
theorem settleLabels_completes (hnumbered : automaton.Numbered) (rounds : Nat) {bound : Nat}
    (hsize : labels.size = automaton.stateCount)
    (hwithin : labels.Within (automaton.SpreadsTo given)) (hbetter : labels.AtLeast given)
    (hcompletes : automaton.CompletesIn given labels bound) :
    (automaton.settleLabels given rounds labels).size = automaton.stateCount ∧
      (automaton.settleLabels given rounds labels).Within (automaton.SpreadsTo given) ∧
      (automaton.settleLabels given rounds labels).AtLeast given ∧
      (automaton.Completes given (automaton.settleLabels given rounds labels) ∨
        automaton.CompletesIn given (automaton.settleLabels given rounds labels)
          (bound + rounds)) := by
  induction rounds generalizing labels bound with
  | zero => exact ⟨hsize, hwithin, hbetter, .inr hcompletes⟩
  | succ rounds ih =>
      rw [settleLabels]
      split
      · obtain ⟨hsizeRound, hwithinRound, hbetterRound, -⟩ :=
          foldl_followEpsilon_spec (List.Subset.refl automaton.transitions)
            (fun step hstep => hsize ▸ hnumbered.target_lt step hstep)
            (automaton.epsilonClosed_spreadsTo given) hwithin
        have hrest := ih (hsizeRound.trans hsize) hwithinRound (hbetter.trans hbetterRound)
          (hcompletes.round hnumbered hsize hbetter hwithin)
        rwa [Nat.add_right_comm, Nat.add_assoc] at hrest
      · rename_i hidle
        exact ⟨hsize, hwithin, hbetter,
          .inl (completes_of_idle hnumbered hsize hbetter (Bool.eq_false_iff.mpr hidle))⟩

theorem exists_epsilonReachIn_of_floor_lt (hnumbered : automaton.Numbered)
    (hsize : given.size = automaton.stateCount) (hreach : automaton.EpsilonReach given state weight)
    (hweight : LogWeight.floor < weight) :
    ∃ better, automaton.EpsilonReachIn given (automaton.stateCount - 1) state better ∧
      LogWeight.floor < better := by
  obtain ⟨origin, start, steps, hstart, hpath, hsilent, rfl⟩ := hreach
  obtain ⟨simple, hfewer, hsimple, hnodup⟩ := hpath.exists_simple_sublist
  have horigin : origin < automaton.stateCount := hsize ▸ Labels.lt_size_of_weight? hstart
  have hlength := hsimple.length_lt_of_nodup hnumbered.target_lt horigin hnodup
  obtain ⟨hgiven, hsteps⟩ := AbsorbingWeight.floor_lt_add_iff.mp hweight
  refine ⟨start + weightOf simple, ⟨origin, start, simple, hstart, hsimple,
    wordsOf_eq_nil_of_sublist hfewer hsilent, by omega, rfl⟩, ?_⟩
  refine ExactWeight.floor_lt_add hgiven (floor_lt_weightOf fun step hstep => ?_)
  exact floor_lt_weightOf_iff.mp hsteps step (hfewer.subset hstep)

/-- As many rounds as there are states complete labels. -/
theorem CompletesIn.completes (hnumbered : automaton.Numbered)
    (hsize : given.size = automaton.stateCount) {bound : Nat}
    (hbound : automaton.stateCount ≤ bound)
    (hcompletes : automaton.CompletesIn given labels bound) :
    automaton.Completes given labels := by
  have hstates := hnumbered.start_lt
  constructor
  case lit =>
    intro state weight hreach hweight
    obtain ⟨better, ⟨origin, start, steps, hstart, hpath, hsilent, hlength, hsum⟩, hbetter⟩ :=
      exists_epsilonReachIn_of_floor_lt hnumbered hsize hreach hweight
    exact hcompletes.lit state better
      ⟨origin, start, steps, hstart, hpath, hsilent, by omega, hsum⟩ hbetter
  case marked =>
    intro step hmem hword hopens
    refine hcompletes.marked step hmem hword ⟨automaton.stateCount - 1, by omega, ?_⟩
    refine hopens.imp_right fun ⟨weight, hweight, hreach⟩ => ?_
    obtain ⟨better, hbounded, hbetter⟩ :=
      exists_epsilonReachIn_of_floor_lt hnumbered hsize hreach hweight
    exact ⟨better, hbetter, hbounded⟩

/-- Spreading labels what epsilon transitions lead to, and nothing else. -/
theorem spread_completes (hnumbered : automaton.Numbered)
    (hsize : given.size = automaton.stateCount) :
    (automaton.spread given).size = automaton.stateCount ∧
      (automaton.spread given).Within (automaton.SpreadsTo given) ∧
      (automaton.spread given).AtLeast given ∧
      automaton.Completes given (automaton.spread given) := by
  have hwithin : given.Within (automaton.SpreadsTo given) := fun state weight hlabel =>
    ⟨.inl (by rw [hlabel]; rfl), fun _ => ⟨state, weight, [], hlabel, rfl, rfl, by simp⟩⟩
  have hcompletes : automaton.CompletesIn given given 0 := by
    constructor
    case lit =>
      rintro state weight ⟨origin, start, steps, hstart, hpath, -, hlength, rfl⟩ hweight
      obtain rfl := List.length_eq_zero_iff.mp (Nat.le_zero.mp hlength)
      obtain rfl := PathIn.nil_iff.mp hpath
      exact ⟨start, hstart, by simpa using hweight⟩
    case marked =>
      rintro step - - ⟨fewer, hfewer, -⟩
      exact absurd hfewer (Nat.not_lt_zero fewer)
  have henough : automaton.stateCount ≤ 0 + roundsFor automaton.stateCount := by
    rw [Nat.zero_add]
    exact Nat.le_mul_of_pos_right _ (Nat.pow_pos (by decide))
  obtain ⟨hsizeSpread, hwithinSpread, hbetter, hall | hbounded⟩ :=
    settleLabels_completes hnumbered (roundsFor automaton.stateCount) hsize hwithin
      (Labels.AtLeast.refl given) hcompletes
  · exact ⟨hsizeSpread, hwithinSpread, hbetter, hall⟩
  · exact ⟨hsizeSpread, hwithinSpread, hbetter, hbounded.completes hnumbered hsize henough⟩

/-! ## Labels behind tokens -/

/--
What labels are reached by paths of a kind: which states have one depends on
pursued paths, and which have one above the least weight on paths that weigh more.
-/
structure Marks (automaton : Automaton P W) (labels : Labels W) (tokens : List String)
    (among : List (Transition W) → Prop) : Prop where
  size : labels.size = automaton.stateCount
  some_iff : ∀ state, (labels.weight? state).isSome = true ↔
    ∃ steps, PathIn automaton.transitions automaton.start steps state ∧ wordsOf steps = tokens ∧
      among steps ∧ Pursued steps
  lit_iff : ∀ state, labels.IsLit state ↔
    ∃ steps, PathIn automaton.transitions automaton.start steps state ∧ wordsOf steps = tokens ∧
      among steps ∧ LogWeight.floor < weightOf steps

/-- Before anything is spread only the start is marked. -/
theorem marks_setIfInBounds_start (hnumbered : automaton.Numbered) :
    automaton.Marks (automaton.noLabels.setIfInBounds automaton.start (some 0)) []
      EndsAloud := by
  have hgiven := weight?_setIfInBounds_start hnumbered
  constructor
  case size => rw [Array.size_setIfInBounds, size_noLabels]
  case some_iff =>
    intro state
    constructor
    · intro hsome
      obtain ⟨weight, hlabel⟩ := Option.isSome_iff_exists.mp hsome
      obtain ⟨rfl, rfl⟩ := (hgiven state weight).mp hlabel
      exact ⟨[], rfl, rfl, endsAloud_nil, pursued_of_floor_lt ExactWeight.floor_lt_zero⟩
    · rintro ⟨steps, hpath, hsilent, hloud, -⟩
      obtain rfl := hloud.eq_nil hsilent
      obtain rfl := PathIn.nil_iff.mp hpath
      rw [(hgiven automaton.start 0).mpr ⟨rfl, rfl⟩]
      rfl
  case lit_iff =>
    intro state
    constructor
    · rintro ⟨weight, hlabel, hweight⟩
      obtain ⟨rfl, rfl⟩ := (hgiven state weight).mp hlabel
      exact ⟨[], rfl, rfl, endsAloud_nil, hweight⟩
    · rintro ⟨steps, hpath, hsilent, hloud, -⟩
      obtain rfl := hloud.eq_nil hsilent
      obtain rfl := PathIn.nil_iff.mp hpath
      exact ⟨0, (hgiven automaton.start 0).mpr ⟨rfl, rfl⟩, ExactWeight.floor_lt_zero⟩

theorem Marks.exists_path_of_epsilonReach (hgiven : automaton.Marks given tokens EndsAloud)
    (hreach : automaton.EpsilonReach given state weight) (hweight : LogWeight.floor < weight) :
    ∃ steps, PathIn automaton.transitions automaton.start steps state ∧ wordsOf steps = tokens ∧
      LogWeight.floor < weightOf steps := by
  obtain ⟨origin, start, after, hstart, hafter, hsilent, rfl⟩ := hreach
  obtain ⟨hlight, hrest⟩ := AbsorbingWeight.floor_lt_add_iff.mp hweight
  obtain ⟨before, hbefore, hwords, -, hweightBefore⟩ :=
    (hgiven.lit_iff origin).mp ⟨start, hstart, hlight⟩
  exact ⟨before ++ after, hbefore.append hafter,
    (wordsOf_append_of_silent hsilent).trans hwords,
    floor_lt_weightOf_append_iff.mpr ⟨hweightBefore, hrest⟩⟩

theorem Marks.exists_epsilonReach (hgiven : automaton.Marks given tokens EndsAloud)
    {steps : List (Transition W)}
    (hpath : PathIn automaton.transitions automaton.start steps state)
    (hwords : wordsOf steps = tokens) (hlight : LogWeight.floor < weightOf steps) :
    ∃ weight, LogWeight.floor < weight ∧ automaton.EpsilonReach given state weight := by
  obtain ⟨before, after, rfl, hloud, hsilent⟩ := exists_endsAloud_append steps
  obtain ⟨middle, hbefore, hafter⟩ := PathIn.append_iff.mp hpath
  rw [wordsOf_append_of_silent hsilent] at hwords
  obtain ⟨hlightBefore, hrest⟩ := floor_lt_weightOf_append_iff.mp hlight
  obtain ⟨start, hlabel, hstart⟩ :=
    (hgiven.lit_iff middle).mpr ⟨before, hbefore, hwords, hloud, hlightBefore⟩
  exact ⟨start + weightOf after, ExactWeight.floor_lt_add hstart hrest,
    middle, start, after, hlabel, hafter, hsilent, rfl⟩

theorem Marks.opens_iff (hgiven : automaton.Marks given tokens EndsAloud) :
    automaton.Opens given state ↔
      ∃ steps, PathIn automaton.transitions automaton.start steps state ∧
        wordsOf steps = tokens ∧ Pursued steps ∧
        (EndsAloud steps ∨ LogWeight.floor < weightOf steps) := by
  constructor
  · rintro (hsome | ⟨weight, hweight, hreach⟩)
    · obtain ⟨steps, hpath, hwords, hloud, hpursued⟩ := (hgiven.some_iff state).mp hsome
      exact ⟨steps, hpath, hwords, hpursued, .inl hloud⟩
    · obtain ⟨steps, hpath, hwords, hlight⟩ := hgiven.exists_path_of_epsilonReach hreach hweight
      exact ⟨steps, hpath, hwords, pursued_of_floor_lt hlight, .inr hlight⟩
  · rintro ⟨steps, hpath, rfl, hpursued, hloud | hlight⟩
    · exact .inl ((hgiven.some_iff state).mpr ⟨steps, hpath, rfl, hloud, hpursued⟩)
    · exact .inr (hgiven.exists_epsilonReach hpath rfl hlight)

/-- Spreading marks what paths lead to that may end with epsilon transitions. -/
theorem Marks.spread (hnumbered : automaton.Numbered)
    (hgiven : automaton.Marks given tokens EndsAloud) :
    automaton.Marks (automaton.spread given) tokens fun _ => True := by
  obtain ⟨hsize, hwithin, hbetter, hcompletes⟩ := spread_completes hnumbered hgiven.size
  refine ⟨hsize, fun state => ⟨fun hsome => ?_, ?_⟩, fun state => ⟨?_, ?_⟩⟩
  · obtain ⟨weight, hlabel⟩ := Option.isSome_iff_exists.mp hsome
    rcases (hwithin state weight hlabel).1 with hold | ⟨step, hmem, hword, rfl, hopens⟩
    · obtain ⟨steps, hpath, hwords, -, hpursued⟩ := (hgiven.some_iff state).mp hold
      exact ⟨steps, hpath, hwords, trivial, hpursued⟩
    · obtain ⟨steps, hpath, rfl, hpursued, hlast⟩ := hgiven.opens_iff.mp hopens
      exact ⟨steps ++ [step], hpath.append (.single hmem), wordsOf_concat_none hword steps,
        trivial, hpursued.concat (.inr hlast)⟩
  · rintro ⟨steps, hpath, rfl, -, hpursued⟩
    rcases List.eq_nil_or_concat steps with rfl | ⟨before, step, rfl⟩
    · exact hbetter.isSome ((hgiven.some_iff state).mpr
        ⟨[], hpath, rfl, endsAloud_nil, hpursued⟩)
    · rw [List.concat_eq_append] at *
      cases hword : step.word? with
      | some word =>
          exact hbetter.isSome ((hgiven.some_iff state).mpr
            ⟨before ++ [step], hpath, rfl, endsAloud_concat (by simp [hword]), hpursued⟩)
      | none =>
          obtain ⟨_, hbefore, hmem, rfl, rfl⟩ := PathIn.append_iff.mp hpath
          exact hcompletes.marked step hmem hword (hgiven.opens_iff.mpr ⟨before, hbefore,
            (wordsOf_concat_none hword before).symm, hpursued.of_append,
            hpursued.endsAloud_or_floor_lt hword⟩)
  · rintro ⟨weight, hlabel, hweight⟩
    obtain ⟨steps, hpath, hwords, hlight⟩ :=
      hgiven.exists_path_of_epsilonReach ((hwithin state weight hlabel).2 hweight) hweight
    exact ⟨steps, hpath, hwords, trivial, hlight⟩
  · rintro ⟨steps, hpath, rfl, -, hlight⟩
    obtain ⟨weight, hweight, hreach⟩ := hgiven.exists_epsilonReach hpath rfl hlight
    exact hcompletes.lit state weight hreach hweight

/-- Reading a token marks what the paths lead to that end with it. -/
theorem Marks.read (hnumbered : automaton.Numbered) (token : String)
    (hlabels : automaton.Marks labels tokens fun _ => True) :
    automaton.Marks (automaton.transitions.foldl (followWord token labels) automaton.noLabels)
      (tokens ++ [token]) EndsAloud := by
  obtain ⟨hsize, hwithin, hcovers⟩ := foldl_followWord_transitions hnumbered token labels
  refine ⟨hsize, fun state => ⟨fun hsome => ?_, ?_⟩, fun state => ⟨?_, ?_⟩⟩
  · obtain ⟨weight, hlabel⟩ := Option.isSome_iff_exists.mp hsome
    obtain ⟨step, start, hmem, hword, rfl, hstart, -⟩ := hwithin state weight hlabel
    have hloud : step.word? ≠ none := by simp [hword]
    obtain ⟨steps, hpath, rfl, -, hpursued⟩ :=
      (hlabels.some_iff step.source).mp (by rw [hstart]; rfl)
    exact ⟨steps ++ [step], hpath.append (.single hmem), by simp [wordsOf_cons_some hword],
      endsAloud_concat hloud, hpursued.concat (.inl hloud)⟩
  · rintro ⟨steps, hpath, hwords, hloud, hpursued⟩
    obtain ⟨before, step, rfl, rfl, hword⟩ := hloud.exists_concat hwords
    obtain ⟨_, hbefore, hmem, rfl, rfl⟩ := PathIn.append_iff.mp hpath
    obtain ⟨start, hstart⟩ := Option.isSome_iff_exists.mp
      ((hlabels.some_iff step.source).mpr ⟨before, hbefore, rfl, trivial, hpursued.of_append⟩)
    obtain ⟨greatest, hgreatest, -⟩ := hcovers step.target _
      ⟨step, start, hmem, hword, rfl, hstart, rfl⟩
    rw [hgreatest]
    rfl
  · rintro ⟨weight, hlabel, hweight⟩
    obtain ⟨step, start, hmem, hword, rfl, hstart, rfl⟩ := hwithin state weight hlabel
    obtain ⟨hlight, hstep⟩ := AbsorbingWeight.floor_lt_add_iff.mp hweight
    obtain ⟨steps, hpath, rfl, -, hsteps⟩ :=
      (hlabels.lit_iff step.source).mp ⟨start, hstart, hlight⟩
    refine ⟨steps ++ [step], hpath.append (.single hmem), by simp [wordsOf_cons_some hword],
      endsAloud_concat (by simp [hword]), floor_lt_weightOf_append_iff.mpr ⟨hsteps, ?_⟩⟩
    simpa using hstep
  · rintro ⟨steps, hpath, hwords, hloud, hlight⟩
    obtain ⟨before, step, rfl, rfl, hword⟩ := hloud.exists_concat hwords
    obtain ⟨_, hbefore, hmem, rfl, rfl⟩ := PathIn.append_iff.mp hpath
    obtain ⟨hlightBefore, hstep⟩ := floor_lt_weightOf_append_iff.mp hlight
    obtain ⟨start, hstart, hlightStart⟩ :=
      (hlabels.lit_iff step.source).mpr ⟨before, hbefore, rfl, trivial, hlightBefore⟩
    obtain ⟨greatest, hgreatest, hle⟩ := hcovers step.target _
      ⟨step, start, hmem, hword, rfl, hstart, rfl⟩
    exact ⟨greatest, hgreatest,
      (ExactWeight.floor_lt_add hlightStart (by simpa using hstep)).trans_le hle⟩

theorem Marks.foldl (hnumbered : automaton.Numbered) {read : List String} (tokens : List String)
    (hlabels : automaton.Marks labels read fun _ => True) :
    automaton.Marks (tokens.foldl automaton.step labels) (read ++ tokens) fun _ => True := by
  induction tokens generalizing labels read with
  | nil => simpa using hlabels
  | cons token tokens ih =>
      have hrest := ih ((hlabels.read hnumbered token).spread hnumbered)
      rwa [List.append_assoc] at hrest

/-! ## What is accepted -/

/-- Tokens are accepted exactly if an accepting path that is pursued reads them. -/
theorem Numbered.accepts_iff (hnumbered : automaton.Numbered) (tokens : List String) :
    automaton.accepts tokens = true ↔
      ∃ steps, automaton.Accepting tokens steps ∧ Pursued steps := by
  have hmarks := ((marks_setIfInBounds_start hnumbered).spread hnumbered).foldl hnumbered tokens
  rw [accepts, Option.isSome_iff_exists]
  constructor
  · rintro ⟨score, hscore⟩
    obtain ⟨final, hfinal, -, hlabel⟩ :=
      (mem_finalLabels_iff _ score).mp (LogWeight.mem_of_greatest?_eq_some hscore)
    obtain ⟨steps, hpath, hwords, -, hpursued⟩ :=
      (hmarks.some_iff final).mp (Option.isSome_iff_exists.mpr ⟨score, hlabel⟩)
    exact ⟨steps, ⟨hwords, final, hfinal, hpath⟩, hpursued⟩
  · rintro ⟨steps, ⟨hwords, final, hfinal, hpath⟩, hpursued⟩
    obtain ⟨label, hlabel⟩ := Option.isSome_iff_exists.mp
      ((hmarks.some_iff final).mpr ⟨steps, hpath, hwords, trivial, hpursued⟩)
    have hlt : final < automaton.stateCount :=
      hpath.visited_lt hnumbered.target_lt hnumbered.start_lt final hpath.last_mem_visited
    obtain ⟨score, hscore, -⟩ := LogWeight.exists_greatest?_of_mem
      ((mem_finalLabels_iff _ label).mpr ⟨final, hfinal, hlt, hlabel⟩)
    exact ⟨score, hscore⟩

theorem Numbered.accepts_iff_of_pursued (hnumbered : automaton.Numbered)
    (hpursued : ∀ steps ⊆ automaton.transitions, Pursued steps) (tokens : List String) :
    automaton.accepts tokens = true ↔ ∃ steps, automaton.Accepting tokens steps := by
  rw [hnumbered.accepts_iff]
  constructor
  · rintro ⟨steps, hsteps, -⟩
    exact ⟨steps, hsteps⟩
  · rintro ⟨steps, hwords, final, hfinal, hpath⟩
    exact ⟨steps, ⟨hwords, final, hfinal, hpath⟩, hpursued steps hpath.subset⟩

theorem Numbered.accepts_iff_of_finite (hnumbered : automaton.Numbered)
    (hfinite : ∀ step ∈ automaton.transitions, LogWeight.floor < step.weight)
    (tokens : List String) :
    automaton.accepts tokens = true ↔ ∃ steps, automaton.Accepting tokens steps :=
  hnumbered.accepts_iff_of_pursued (fun _ hsteps => pursued_of_floor_lt
    (floor_lt_weightOf fun step hstep => hfinite step (hsteps hstep))) tokens

/--
An automaton accepts what is read along an accepting path that is pursued to its
end.  Closed, it accepts what is read along any accepting path, whatever the
path weighs.
-/
theorem Numbered.accepts_iff_and_close_accepts_iff (hnumbered : automaton.Numbered)
    (tokens : List String) :
    (automaton.accepts tokens = true ↔
      ∃ steps, automaton.Accepting tokens steps ∧ Pursued steps) ∧
    (automaton.close.accepts tokens = true ↔ ∃ steps, automaton.Accepting tokens steps) := by
  have htidy := hnumbered.tidy_withoutEpsilons
  have hclosed := hnumbered.closesTrimly.tidy
  refine ⟨hnumbered.accepts_iff tokens, ?_⟩
  rw [hclosed.numbered.accepts_iff_of_pursued (fun steps hsteps => ?_) tokens, close,
    exists_accepting_prune_iff htidy.numbered htidy.finals_lt,
    exists_accepting_withoutEpsilons_iff hnumbered]
  rintro before step next after rfl hsilent -
  exact absurd hsilent (hclosed.wordy step (hsteps (by simp)))

/-- The least weight is that of the only path that reads `a` and of the one that reads nothing. -/
def faint : Automaton ℕ (WithBot ℤ) where
  name := "faint"
  stateCount := 3
  start := 0
  finals := .ofList [2]
  transitions := [⟨0, 1, none, ⊥, .empty⟩, ⟨1, 2, none, 0, .empty⟩, ⟨0, 2, some "a", ⊥, .empty⟩]
  languageWeight := 1

theorem numbered_faint : faint.Numbered := ⟨by decide, by decide, by decide⟩

/--
The only path of `faint` for the token `a` has the least weight, and `a` is accepted by `faint` and
by the closed automaton.
-/
theorem faint_accepts :
    faint.Numbered ∧ faint.accepts ["a"] = true ∧ faint.close.accepts ["a"] = true := by
  have hword : faint.Accepting ["a"] [⟨0, 2, some "a", ⊥, .empty⟩] :=
    ⟨rfl, 2, by decide, by simp [faint], rfl, rfl⟩
  have hpursued : Pursued [(⟨0, 2, some "a", ⊥, .empty⟩ : Transition (WithBot ℤ))] := by
    rintro before step next after heq
    have hlength : 1 = before.length + (after.length + 1 + 1) := by
      simpa using congrArg List.length heq
    omega
  obtain ⟨haccepts, hclosed⟩ := Numbered.accepts_iff_and_close_accepts_iff numbered_faint ["a"]
  exact ⟨numbered_faint, haccepts.mpr ⟨_, hword, hpursued⟩, hclosed.mpr ⟨_, hword⟩⟩

/--
`faint` has an accepting path for the empty token list, which the closed automaton accepts and
`faint` itself rejects.
-/
theorem faint_silence :
    faint.Numbered ∧ (∀ step ∈ faint.transitions, step.weight ≤ 0) ∧
      (∃ steps, faint.Accepting [] steps) ∧ faint.accepts [] = false ∧
      faint.close.accepts [] = true := by
  have hsilence : faint.Accepting [] [⟨0, 1, none, ⊥, .empty⟩, ⟨1, 2, none, 0, .empty⟩] :=
    ⟨rfl, 2, by decide, by simp [faint], rfl, by simp [faint], rfl, rfl⟩
  exact ⟨numbered_faint, by decide, ⟨_, hsilence⟩, by decide +kernel, by decide +kernel⟩

end Automaton

end SpeechGrammar
