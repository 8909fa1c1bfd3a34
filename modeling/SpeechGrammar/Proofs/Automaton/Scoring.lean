import SpeechGrammar.Proofs.Automaton.Path
import SpeechGrammar.Automaton.Score

/-!
# Scores are weights of best paths

Labels describe how states are reached: each label is the weight of some way to
reach its state, and no way to reach a state is better than its label.  Reading
a token and following epsilon transitions keep labels right in this sense, so
the score of some tokens is the greatest weight of an accepting path that reads
them.
-/

namespace SpeechGrammar

variable {P W : Type} [ExactWeight W]

namespace Labels

/-- Every label is the weight of a way to reach its state. -/
def Within (labels : Labels W) (reach : Nat → W → Prop) : Prop :=
  ∀ state weight, labels.weight? state = some weight → reach state weight

/-- No way to reach a state is better than its label. -/
def Covers (labels : Labels W) (reach : Nat → W → Prop) : Prop :=
  ∀ state weight, reach state weight →
    ∃ greatest, labels.weight? state = some greatest ∧ weight ≤ greatest

def AtLeast (labels other : Labels W) : Prop :=
  labels.Covers fun state weight => other.weight? state = some weight

variable {labels other third : Labels W} {state : Nat} {weight : W}

theorem AtLeast.refl (labels : Labels W) : labels.AtLeast labels :=
  fun _ weight hweight => ⟨weight, hweight, le_refl _⟩

theorem AtLeast.covers {reach : Nat → W → Prop} (hbetter : other.AtLeast labels)
    (hcovers : labels.Covers reach) : other.Covers reach := by
  intro state weight hreach
  obtain ⟨middle, hmiddle, hle⟩ := hcovers state weight hreach
  obtain ⟨greatest, hgreatest, hmiddleLe⟩ := hbetter state middle hmiddle
  exact ⟨greatest, hgreatest, hle.trans hmiddleLe⟩

theorem AtLeast.trans (hfirst : other.AtLeast labels) (hsecond : third.AtLeast other) :
    third.AtLeast labels :=
  hsecond.covers hfirst

omit [ExactWeight W] in
theorem lt_size_of_weight? (hlabel : labels.weight? state = some weight) : state < labels.size := by
  by_contra hout
  rw [weight?, Array.getElem?_eq_none (not_lt.mp hout)] at hlabel
  cases hlabel

@[simp] theorem size_improve : (labels.improve state weight).size = labels.size := by
  simp [improve]

theorem weight?_improve (hstate : state < labels.size) (place : Nat) :
    (labels.improve state weight).weight? place =
      if place = state then some (max ((labels.weight? state).getD LogWeight.floor) weight)
      else labels.weight? place := by
  unfold improve weight?
  rw [Array.getElem?_setIfInBounds]
  by_cases hplace : place = state
  · subst hplace
    rw [if_pos rfl, if_pos hstate, if_pos rfl]
    exact congrArg some (LogWeight.greater_eq_max _ _)
  · rw [if_neg (Ne.symm hplace), if_neg hplace]

theorem eq_or_eq_of_improve (hstate : state < labels.size) {place : Nat} {found : W}
    (hfound : (labels.improve state weight).weight? place = some found) :
    labels.weight? place = some found ∨ place = state ∧ found = weight := by
  rw [weight?_improve hstate] at hfound
  split at hfound
  · rename_i hplace
    subst hplace
    cases hknown : labels.weight? place with
    | none =>
        rw [hknown, Option.getD_none, max_eq_right (ExactWeight.floor_le weight)] at hfound
        exact .inr ⟨rfl, (Option.some.inj hfound).symm⟩
    | some known =>
        rw [hknown, Option.getD_some] at hfound
        rcases max_choice known weight with hmax | hmax
        · exact .inl (hmax ▸ hfound)
        · exact .inr ⟨rfl, (Option.some.inj (hmax ▸ hfound)).symm⟩
  · exact .inl hfound

theorem improve_atLeast (hstate : state < labels.size) :
    (labels.improve state weight).AtLeast labels := by
  intro place known hknown
  rw [weight?_improve hstate]
  split
  · rename_i hplace
    subst hplace
    refine ⟨_, rfl, ?_⟩
    rw [hknown]
    exact le_max_left _ _
  · exact ⟨known, hknown, le_refl _⟩

theorem le_improve (hstate : state < labels.size) :
    ∃ greatest, (labels.improve state weight).weight? state = some greatest ∧
      weight ≤ greatest := by
  rw [weight?_improve hstate, if_pos rfl]
  exact ⟨_, rfl, le_max_right _ _⟩

end Labels

namespace Automaton

variable {automaton : Automaton P W} {given labels : Labels W} {reach : Nat → W → Prop}

/-! ## Following epsilon transitions -/

def EpsilonReach (automaton : Automaton P W) (given : Labels W) (state : Nat) (weight : W) :
    Prop :=
  ∃ origin start steps, given.weight? origin = some start ∧
    PathIn automaton.transitions origin steps state ∧ wordsOf steps = [] ∧
    start + weightOf steps = weight

theorem isOpen_iff {state : Nat} {weight : W} (hlabel : labels.weight? state = some weight) :
    isOpen given labels state = true ↔
      (given.weight? state).isSome = true ∨ LogWeight.floor < weight := by
  simp [isOpen, hlabel]

theorem followEpsilon_of_isOpen {step : Transition W} {weight : W}
    (hstep : step.word? = none) (hlabel : labels.weight? step.source = some weight)
    (hopen : isOpen given labels step.source = true) :
    followEpsilon given labels step = labels.improve step.target (weight + step.weight) := by
  simp [followEpsilon, hstep, hlabel, hopen]

/-- A transition changes labels only if it reads nothing and leaves an open state with a label. -/
theorem followEpsilon_eq_self {step : Transition W}
    (hstep : ¬ (step.word? = none ∧ (labels.weight? step.source).isSome ∧
      isOpen given labels step.source = true)) :
    followEpsilon given labels step = labels := by
  unfold followEpsilon
  split
  · rename_i weight hword hlabel
    exact if_neg fun hopen => hstep ⟨hword, by rw [hlabel]; rfl, hopen⟩
  · rfl

/--
A way to reach states that epsilon transitions can be added to, where the state
that they leave is given or reached with more than the least weight.
-/
def EpsilonClosed (given : Labels W) (transitions : List (Transition W))
    (reach : Nat → W → Prop) : Prop :=
  ∀ {step weight}, step ∈ transitions → step.word? = none → reach step.source weight →
    (given.weight? step.source).isSome = true ∨ LogWeight.floor < weight →
    reach step.target (weight + step.weight)

/-- What following one epsilon transition keeps, and what it achieves. -/
theorem followEpsilon_spec {transitions : List (Transition W)} {step : Transition W}
    (hmem : step ∈ transitions) (htarget : step.target < labels.size)
    (hclosed : EpsilonClosed given transitions reach) (hwithin : labels.Within reach) :
    (followEpsilon given labels step).size = labels.size ∧
      (followEpsilon given labels step).Within reach ∧
      (followEpsilon given labels step).AtLeast labels ∧
      (step.word? = none → ∀ weight, labels.weight? step.source = some weight →
        (given.weight? step.source).isSome = true ∨ LogWeight.floor < weight →
        ∃ greatest, (followEpsilon given labels step).weight? step.target = some greatest ∧
          weight + step.weight ≤ greatest) := by
  by_cases hfollowed : step.word? = none ∧ (labels.weight? step.source).isSome ∧
    isOpen given labels step.source = true
  · obtain ⟨hword, hsome, hopen⟩ := hfollowed
    obtain ⟨weight, hlabel⟩ := Option.isSome_iff_exists.mp hsome
    have hnext : reach step.target (weight + step.weight) :=
      hclosed hmem hword (hwithin _ _ hlabel) ((isOpen_iff hlabel).mp hopen)
    rw [followEpsilon_of_isOpen hword hlabel hopen]
    refine ⟨Labels.size_improve, ?_, Labels.improve_atLeast htarget, ?_⟩
    · intro place found hfound
      rcases Labels.eq_or_eq_of_improve htarget hfound with hold | ⟨rfl, rfl⟩
      · exact hwithin _ _ hold
      · exact hnext
    · intro _ other hother _
      obtain rfl := Option.some.inj (hlabel.symm.trans hother)
      exact Labels.le_improve htarget
  · rw [followEpsilon_eq_self hfollowed]
    refine ⟨rfl, hwithin, Labels.AtLeast.refl _, fun hword weight hlabel hopen => ?_⟩
    exact absurd ⟨hword, by rw [hlabel]; rfl, (isOpen_iff hlabel).mpr hopen⟩ hfollowed

/-- What following transitions in order keeps, and what it achieves for each of them. -/
theorem foldl_followEpsilon_spec {transitions part : List (Transition W)}
    (hpart : part ⊆ transitions) (htargets : ∀ step ∈ transitions, step.target < labels.size)
    (hclosed : EpsilonClosed given transitions reach) (hwithin : labels.Within reach) :
    (part.foldl (followEpsilon given) labels).size = labels.size ∧
      (part.foldl (followEpsilon given) labels).Within reach ∧
      (part.foldl (followEpsilon given) labels).AtLeast labels ∧
      ∀ step ∈ part, step.word? = none → ∀ weight, labels.weight? step.source = some weight →
        (given.weight? step.source).isSome = true ∨ LogWeight.floor < weight →
        ∃ greatest, (part.foldl (followEpsilon given) labels).weight? step.target =
          some greatest ∧ weight + step.weight ≤ greatest := by
  induction part generalizing labels with
  | nil => exact ⟨rfl, hwithin, Labels.AtLeast.refl _, by simp⟩
  | cons first rest ih =>
      have hfirst := hpart (List.mem_cons_self ..)
      obtain ⟨hsize, hkept, hbetter, hdone⟩ :=
        followEpsilon_spec hfirst (htargets first hfirst) hclosed hwithin
      obtain ⟨hsizeRest, hkeptRest, hbetterRest, hdoneRest⟩ :=
        ih (fun step hstep => hpart (List.mem_cons_of_mem _ hstep))
          (fun step hstep => hsize ▸ htargets step hstep) hkept
      rw [List.foldl_cons]
      refine ⟨hsizeRest.trans hsize, hkeptRest, hbetter.trans hbetterRest, ?_⟩
      intro step hstep hword weight hlabel hopen
      rcases List.mem_cons.mp hstep with rfl | hstep
      · obtain ⟨middle, hmiddle, hle⟩ := hdone hword weight hlabel hopen
        obtain ⟨greatest, hgreatest, hmiddleLe⟩ := hbetterRest _ _ hmiddle
        exact ⟨greatest, hgreatest, hle.trans hmiddleLe⟩
      · -- The label of the source may have got better since, which is all the same.
        obtain ⟨middle, hmiddle, hle⟩ := hbetter _ _ hlabel
        obtain ⟨greatest, hgreatest, hmiddleLe⟩ := hdoneRest step hstep hword middle hmiddle
          (hopen.imp_right fun hweight => hweight.trans_le hle)
        exact ⟨greatest, hgreatest, (add_le_add_left hle _).trans hmiddleLe⟩

def EpsilonReachIn (automaton : Automaton P W) (given : Labels W) (bound state : Nat)
    (weight : W) : Prop :=
  ∃ origin start steps, given.weight? origin = some start ∧
    PathIn automaton.transitions origin steps state ∧ wordsOf steps = [] ∧
    steps.length ≤ bound ∧ start + weightOf steps = weight

/-- No label is less than what an epsilon transition brings to it. -/
def Settled (automaton : Automaton P W) (labels : Labels W) : Prop :=
  ∀ step ∈ automaton.transitions, step.word? = none →
    ∀ weight, labels.weight? step.source = some weight →
      ∃ greatest, labels.weight? step.target = some greatest ∧ weight + step.weight ≤ greatest

/-- Where no transition improves labels, one that leaves an open state brings nothing better. -/
theorem exists_label_of_idle (hnumbered : automaton.Numbered)
    (hsize : labels.size = automaton.stateCount)
    (hidle : automaton.transitions.any (improvesAlong given labels) = false) {step : Transition W}
    (hmem : step ∈ automaton.transitions) (hword : step.word? = none) {weight : W}
    (hlabel : labels.weight? step.source = some weight)
    (hopen : (given.weight? step.source).isSome = true ∨ LogWeight.floor < weight) :
    ∃ greatest, labels.weight? step.target = some greatest ∧ weight + step.weight ≤ greatest := by
  have hstep := List.any_eq_false.mp hidle step hmem
  have hisOpen : isOpen given labels step.source = true := (isOpen_iff hlabel).mpr hopen
  have htarget : step.target < labels.size := hsize ▸ hnumbered.target_lt step hmem
  cases hknown : labels[step.target] with
  | none =>
      refine absurd ?_ hstep
      simp [improvesAlong, hword, hlabel, hisOpen, Array.getElem?_eq_getElem htarget, hknown]
  | some known =>
      refine ⟨known, ?_, ?_⟩
      · simp [Labels.weight?, Array.getElem?_eq_getElem htarget, hknown]
      · by_contra hless
        refine hstep ?_
        simp [improvesAlong, hword, hlabel, hisOpen, Array.getElem?_eq_getElem htarget, hknown,
          not_le.mp hless]

theorem Settled.exists_label (hsettled : automaton.Settled labels)
    {steps : List (Transition W)} {origin state : Nat}
    (hpath : PathIn automaton.transitions origin steps state) (hsilent : wordsOf steps = [])
    {weight : W} (hlabel : labels.weight? origin = some weight) :
    ∃ greatest, labels.weight? state = some greatest ∧ weight + weightOf steps ≤ greatest := by
  induction steps generalizing origin weight with
  | nil =>
      obtain rfl := PathIn.nil_iff.mp hpath
      exact ⟨weight, hlabel, by simp⟩
  | cons step steps ih =>
      obtain ⟨hmem, rfl, hrest⟩ := hpath
      have hword := wordsOf_eq_nil_iff.mp hsilent step (List.mem_cons_self ..)
      obtain ⟨middle, hmiddle, hle⟩ := hsettled step hmem hword weight hlabel
      obtain ⟨greatest, hgreatest, hrestLe⟩ :=
        ih hrest (wordsOf_cons_none hword steps ▸ hsilent) hmiddle
      refine ⟨greatest, hgreatest, ?_⟩
      rw [weightOf_cons, ← add_assoc]
      exact (add_le_add_left hle _).trans hrestLe

theorem Settled.covers (hsettled : automaton.Settled labels) (hbetter : labels.AtLeast given) :
    labels.Covers (automaton.EpsilonReach given) := by
  rintro state weight ⟨origin, start, steps, hstart, hpath, hsilent, rfl⟩
  obtain ⟨better, hlabel, hle⟩ := hbetter origin start hstart
  obtain ⟨greatest, hgreatest, hstepsLe⟩ := hsettled.exists_label hpath hsilent hlabel
  exact ⟨greatest, hgreatest, (add_le_add_left hle _).trans hstepsLe⟩

/-- One more round covers paths of one more step. -/
theorem covers_round (hwf : automaton.WellFormed) (hsize : labels.size = automaton.stateCount)
    (hclosed : EpsilonClosed given automaton.transitions reach) (hwithin : labels.Within reach)
    (hfloor : ∀ state weight, reach state weight → LogWeight.floor < weight)
    {bound : Nat} (hcovers : labels.Covers (automaton.EpsilonReachIn given bound)) :
    (automaton.transitions.foldl (followEpsilon given) labels).Covers
      (automaton.EpsilonReachIn given (bound + 1)) := by
  obtain ⟨-, -, hbetter, hdone⟩ :=
    foldl_followEpsilon_spec (List.Subset.refl automaton.transitions)
      (fun step hstep => hsize ▸ hwf.target_lt step hstep) hclosed hwithin
  rintro state weight ⟨origin, start, steps, hstart, hpath, hsilent, hlength, rfl⟩
  rcases List.eq_nil_or_concat steps with rfl | ⟨before, step, rfl⟩
  · exact hbetter.covers hcovers _ _
      ⟨origin, start, [], hstart, hpath, hsilent, Nat.zero_le _, rfl⟩
  · rw [List.concat_eq_append] at *
    obtain ⟨middle, hbefore, hmem, rfl, rfl⟩ := PathIn.append_iff.mp hpath
    rw [wordsOf_append, List.append_eq_nil_iff] at hsilent
    have hword := wordsOf_eq_nil_iff.mp hsilent.2 step (List.mem_singleton_self _)
    obtain ⟨label, hlabel, hle⟩ := hcovers step.source (start + weightOf before)
      ⟨origin, start, before, hstart, hbefore, hsilent.1, by simpa using hlength, rfl⟩
    obtain ⟨greatest, hgreatest, hstepLe⟩ :=
      hdone step hmem hword label hlabel (.inr (hfloor _ _ (hwithin _ _ hlabel)))
    refine ⟨greatest, hgreatest, ?_⟩
    calc
      start + weightOf (before ++ [step]) = start + weightOf before + step.weight := by
        rw [weightOf_append, weightOf_cons, weightOf_nil, add_zero, add_assoc]
      _ ≤ label + step.weight := add_le_add_left hle _
      _ ≤ greatest := hstepLe

/-- Settling keeps labels right, and covers either all ways or those of as many steps as rounds. -/
theorem settleLabels_spec (hwf : automaton.WellFormed)
    (hclosed : EpsilonClosed given automaton.transitions reach)
    (hfloor : ∀ state weight, reach state weight → LogWeight.floor < weight) (rounds : Nat)
    {bound : Nat} (hsize : labels.size = automaton.stateCount) (hwithin : labels.Within reach)
    (hbetter : labels.AtLeast given)
    (hcovers : labels.Covers (automaton.EpsilonReachIn given bound)) :
    (automaton.settleLabels given rounds labels).size = automaton.stateCount ∧
      (automaton.settleLabels given rounds labels).Within reach ∧
      ((automaton.settleLabels given rounds labels).Covers (automaton.EpsilonReach given) ∨
        (automaton.settleLabels given rounds labels).Covers
          (automaton.EpsilonReachIn given (bound + rounds))) := by
  induction rounds generalizing labels bound with
  | zero => exact ⟨hsize, hwithin, .inr hcovers⟩
  | succ rounds ih =>
      rw [settleLabels]
      split
      · obtain ⟨hsizeRound, hwithinRound, hbetterRound, -⟩ :=
          foldl_followEpsilon_spec (List.Subset.refl automaton.transitions)
            (fun step hstep => hsize ▸ hwf.target_lt step hstep) hclosed hwithin
        have hround := covers_round hwf hsize hclosed hwithin hfloor hcovers
        have hrest := ih (hsizeRound.trans hsize) hwithinRound (hbetter.trans hbetterRound) hround
        rwa [Nat.add_right_comm, Nat.add_assoc] at hrest
      · rename_i hidle
        have hsettled : automaton.Settled labels := fun step hmem hword weight hlabel =>
          exists_label_of_idle hwf.numbered hsize (Bool.eq_false_iff.mpr hidle) hmem hword hlabel
            (.inr (hfloor _ _ (hwithin _ _ hlabel)))
        exact ⟨hsize, hwithin, .inl (hsettled.covers hbetter)⟩

theorem EpsilonReach.step {step : Transition W} {weight : W}
    (hreach : automaton.EpsilonReach given step.source weight)
    (hmem : step ∈ automaton.transitions) (hword : step.word? = none) :
    automaton.EpsilonReach given step.target (weight + step.weight) := by
  obtain ⟨origin, start, steps, hstart, hpath, hsilent, rfl⟩ := hreach
  refine ⟨origin, start, steps ++ [step], hstart, hpath.append (PathIn.single hmem), ?_, ?_⟩
  · rw [wordsOf_concat_none hword, hsilent]
  · rw [weightOf_append, weightOf_cons, weightOf_nil, add_zero, add_assoc]

theorem EpsilonReach.floor_lt (hwf : automaton.WellFormed)
    (hfinite : ∀ state weight, given.weight? state = some weight → LogWeight.floor < weight)
    {state : Nat} {weight : W} (hreach : automaton.EpsilonReach given state weight) :
    LogWeight.floor < weight := by
  obtain ⟨origin, start, steps, hstart, hpath, -, rfl⟩ := hreach
  exact ExactWeight.floor_lt_add (hfinite origin start hstart)
    (floor_lt_weightOf fun step hstep => hwf.finite step (hpath.subset hstep))

/-- Paths of as many epsilon steps as there are states are as good as any. -/
theorem exists_epsilonReachIn (hwf : automaton.WellFormed)
    (hsize : given.size = automaton.stateCount) {state : Nat} {weight : W}
    (hreach : automaton.EpsilonReach given state weight) :
    ∃ better, automaton.EpsilonReachIn given automaton.stateCount state better ∧
      weight ≤ better := by
  obtain ⟨origin, start, steps, hstart, hpath, hsilent, rfl⟩ := hreach
  obtain ⟨simple, hsimple, hquiet, hle, hnodup⟩ := hpath.exists_simple hwf.nonpositive hsilent
  have horigin : origin < automaton.stateCount := hsize ▸ Labels.lt_size_of_weight? hstart
  have hlength := hsimple.length_lt_of_nodup hwf.target_lt horigin hnodup
  exact ⟨start + weightOf simple, ⟨origin, start, simple, hstart, hsimple, hquiet, hlength.le, rfl⟩,
    add_le_add_right hle _⟩

/-- Spreading labels the states that epsilon transitions reach, each with its best way. -/
theorem spread_spec (hwf : automaton.WellFormed) (hsize : given.size = automaton.stateCount)
    (hfinite : ∀ state weight, given.weight? state = some weight → LogWeight.floor < weight) :
    (automaton.spread given).size = automaton.stateCount ∧
      (automaton.spread given).Within (automaton.EpsilonReach given) ∧
      (automaton.spread given).Covers (automaton.EpsilonReach given) := by
  have hwithin : given.Within (automaton.EpsilonReach given) := fun state weight hlabel =>
    ⟨state, weight, [], hlabel, rfl, rfl, by simp⟩
  have hcovers : given.Covers (automaton.EpsilonReachIn given 0) := by
    rintro state weight ⟨origin, start, steps, hstart, hpath, -, hlength, rfl⟩
    obtain rfl := List.length_eq_zero_iff.mp (Nat.le_zero.mp hlength)
    obtain rfl := PathIn.nil_iff.mp hpath
    exact ⟨start, hstart, by simp⟩
  have henough : automaton.stateCount ≤ roundsFor automaton.stateCount :=
    Nat.le_mul_of_pos_right _ (Nat.pow_pos (by decide))
  obtain ⟨hsizeSpread, hwithinSpread, hall | hbounded⟩ :=
    settleLabels_spec hwf (fun hmem hword hreach _ => hreach.step hmem hword)
      (fun _ _ hreach => hreach.floor_lt hwf hfinite) (roundsFor automaton.stateCount) hsize hwithin
      (Labels.AtLeast.refl given) hcovers
  · exact ⟨hsizeSpread, hwithinSpread, hall⟩
  · refine ⟨hsizeSpread, hwithinSpread, fun state weight hreach => ?_⟩
    obtain ⟨better, ⟨origin, start, steps, hstart, hpath, hsilent, hlength, rfl⟩, hle⟩ :=
      exists_epsilonReachIn hwf hsize hreach
    obtain ⟨greatest, hgreatest, hbetterLe⟩ := hbounded state _
      ⟨origin, start, steps, hstart, hpath, hsilent, by omega, rfl⟩
    exact ⟨greatest, hgreatest, hle.trans hbetterLe⟩

/-! ## Reading tokens -/

def Reaches (automaton : Automaton P W) (tokens : List String) (state : Nat) (weight : W) :
    Prop :=
  ∃ steps, PathIn automaton.transitions automaton.start steps state ∧
    wordsOf steps = tokens ∧ weightOf steps = weight

/-- A state is reached by a transition that reads a token from a state with a label. -/
def WordReach (automaton : Automaton P W) (token : String) (given : Labels W) (state : Nat)
    (weight : W) : Prop :=
  ∃ step start, step ∈ automaton.transitions ∧ step.word? = some token ∧ step.target = state ∧
    given.weight? step.source = some start ∧ start + step.weight = weight

theorem WordReach.floor_lt (hwf : automaton.WellFormed)
    (hfinite : ∀ state weight, given.weight? state = some weight → LogWeight.floor < weight)
    {token : String} {state : Nat} {weight : W}
    (hreach : automaton.WordReach token given state weight) : LogWeight.floor < weight := by
  obtain ⟨step, start, hmem, -, -, hstart, rfl⟩ := hreach
  exact ExactWeight.floor_lt_add (hfinite _ _ hstart) (hwf.finite step hmem)

theorem followWord_of_word {token : String} {step : Transition W} {start : W}
    (hword : step.word? = some token) (hgiven : given.weight? step.source = some start) :
    followWord token given labels step = labels.improve step.target (start + step.weight) := by
  simp [followWord, hgiven, hword]

theorem followWord_eq_self {token : String} {step : Transition W}
    (hstep : ¬ (step.word? = some token ∧ (given.weight? step.source).isSome)) :
    followWord token given labels step = labels := by
  unfold followWord
  split
  · rename_i start hgiven
    exact if_neg fun hword => hstep ⟨hword, by rw [hgiven]; rfl⟩
  · rfl

theorem followWord_spec {token : String} {step : Transition W}
    (htarget : step.target < labels.size) :
    (followWord token given labels step).size = labels.size ∧
      (∀ place weight, (followWord token given labels step).weight? place = some weight →
        labels.weight? place = some weight ∨ step.word? = some token ∧ step.target = place ∧
          ∃ start, given.weight? step.source = some start ∧ start + step.weight = weight) ∧
      (followWord token given labels step).AtLeast labels ∧
      (step.word? = some token → ∀ start, given.weight? step.source = some start →
        ∃ greatest, (followWord token given labels step).weight? step.target = some greatest ∧
          start + step.weight ≤ greatest) := by
  by_cases hfollowed : step.word? = some token ∧ (given.weight? step.source).isSome
  · obtain ⟨hword, hsome⟩ := hfollowed
    obtain ⟨start, hstart⟩ := Option.isSome_iff_exists.mp hsome
    rw [followWord_of_word hword hstart]
    refine ⟨Labels.size_improve, fun place weight hlabel => ?_,
      Labels.improve_atLeast htarget, fun _ other hother => ?_⟩
    · rcases Labels.eq_or_eq_of_improve htarget hlabel with hold | ⟨rfl, rfl⟩
      · exact .inl hold
      · exact .inr ⟨hword, rfl, start, hstart, rfl⟩
    · obtain rfl := Option.some.inj (hstart.symm.trans hother)
      exact Labels.le_improve htarget
  · rw [followWord_eq_self hfollowed]
    refine ⟨rfl, fun _ _ hlabel => .inl hlabel, Labels.AtLeast.refl _, fun hword start hstart => ?_⟩
    exact absurd ⟨hword, by rw [hstart]; rfl⟩ hfollowed

theorem foldl_followWord_spec (token : String) {part : List (Transition W)}
    (htargets : ∀ step ∈ part, step.target < labels.size) :
    (part.foldl (followWord token given) labels).size = labels.size ∧
      (∀ place weight, (part.foldl (followWord token given) labels).weight? place = some weight →
        labels.weight? place = some weight ∨ ∃ step ∈ part, step.word? = some token ∧
          step.target = place ∧
          ∃ start, given.weight? step.source = some start ∧ start + step.weight = weight) ∧
      (part.foldl (followWord token given) labels).AtLeast labels ∧
      ∀ step ∈ part, step.word? = some token → ∀ start,
        given.weight? step.source = some start →
        ∃ greatest, (part.foldl (followWord token given) labels).weight? step.target =
          some greatest ∧ start + step.weight ≤ greatest := by
  induction part generalizing labels with
  | nil => exact ⟨rfl, fun _ _ hlabel => .inl hlabel, Labels.AtLeast.refl _, by simp⟩
  | cons first rest ih =>
      obtain ⟨hsize, honly, hbetter, hdone⟩ :=
        followWord_spec (htargets first (List.mem_cons_self ..))
      obtain ⟨hsizeRest, honlyRest, hbetterRest, hdoneRest⟩ :=
        ih fun step hstep => hsize ▸ htargets step (List.mem_cons_of_mem _ hstep)
      rw [List.foldl_cons]
      refine ⟨hsizeRest.trans hsize, fun place weight hlabel => ?_, hbetter.trans hbetterRest, ?_⟩
      · rcases honlyRest place weight hlabel with hold | ⟨step, hstep, hread⟩
        · exact (honly place weight hold).imp_right fun hread =>
            ⟨first, List.mem_cons_self .., hread⟩
        · exact .inr ⟨step, List.mem_cons_of_mem _ hstep, hread⟩
      · intro step hstep hword start hstart
        rcases List.mem_cons.mp hstep with rfl | hstep
        · obtain ⟨middle, hmiddle, hle⟩ := hdone hword start hstart
          obtain ⟨greatest, hgreatest, hmiddleLe⟩ := hbetterRest _ _ hmiddle
          exact ⟨greatest, hgreatest, hle.trans hmiddleLe⟩
        · exact hdoneRest step hstep hword start hstart

omit [ExactWeight W] in
theorem size_noLabels (automaton : Automaton P W) :
    automaton.noLabels.size = automaton.stateCount := by
  simp [noLabels]

omit [ExactWeight W] in
theorem weight?_noLabels (automaton : Automaton P W) (state : Nat) :
    automaton.noLabels.weight? state = none := by
  rw [Labels.weight?, noLabels, Array.getElem?_replicate]
  split <;> rfl

/-- Reading a token labels the states that it leads to, whatever the order of transitions. -/
theorem foldl_followWord_noLabels (hnumbered : automaton.Numbered) (token : String)
    (given : Labels W) {part : List (Transition W)} (hpart : part ⊆ automaton.transitions)
    (hall : ∀ step ∈ automaton.transitions, step.word? = some token →
      (given.weight? step.source).isSome → step ∈ part) :
    (part.foldl (followWord token given) automaton.noLabels).size = automaton.stateCount ∧
      (part.foldl (followWord token given) automaton.noLabels).Within
        (automaton.WordReach token given) ∧
      (part.foldl (followWord token given) automaton.noLabels).Covers
        (automaton.WordReach token given) := by
  have htargets : ∀ step ∈ part, step.target < automaton.noLabels.size := fun step hstep => by
    rw [size_noLabels]
    exact hnumbered.target_lt step (hpart hstep)
  obtain ⟨hsize, honly, -, hdone⟩ := foldl_followWord_spec token htargets
  refine ⟨hsize.trans (size_noLabels automaton), fun state weight hlabel => ?_, ?_⟩
  · rcases honly state weight hlabel with hnone | ⟨step, hstep, hword, htarget, start, hread⟩
    · rw [weight?_noLabels] at hnone
      cases hnone
    · exact ⟨step, start, hpart hstep, hword, htarget, hread⟩
  · rintro state weight ⟨step, start, hmem, hword, rfl, hstart, rfl⟩
    have hstep := hall step hmem hword (by rw [hstart]; rfl)
    exact hdone step hstep hword start hstart

theorem foldl_followWord_transitions (hnumbered : automaton.Numbered) (token : String)
    (given : Labels W) :
    (automaton.transitions.foldl (followWord token given) automaton.noLabels).size =
        automaton.stateCount ∧
      (automaton.transitions.foldl (followWord token given) automaton.noLabels).Within
        (automaton.WordReach token given) ∧
      (automaton.transitions.foldl (followWord token given) automaton.noLabels).Covers
        (automaton.WordReach token given) :=
  foldl_followWord_noLabels hnumbered token given (List.Subset.refl _) fun _ hmem _ _ => hmem

/-- Labels are right for some tokens: there are as many as states, and each is the best way. -/
structure Describes (automaton : Automaton P W) (labels : Labels W) (tokens : List String) :
    Prop where
  size : labels.size = automaton.stateCount
  within : labels.Within (automaton.Reaches tokens)
  covers : labels.Covers (automaton.Reaches tokens)

theorem Describes.floor_lt {tokens : List String} (hwf : automaton.WellFormed)
    (hlabels : automaton.Describes labels tokens) {state : Nat} {weight : W}
    (hlabel : labels.weight? state = some weight) : LogWeight.floor < weight := by
  obtain ⟨steps, hpath, -, rfl⟩ := hlabels.within state weight hlabel
  exact floor_lt_weightOf fun step hstep => hwf.finite step (hpath.subset hstep)

/-- Before anything is spread only the start has a label. -/
theorem weight?_setIfInBounds_start (hnumbered : automaton.Numbered) (state : Nat) (weight : W) :
    Labels.weight? (automaton.noLabels.setIfInBounds automaton.start (some (0 : W))) state =
      some weight ↔ state = automaton.start ∧ weight = 0 := by
  rw [Labels.weight?, Array.getElem?_setIfInBounds]
  by_cases hstate : automaton.start = state
  · subst hstate
    rw [if_pos rfl, if_pos (by rw [size_noLabels]; exact hnumbered.start_lt)]
    simp [eq_comm]
  · have hnone := weight?_noLabels automaton state
    rw [Labels.weight?] at hnone
    simp [hstate, hnone, Ne.symm hstate]

/-- The first labels are right before any token is read. -/
theorem describes_startLabels (hwf : automaton.WellFormed) :
    automaton.Describes automaton.startLabels [] := by
  have hgiven := weight?_setIfInBounds_start hwf.numbered
  have hfinite : ∀ state weight, Labels.weight?
      (automaton.noLabels.setIfInBounds automaton.start (some (0 : W))) state = some weight →
      LogWeight.floor < weight := by
    intro state weight hlabel
    rw [((hgiven state weight).mp hlabel).2]
    exact ExactWeight.floor_lt_zero
  obtain ⟨hsize, hwithin, hcovers⟩ :=
    spread_spec hwf (by rw [Array.size_setIfInBounds, size_noLabels]) hfinite
  refine ⟨hsize, fun state weight hlabel => ?_, ?_⟩
  · obtain ⟨origin, start, steps, hstart, hpath, hsilent, rfl⟩ := hwithin state weight hlabel
    obtain ⟨rfl, rfl⟩ := (hgiven origin start).mp hstart
    exact ⟨steps, hpath, hsilent, (zero_add _).symm⟩
  · rintro state weight ⟨steps, hpath, hsilent, rfl⟩
    exact hcovers state _
      ⟨automaton.start, 0, steps, (hgiven _ _).mpr ⟨rfl, rfl⟩, hpath, hsilent, zero_add _⟩

/-- Reading a token keeps labels right. -/
theorem Describes.step (hwf : automaton.WellFormed) {tokens : List String} (token : String)
    (hlabels : automaton.Describes labels tokens) :
    automaton.Describes (automaton.step labels token) (tokens ++ [token]) := by
  obtain ⟨hsizeRead, hwithinRead, hcoversRead⟩ :=
    foldl_followWord_transitions hwf.numbered token labels
  obtain ⟨hsize, hwithin, hcovers⟩ :=
    spread_spec hwf hsizeRead fun state weight hlabel =>
      (hwithinRead state weight hlabel).floor_lt hwf fun _ _ hgiven => hlabels.floor_lt hwf hgiven
  refine ⟨hsize, fun state weight hlabel => ?_, ?_⟩
  · obtain ⟨origin, middle, after, hmiddle, hafter, hsilent, rfl⟩ := hwithin state weight hlabel
    obtain ⟨step, start, hmem, hword, rfl, hstart, rfl⟩ := hwithinRead origin middle hmiddle
    obtain ⟨before, hbefore, rfl, rfl⟩ := hlabels.within _ _ hstart
    refine ⟨before ++ step :: after, hbefore.append ⟨hmem, rfl, hafter⟩, ?_, ?_⟩
    · rw [wordsOf_append, wordsOf_cons_some hword, hsilent]
    · rw [weightOf_append, weightOf_cons, add_assoc]
  · rintro state weight ⟨steps, hpath, hwords, rfl⟩
    obtain ⟨before, step, after, rfl, rfl, hword, hsilent⟩ := wordsOf_eq_append_singleton hwords
    obtain ⟨middle, hbefore, hmem, rfl, hafter⟩ := PathIn.append_iff.mp hpath
    obtain ⟨start, hstart, hle⟩ := hlabels.covers step.source _ ⟨before, hbefore, rfl, rfl⟩
    obtain ⟨label, hlabel, hstepLe⟩ := hcoversRead step.target _
      ⟨step, start, hmem, hword, rfl, hstart, rfl⟩
    obtain ⟨greatest, hgreatest, hafterLe⟩ := hcovers state _
      ⟨step.target, label, after, hlabel, hafter, hsilent, rfl⟩
    refine ⟨greatest, hgreatest, ?_⟩
    calc
      weightOf (before ++ step :: after) = weightOf before + step.weight + weightOf after := by
        rw [weightOf_append, weightOf_cons, add_assoc]
      _ ≤ start + step.weight + weightOf after := add_le_add_left (add_le_add_left hle _) _
      _ ≤ label + weightOf after := add_le_add_left hstepLe _
      _ ≤ greatest := hafterLe

theorem Describes.foldl (hwf : automaton.WellFormed) {read : List String} (tokens : List String)
    (hlabels : automaton.Describes labels read) :
    automaton.Describes (tokens.foldl automaton.step labels) (read ++ tokens) := by
  induction tokens generalizing labels read with
  | nil => simpa using hlabels
  | cons token tokens ih =>
      have hrest := ih (hlabels.step hwf token)
      rwa [List.append_assoc] at hrest

omit [ExactWeight W] in
theorem mem_finalLabels_iff (labels : Labels W) (weight : W) :
    weight ∈ ((List.range automaton.stateCount).filter automaton.isFinal).filterMap
        labels.weight? ↔
      ∃ final, final ∈ automaton.finals ∧ final < automaton.stateCount ∧
        labels.weight? final = some weight := by
  simp only [List.mem_filterMap, List.mem_filter, List.mem_range, isFinal, SortedSet.contains,
    List.contains_iff_mem, SortedSet.mem_toList]
  exact exists_congr fun final => by tauto

theorem score?_mem_pathWeights (hwf : automaton.WellFormed) {tokens : List String} {score : W}
    (hscore : automaton.score? tokens = some score) : score ∈ automaton.pathWeights tokens := by
  have hlabels := (describes_startLabels hwf).foldl hwf tokens
  obtain ⟨final, hfinal, -, hlabel⟩ :=
    (mem_finalLabels_iff _ score).mp (LogWeight.mem_of_greatest?_eq_some hscore)
  obtain ⟨steps, hpath, hwords, hweight⟩ := hlabels.within final score hlabel
  exact ⟨steps, ⟨hwords, final, hfinal, hpath⟩, hweight⟩

theorem exists_score?_of_accepting (hwf : automaton.WellFormed) {tokens : List String}
    {steps : List (Transition W)} (hsteps : automaton.Accepting tokens steps) :
    ∃ score, automaton.score? tokens = some score ∧ weightOf steps ≤ score := by
  have hlabels := (describes_startLabels hwf).foldl hwf tokens
  obtain ⟨hwords, final, hfinal, hpath⟩ := hsteps
  obtain ⟨label, hlabel, hle⟩ := hlabels.covers final _ ⟨steps, hpath, hwords, rfl⟩
  have hlt : final < automaton.stateCount :=
    hpath.visited_lt hwf.target_lt hwf.start_lt final hpath.last_mem_visited
  obtain ⟨score, hscore, hlabelLe⟩ := LogWeight.exists_greatest?_of_mem
    ((mem_finalLabels_iff _ label).mpr ⟨final, hfinal, hlt, hlabel⟩)
  exact ⟨score, hscore, hle.trans hlabelLe⟩

/-- The score of some tokens is the greatest weight of an accepting path that reads them. -/
theorem score?_eq_some_iff (hwf : automaton.WellFormed) (tokens : List String) (score : W) :
    automaton.score? tokens = some score ↔ IsGreatest (automaton.pathWeights tokens) score := by
  constructor
  · intro hscore
    refine ⟨score?_mem_pathWeights hwf hscore, ?_⟩
    rintro weight ⟨steps, hsteps, rfl⟩
    obtain ⟨greatest, hgreatest, hle⟩ := exists_score?_of_accepting hwf hsteps
    rw [hscore] at hgreatest
    exact hle.trans_eq (Option.some.inj hgreatest).symm
  · rintro ⟨⟨steps, hsteps, rfl⟩, habove⟩
    obtain ⟨greatest, hgreatest, hle⟩ := exists_score?_of_accepting hwf hsteps
    rw [hgreatest, le_antisymm (habove (score?_mem_pathWeights hwf hgreatest)) hle]

/-- Tokens are accepted exactly if some accepting path reads them. -/
theorem accepts_iff_exists_accepting (hwf : automaton.WellFormed) (tokens : List String) :
    automaton.accepts tokens = true ↔ ∃ steps, automaton.Accepting tokens steps := by
  rw [accepts, Option.isSome_iff_exists]
  constructor
  · rintro ⟨score, hscore⟩
    obtain ⟨steps, hsteps, -⟩ := score?_mem_pathWeights hwf hscore
    exact ⟨steps, hsteps⟩
  · rintro ⟨steps, hsteps⟩
    obtain ⟨score, hscore, -⟩ := exists_score?_of_accepting hwf hsteps
    exact ⟨score, hscore⟩

end Automaton

end SpeechGrammar
