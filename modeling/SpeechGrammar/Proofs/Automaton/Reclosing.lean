import SpeechGrammar.Proofs.Automaton.Reweighing
import SpeechGrammar.Proofs.Automaton.Trim
import SpeechGrammar.SortedSet
import SpeechGrammar.Proofs.SingleWeight

/-!
# Closing a closed automaton

Closing leaves a tidy automaton whose transitions are listed by their sources
and whose states are all useful.  Closing leaves such an automaton as it is,
save that each weight is added to nothing, which by machine arithmetic turns
one zero into the other.
-/

namespace SpeechGrammar.Automaton

variable {P W : Type} {automaton : Automaton P W}

/-- Transitions are listed by the states they leave. -/
def BySource (automaton : Automaton P W) : Prop :=
  automaton.transitions.Pairwise fun first second => first.source ≤ second.source

/-- Closing has nothing to bypass, to drop, to remove or to move. -/
structure Closed (automaton : Automaton P W) : Prop where
  tidy : automaton.Tidy
  bySource : automaton.BySource
  useful_eq : automaton.useful = List.range automaton.stateCount

/-- Pruning keeps transitions in order. -/
theorem BySource.prune (hsorted : automaton.BySource) : automaton.prune.BySource := by
  rw [BySource, Automaton.prune, List.pairwise_filterMap]
  refine hsorted.imp ?_
  intro old other hle new hnew another hanother
  obtain ⟨hsource, -⟩ := renumber?_eq_some_iff.mp hnew
  obtain ⟨hotherSource, -⟩ := renumber?_eq_some_iff.mp hanother
  rw [idxOf?_eq_some_iff_getElem? (nodup_useful automaton), List.getElem?_eq_some_iff]
    at hsource hotherSource
  obtain ⟨hnewLt, hold⟩ := hsource
  obtain ⟨hanotherLt, hother⟩ := hotherSource
  by_contra hgreater
  -- Places in an increasing list are in the order of what stands there.
  have hless := List.pairwise_iff_getElem.mp (increasing_useful automaton) another.source
    new.source hanotherLt hnewLt (Nat.lt_of_not_le hgreater)
  omega

/-- All states of a pruned automaton are useful. -/
theorem useful_prune (hnumbered : automaton.Numbered)
    (hfinals : ∀ final, final ∈ automaton.finals → final < automaton.stateCount) :
    automaton.prune.useful = List.range automaton.prune.stateCount := by
  have hplaces : ∀ final, final ∈ automaton.prune.finals →
      final < automaton.prune.stateCount := by
    intro place hplace
    obtain ⟨final, -, hkept⟩ := mem_finals_prune.mp hplace
    exact lt_of_idxOf?_eq hkept
  rw [useful, List.filter_eq_self]
  intro place hplace
  have hlt : place < automaton.prune.stateCount := List.mem_range.mp hplace
  suffices huseful : place ∈ automaton.prune.useful from (List.mem_filter.mp huseful).2
  rw [mem_useful_iff hnumbered.prune hplaces]
  refine ⟨hlt, ?_⟩
  by_cases hlive : ∃ tokens steps, automaton.Accepting tokens steps
  · right
    have hkept := (idxOf?_eq_some_iff_getElem? (nodup_useful automaton)).mpr
      (List.getElem?_eq_getElem hlt)
    obtain ⟨before, after, final, hfinal, hbefore, hafter⟩ :=
      exists_renumbered_paths hnumbered hfinals hlive hkept
    exact ⟨⟨before, hbefore⟩, final, hfinal, after, hafter⟩
  · -- Where nothing is accepted there is no state but the start.
    left
    obtain ⟨hone, -⟩ := prune_of_isDead hnumbered hfinals
      ((isDead_eq_true_iff hnumbered hfinals).mpr hlive)
    have hstart := hnumbered.prune.start_lt
    omega

variable [LogWeight W]

theorem bySource_withoutEpsilons (hnumbered : automaton.Numbered) :
    automaton.withoutEpsilons.BySource := by
  have hsource : ∀ {state : Nat}, state ∈ List.range automaton.stateCount →
      ∀ step ∈ automaton.bypasses state, step.source = state := by
    intro state hstate step hstep
    obtain ⟨old, -, -, -, hsame⟩ := (mem_courses_bypasses hnumbered
      (List.mem_range.mp hstate)).mp (List.mem_map_of_mem hstep)
    exact (congrArg Prod.fst hsame).symm
  rw [BySource, withoutEpsilons, List.pairwise_flatMap]
  constructor
  · intro state hstate
    refine List.pairwise_of_forall_mem_list ?_
    intro first hfirst second hsecond
    rw [hsource hstate first hfirst, hsource hstate second hsecond]
  · refine List.pairwise_lt_range.imp_of_mem ?_
    intro state other hstate hother hless first hfirst second hsecond
    rw [hsource hstate first hfirst, hsource hother second hsecond]
    exact Nat.le_of_lt hless

theorem Numbered.closed_close (hnumbered : automaton.Numbered) : automaton.close.Closed :=
  have htidy := hnumbered.tidy_withoutEpsilons
  ⟨htidy.prune, (bySource_withoutEpsilons hnumbered).prune,
    useful_prune htidy.numbered htidy.finals_lt⟩

/-! ## What closing does to it -/

/-- Where nothing is read silently the search finds the state it starts from. -/
theorem epsilonClosure_of_wordy (hwordy : ∀ step ∈ automaton.transitions, step.word? ≠ none)
    {state : Nat} (hstate : state < automaton.stateCount) :
    automaton.epsilonClosure state = [⟨state, 0, .empty⟩] := by
  obtain ⟨allowance, hallowance⟩ := Nat.exists_eq_succ_of_ne_zero (Nat.ne_zero_of_lt hstate)
  have hpending : automaton.pendingAfter [] [⟨state, 0, .empty⟩] ⟨state, 0, .empty⟩ = [] := by
    rw [List.eq_nil_iff_forall_not_mem]
    intro candidate hcandidate
    rcases mem_pendingAfter.mp hcandidate with ⟨hold, hne⟩ | ⟨-, step, hstep, -, hword, -⟩
    · obtain rfl := List.mem_singleton.mp hold
      exact hne rfl
    · exact hwordy step hstep hword
  have hbest : best? [⟨state, 0, .empty⟩] = some (⟨state, 0, .empty⟩ : Reached W) := rfl
  rw [epsilonClosure, hallowance, settle_succ hbest, hpending, settle_nil, List.nil_append]

/-- A transition of a new course is put behind those that are kept. -/
theorem addBest_of_not_mem {transition : Transition W} {kept : List (Transition W)}
    (hnew : transition.course ∉ kept.map Transition.course) :
    addBest transition kept = kept ++ [transition] := by
  induction kept with
  | nil => rfl
  | cons other rest ih =>
      rw [List.map_cons, List.mem_cons, not_or] at hnew
      have hparallel : isParallel other transition ≠ true :=
        fun hsame => hnew.1 (isParallel_iff_course_eq.mp hsame).symm
      rw [addBest, if_neg hparallel, ih hnew.2, List.cons_append]

theorem foldl_addBest_of_nodup {added kept : List (Transition W)}
    (hdistinct : ((kept ++ added).map Transition.course).Nodup) :
    added.foldl (fun kept transition => addBest transition kept) kept = kept ++ added := by
  induction added generalizing kept with
  | nil => rw [List.foldl_nil, List.append_nil]
  | cons transition added ih =>
      have hnew : transition.course ∉ kept.map Transition.course := by
        rw [List.map_append, List.map_cons, List.nodup_append] at hdistinct
        exact fun hold => hdistinct.2.2 _ hold _ (List.mem_cons_self ..) rfl
      rw [List.foldl_cons, addBest_of_not_mem hnew, ih, List.append_assoc, List.singleton_append]
      rwa [List.append_assoc, List.singleton_append]

theorem Tidy.bypasses_eq (htidy : automaton.Tidy) {state : Nat}
    (hstate : state < automaton.stateCount) :
    automaton.bypasses state = (automaton.leaving state).map (·.mapWeight (0 + ·)) := by
  have hwordy : (automaton.leaving state).filter (!·.isEpsilon) = automaton.leaving state := by
    rw [List.filter_eq_self]
    intro step hstep
    have hword := htidy.wordy step (List.mem_of_mem_filter hstep)
    rw [Transition.isEpsilon, Option.isNone_eq_false_iff.mpr (Option.isSome_iff_ne_none.mpr hword)]
    rfl
  have hbypass : (automaton.leaving state).map (bypass state ⟨state, 0, .empty⟩) =
      (automaton.leaving state).map (·.mapWeight (0 + ·)) := by
    apply List.map_congr_left
    intro step hstep
    obtain rfl := beq_iff_eq.mp (List.mem_filter.mp hstep).2
    rw [bypass, Transition.mapWeight, SortedSet.empty_union]
  have hdistinct : (([] ++ (automaton.leaving state).map (Transition.mapWeight (0 + ·))).map
      Transition.course).Nodup := by
    rw [List.nil_append, List.map_map]
    exact (List.filter_sublist.map Transition.course).nodup htidy.distinct
  rw [bypasses, epsilonClosure_of_wordy htidy.wordy hstate, List.flatMap_singleton, hwordy, hbypass]
  exact foldl_addBest_of_nodup hdistinct

omit [LogWeight W] in
/-- In transitions listed by source those that leave a state follow those that leave lower ones. -/
theorem filter_append_filter_of_sorted {transitions : List (Transition W)}
    (hsorted : transitions.Pairwise fun first second => first.source ≤ second.source)
    (state : Nat) :
    transitions.filter (·.source < state) ++ transitions.filter (·.source == state) =
      transitions.filter (·.source < state + 1) := by
  induction transitions with
  | nil => rfl
  | cons first rest ih =>
      obtain ⟨hfirst, hrest⟩ := List.pairwise_cons.mp hsorted
      have ih := ih hrest
      rcases Nat.lt_trichotomy first.source state with hless | rfl | hgreater
      · have hlower : decide (first.source < state) = true := decide_eq_true hless
        have hhere : (first.source == state) = false :=
          beq_eq_false_iff_ne.mpr (Nat.ne_of_lt hless)
        have hbelow : decide (first.source < state + 1) = true :=
          decide_eq_true (Nat.lt_succ_of_lt hless)
        simp only [List.filter_cons, hlower, hhere, hbelow, if_true, Bool.false_eq_true, if_false,
          List.cons_append, ih]
      · have hnone : rest.filter (·.source < first.source) = [] := by
          rw [List.filter_eq_nil_iff]
          intro second hsecond hlower
          exact Nat.not_lt.mpr (hfirst second hsecond) (of_decide_eq_true hlower)
        have hlower : decide (first.source < first.source) = false :=
          decide_eq_false (Nat.lt_irrefl _)
        have hbelow : decide (first.source < first.source + 1) = true :=
          decide_eq_true (Nat.lt_succ_self _)
        rw [hnone, List.nil_append] at ih
        simp only [List.filter_cons, hlower, beq_self_eq_true, hbelow, if_true,
          Bool.false_eq_true, if_false, hnone, List.nil_append, ih]
      · have hlower : decide (first.source < state) = false :=
          decide_eq_false (Nat.lt_asymm hgreater)
        have hhere : (first.source == state) = false :=
          beq_eq_false_iff_ne.mpr (Nat.ne_of_gt hgreater)
        have hbelow : decide (first.source < state + 1) = false :=
          decide_eq_false (Nat.not_lt.mpr hgreater)
        simp only [List.filter_cons, hlower, hhere, hbelow, Bool.false_eq_true, if_false, ih]

omit [LogWeight W] in
theorem BySource.flatMap_leaving (hsorted : automaton.BySource)
    (hsource : ∀ step ∈ automaton.transitions, step.source < automaton.stateCount) :
    (List.range automaton.stateCount).flatMap automaton.leaving = automaton.transitions := by
  have hbelow : ∀ count, (List.range count).flatMap automaton.leaving =
      automaton.transitions.filter (·.source < count) := by
    intro count
    induction count with
    | zero => simp
    | succ count ih =>
        rw [List.range_succ, List.flatMap_append, ih, List.flatMap_singleton, leaving,
          filter_append_filter_of_sorted hsorted]
  rw [hbelow, List.filter_eq_self]
  exact fun step hstep => decide_eq_true (hsource step hstep)

/-- Where nothing is read silently the same states are final without epsilons. -/
theorem Tidy.finals_eq (htidy : automaton.Tidy) :
    automaton.withoutEpsilons.finals = automaton.finals := by
  apply SortedSet.ext
  intro state
  rw [mem_finals_withoutEpsilons htidy.numbered]
  constructor
  · rintro ⟨-, final, hfinal, steps, hpath, hsilent⟩
    cases steps with
    | nil =>
        obtain rfl := PathIn.nil_iff.mp hpath
        exact hfinal
    | cons step steps =>
        exact absurd (wordsOf_eq_nil_iff.mp hsilent step (List.mem_cons_self ..))
          (htidy.wordy step hpath.1)
  · intro hfinal
    exact ⟨htidy.finals_lt state hfinal, state, hfinal, .refl automaton state⟩

/-- Bypassing nothing adds each weight to nothing. -/
theorem Closed.withoutEpsilons_eq (hclosed : automaton.Closed) :
    automaton.withoutEpsilons = automaton.reweigh (0 + ·) automaton.languageWeight := by
  have hbypasses : (List.range automaton.stateCount).flatMap automaton.bypasses =
      automaton.transitions.map (·.mapWeight (0 + ·)) := by
    rw [← hclosed.bySource.flatMap_leaving hclosed.tidy.numbered.source_lt, List.map_flatMap]
    apply List.flatMap_congr
    intro state hstate
    exact hclosed.tidy.bypasses_eq (List.mem_range.mp hstate)
  have hfinals := hclosed.tidy.finals_eq
  simp only [withoutEpsilons] at hfinals
  rw [withoutEpsilons, reweigh, hbypasses, hfinals]

omit [LogWeight W] in
/-- Pruning leaves an automaton as it is if all its states are useful. -/
theorem Closed.prune_eq (hclosed : automaton.Closed) : automaton.prune = automaton := by
  have hplace : ∀ {state : Nat}, state < automaton.stateCount →
      automaton.useful.idxOf? state = some state := by
    intro state hstate
    rw [idxOf?_eq_some_iff_getElem? (nodup_useful automaton), hclosed.useful_eq,
      List.getElem?_range hstate]
  have hnumbered := hclosed.tidy.numbered
  have hfinals : SortedSet.ofList (automaton.finals.toList.filterMap automaton.useful.idxOf?) =
      automaton.finals := by
    apply SortedSet.ext
    intro state
    rw [SortedSet.mem_ofList, List.mem_filterMap]
    constructor
    · rintro ⟨final, hfinal, hkept⟩
      rw [hplace (hclosed.tidy.finals_lt final hfinal)] at hkept
      exact Option.some.inj hkept ▸ hfinal
    · exact fun hfinal => ⟨state, hfinal, hplace (hclosed.tidy.finals_lt state hfinal)⟩
  have htransitions : automaton.transitions.filterMap (renumber? automaton.useful) =
      automaton.transitions := by
    refine Eq.trans (List.filterMap_congr ?_) List.filterMap_some
    intro step hstep
    exact renumber?_eq_some_iff.mpr ⟨hplace (hnumbered.source_lt step hstep),
      hplace (hnumbered.target_lt step hstep), rfl, rfl, rfl⟩
  have hcount : automaton.useful.length = automaton.stateCount := by
    rw [hclosed.useful_eq, List.length_range]
  rw [prune, hfinals, htransitions, hcount, hplace hnumbered.start_lt, Option.getD_some]

/-- Closing a closed automaton adds each weight to nothing, and does nothing else. -/
theorem Closed.close_eq (hclosed : automaton.Closed) :
    automaton.close = automaton.reweigh (0 + ·) automaton.languageWeight := by
  rw [close, hclosed.withoutEpsilons_eq, prune_reweigh, hclosed.prune_eq]

/-! ## Closing twice -/

/-- Steps between the same states with the same word and tags, and with related weights. -/
structure SameStepUpTo (alike : W → W → Prop) (first second : Transition W) : Prop where
  source_eq : first.source = second.source
  target_eq : first.target = second.target
  word?_eq : first.word? = second.word?
  weight_alike : alike first.weight second.weight
  tags_eq : first.tags = second.tags

/-- The same automaton, transition by transition, but for weights that are related. -/
structure SameUpTo (alike : W → W → Prop) (first second : Automaton P W) : Prop where
  name_eq : first.name = second.name
  stateCount_eq : first.stateCount = second.stateCount
  start_eq : first.start = second.start
  finals_eq : first.finals = second.finals
  transitions_alike :
    List.Forall₂ (SameStepUpTo alike) first.transitions second.transitions
  languageWeight_eq : first.languageWeight = second.languageWeight

omit [LogWeight W] in
theorem sameUpTo_reweigh {alike : W → W → Prop} {change : W → W}
    (halike : ∀ weight, alike (change weight) weight) (automaton : Automaton P W) :
    SameUpTo alike (automaton.reweigh change automaton.languageWeight) automaton := by
  refine ⟨rfl, rfl, rfl, rfl, ?_, rfl⟩
  rw [reweigh, List.forall₂_map_left_iff, List.forall₂_same]
  exact fun step _ => ⟨rfl, rfl, rfl, halike step.weight, rfl⟩

/--
Closing is idempotent.  A second closing leaves the same states, the same start
and final states and the same transitions in the same order, even where nothing
is accepted.  By exact arithmetic the weights are the same too, and by machine
arithmetic they are, both zeros being one.
-/
theorem close_close :
    (∀ (P W : Type) [ExactWeight W] (automaton : Automaton P W), automaton.Numbered →
      automaton.close.close = automaton.close) ∧
    ∀ (P : Type) (automaton : Automaton P SingleLog), automaton.Numbered →
      SameUpTo SingleLog.Alike automaton.close.close automaton.close := by
  constructor
  · intro P W _ automaton hnumbered
    have hzero : (fun weight : W => 0 + weight) = id := funext zero_add
    rw [hnumbered.closed_close.close_eq, hzero, reweigh_id]
  · intro P automaton hnumbered
    rw [hnumbered.closed_close.close_eq]
    exact sameUpTo_reweigh SingleLog.zero_add_alike automaton.close

/-- The final state is not reached, and the start is not the first state. -/
def mumbling : Automaton Float32 SingleLog where
  name := "mumbling"
  stateCount := 3
  start := 1
  finals := .ofList [2]
  transitions := [⟨1, 0, some "a", 0, .empty⟩, ⟨1, 1, some "b", 0, .empty⟩, ⟨0, 1, none, 0, .empty⟩]
  languageWeight := 1

theorem numbered_mumbling : mumbling.Numbered where
  start_lt := by decide
  source_lt := by decide
  target_lt := by decide

/--
Closing twice equals closing once, for an automaton with exact weights and, up to the sign of zero,
for one of single precision.
-/
theorem straggling_and_mumbling_close_close :
    straggling.Numbered ∧ straggling.close.close = straggling.close ∧
      mumbling.Numbered ∧ SameUpTo SingleLog.Alike mumbling.close.close mumbling.close :=
  ⟨wellFormed_straggling.numbered,
    close_close.1 ℕ (WithBot ℤ) straggling wellFormed_straggling.numbered, numbered_mumbling,
    close_close.2 Float32 mumbling numbered_mumbling⟩

end SpeechGrammar.Automaton
