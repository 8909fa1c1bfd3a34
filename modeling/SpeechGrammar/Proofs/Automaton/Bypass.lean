import SpeechGrammar.Proofs.Automaton.SilentReach

/-!
# Bypassing epsilon transitions

Each path of the automaton without epsilon transitions stands for a path of
the automaton it comes from that ends with a word and has the same weight; and
each path that ends with a word is bypassed by one that is no worse.  What is
left behind the last word only decides which states are final, so weights
there are lost.
-/

namespace SpeechGrammar

variable {P W : Type}

namespace Automaton

/-- Transitions between the same states that read the same. -/
def Parallel (first second : Transition W) : Prop :=
  first.source = second.source ∧ first.target = second.target ∧ first.word? = second.word?

theorem isParallel_eq_true_iff {first second : Transition W} :
    isParallel first second = true ↔ Parallel first second := by
  simp [isParallel, Parallel, and_assoc]

section Paths

variable [LogWeight W] {automaton : Automaton P W}

theorem eq_or_mem_of_mem_addBest {transition other : Transition W} {kept : List (Transition W)}
    (hother : other ∈ addBest transition kept) : other = transition ∨ other ∈ kept := by
  induction kept with
  | nil => exact .inl (List.mem_singleton.mp hother)
  | cons first rest ih =>
      rw [addBest] at hother
      split at hother
      · rcases List.mem_cons.mp hother with hhead | hrest
        · split at hhead
          · exact .inr (hhead ▸ List.mem_cons_self ..)
          · exact .inl hhead
        · exact .inr (List.mem_cons_of_mem _ hrest)
      · rcases List.mem_cons.mp hother with rfl | hrest
        · exact .inr (List.mem_cons_self ..)
        · exact (ih hrest).imp_right (List.mem_cons_of_mem _)

/-- Adding transitions one after another adds nothing else. -/
theorem mem_or_mem_of_mem_foldl_addBest {added kept : List (Transition W)}
    {transition : Transition W}
    (hmem : transition ∈ added.foldl (fun kept transition => addBest transition kept) kept) :
    transition ∈ added ∨ transition ∈ kept := by
  induction added generalizing kept with
  | nil => exact .inr hmem
  | cons first rest ih =>
      rcases ih hmem with hrest | hkept
      · exact .inl (List.mem_cons_of_mem _ hrest)
      · rcases eq_or_mem_of_mem_addBest hkept with rfl | hold
        · exact .inl (List.mem_cons_self ..)
        · exact .inr hold

/-- A transition that reads a word behind an epsilon path from a state. -/
def ReadBehind (automaton : Automaton P W) (state : Nat) (reached : Reached W)
    (step : Transition W) : Prop :=
  reached ∈ automaton.epsilonClosure state ∧ step ∈ automaton.transitions ∧
    step.source = reached.state ∧ step.word? ≠ none

theorem mem_bypassed {state : Nat} {transition : Transition W} :
    (transition ∈ (automaton.epsilonClosure state).flatMap fun reached =>
        ((automaton.leaving reached.state).filter (!·.isEpsilon)).map (bypass state reached)) ↔
      ∃ reached step, automaton.ReadBehind state reached step ∧
        bypass state reached step = transition := by
  simp only [List.mem_flatMap, List.mem_map, List.mem_filter, leaving, beq_iff_eq,
    Transition.isEpsilon, Bool.not_eq_true', ReadBehind]
  constructor
  · rintro ⟨reached, hreached, step, ⟨⟨hmem, hsource⟩, hword⟩, hbypass⟩
    exact ⟨reached, step, ⟨hreached, hmem, hsource, Option.isSome_iff_ne_none.mp (by
      simpa using hword)⟩, hbypass⟩
  · rintro ⟨reached, step, ⟨hreached, hmem, hsource, hword⟩, hbypass⟩
    exact ⟨reached, hreached, step, ⟨⟨hmem, hsource⟩, by
      simpa using Option.isSome_iff_ne_none.mpr hword⟩, hbypass⟩

theorem exists_of_mem_bypasses {state : Nat} {transition : Transition W}
    (hmem : transition ∈ automaton.bypasses state) :
    ∃ reached step, automaton.ReadBehind state reached step ∧
      bypass state reached step = transition :=
  mem_bypassed.mp ((mem_or_mem_of_mem_foldl_addBest hmem).resolve_right List.not_mem_nil)

theorem mem_transitions_withoutEpsilons {transition : Transition W} :
    transition ∈ automaton.withoutEpsilons.transitions ↔
      ∃ state < automaton.stateCount, transition ∈ automaton.bypasses state := by
  simp [withoutEpsilons]

theorem mem_finals_withoutEpsilons (hnumbered : automaton.Numbered) {state : Nat} :
    state ∈ automaton.withoutEpsilons.finals ↔ state < automaton.stateCount ∧
      ∃ final, final ∈ automaton.finals ∧ automaton.LeadsSilently state final := by
  have hlisted : state ∈ automaton.withoutEpsilons.finals ↔
      state < automaton.stateCount ∧ ∃ reached ∈ automaton.epsilonClosure state,
        reached.state ∈ automaton.finals := by
    simp [withoutEpsilons, SortedSet.mem_ofList, leadsToFinal, isFinal, SortedSet.contains,
      SortedSet.mem_toList]
  rw [hlisted]
  refine and_congr_right fun hstate => ?_
  constructor
  · rintro ⟨reached, hreached, hfinal⟩
    exact ⟨reached.state, hfinal, (mem_statesOf_epsilonClosure hnumbered hstate).mp
      (mem_statesOf.mpr ⟨reached, hreached, rfl⟩)⟩
  · rintro ⟨final, hfinal, hleads⟩
    obtain ⟨reached, hreached, rfl⟩ :=
      mem_statesOf.mp ((mem_statesOf_epsilonClosure hnumbered hstate).mpr hleads)
    exact ⟨reached, hreached, hfinal⟩

end Paths

variable [ExactWeight W] {automaton : Automaton P W}

/-- A transition is replaced by a parallel one that is at least as good. -/
def Outdone (kept : List (Transition W)) (transition : Transition W) : Prop :=
  ∃ other ∈ kept, Parallel other transition ∧ transition.weight ≤ other.weight

theorem Outdone.of_mem {kept : List (Transition W)} {transition : Transition W}
    (hmem : transition ∈ kept) : Outdone kept transition :=
  ⟨transition, hmem, ⟨rfl, rfl, rfl⟩, le_refl _⟩

theorem Outdone.cons {kept : List (Transition W)} {transition : Transition W}
    (houtdone : Outdone kept transition) (first : Transition W) :
    Outdone (first :: kept) transition := by
  obtain ⟨other, hother, hparallel, hle⟩ := houtdone
  exact ⟨other, List.mem_cons_of_mem _ hother, hparallel, hle⟩

theorem outdone_addBest (transition : Transition W) (kept : List (Transition W)) :
    Outdone (addBest transition kept) transition := by
  induction kept with
  | nil => exact Outdone.of_mem (List.mem_singleton_self _)
  | cons first rest ih =>
      rw [addBest]
      split
      · rename_i hparallel
        split
        · rename_i hle
          exact ⟨first, List.mem_cons_self .., isParallel_eq_true_iff.mp hparallel, hle⟩
        · exact Outdone.of_mem (List.mem_cons_self ..)
      · exact ih.cons first

theorem Outdone.addBest {kept : List (Transition W)} {old : Transition W}
    (houtdone : Outdone kept old) (transition : Transition W) :
    Outdone (addBest transition kept) old := by
  obtain ⟨other, hother, ⟨hsource, htarget, hword⟩, hle⟩ := houtdone
  induction kept with
  | nil => cases hother
  | cons first rest ih =>
      rw [Automaton.addBest]
      split
      · rename_i hparallel
        rcases List.mem_cons.mp hother with rfl | hrest
        · obtain ⟨hsources, htargets, hwords⟩ := isParallel_eq_true_iff.mp hparallel
          split
          · exact ⟨other, List.mem_cons_self .., ⟨hsource, htarget, hword⟩, hle⟩
          · rename_i hworse
            exact ⟨transition, List.mem_cons_self ..,
              ⟨hsources.symm.trans hsource, htargets.symm.trans htarget, hwords.symm.trans hword⟩,
              hle.trans (not_le.mp hworse).le⟩
        · exact ⟨other, List.mem_cons_of_mem _ hrest, ⟨hsource, htarget, hword⟩, hle⟩
      · rcases List.mem_cons.mp hother with rfl | hrest
        · exact ⟨other, List.mem_cons_self .., ⟨hsource, htarget, hword⟩, hle⟩
        · exact (ih hrest).cons first

/-- Adding transitions one after another outdoes each of them, and what was outdone already. -/
theorem Outdone.foldl_addBest {added kept : List (Transition W)} {transition : Transition W}
    (hadded : transition ∈ added ∨ Outdone kept transition) :
    Outdone (added.foldl (fun kept transition => Automaton.addBest transition kept) kept)
      transition := by
  induction added generalizing kept with
  | nil => exact hadded.resolve_left List.not_mem_nil
  | cons first rest ih =>
      rw [List.foldl_cons]
      rcases hadded with hmem | hold
      · rcases List.mem_cons.mp hmem with rfl | hrest
        · exact ih (.inr (outdone_addBest transition kept))
        · exact ih (.inl hrest)
      · exact ih (.inr (hold.addBest first))

theorem exists_bypass {state : Nat} {reached : Reached W} {step : Transition W}
    (hread : automaton.ReadBehind state reached step) :
    ∃ transition ∈ automaton.bypasses state, transition.source = state ∧
      transition.target = step.target ∧ transition.word? = step.word? ∧
      reached.weight + step.weight ≤ transition.weight := by
  obtain ⟨transition, hmem, ⟨hsource, htarget, hword⟩, hle⟩ :=
    Outdone.foldl_addBest (.inl (mem_bypassed.mpr ⟨reached, step, hread, rfl⟩))
  exact ⟨transition, hmem, hsource, htarget, hword, hle⟩

/-! ## The automaton without epsilon transitions -/

/-- A transition of the automaton without epsilons is an epsilon path and a word behind it. -/
theorem exists_path_of_mem_withoutEpsilons (hwf : automaton.WellFormed) {transition : Transition W}
    (hmem : transition ∈ automaton.withoutEpsilons.transitions) :
    ∃ before step word, PathIn automaton.transitions transition.source before step.source ∧
      wordsOf before = [] ∧ step ∈ automaton.transitions ∧ step.word? = some word ∧
      transition.word? = some word ∧ transition.target = step.target ∧
      weightOf before + step.weight = transition.weight := by
  obtain ⟨state, hstate, hbypass⟩ := mem_transitions_withoutEpsilons.mp hmem
  obtain ⟨reached, step, ⟨hreached, hstep, hsource, hword⟩, rfl⟩ := exists_of_mem_bypasses hbypass
  obtain ⟨word, hword⟩ := Option.ne_none_iff_exists'.mp hword
  obtain ⟨-, hfound, -⟩ := epsilonClosure_spec hwf hstate
  obtain ⟨⟨before, hbefore, hsilent, hweight, -⟩, -⟩ := hfound reached hreached
  exact ⟨before, step, word, hsource ▸ hbefore, hsilent, hstep, hword, hword, rfl,
    congrArg (· + step.weight) hweight⟩

theorem WellFormed.withoutEpsilons (hwf : automaton.WellFormed) :
    automaton.withoutEpsilons.WellFormed := by
  have hweights : ∀ transition ∈ automaton.withoutEpsilons.transitions,
      LogWeight.floor < transition.weight ∧ transition.weight ≤ 0 := by
    intro transition hmem
    obtain ⟨before, step, word, hbefore, -, hstep, -, -, -, hweight⟩ :=
      exists_path_of_mem_withoutEpsilons hwf hmem
    rw [← hweight]
    exact ⟨ExactWeight.floor_lt_add
        (floor_lt_weightOf fun other hother => hwf.finite other (hbefore.subset hother))
        (hwf.finite step hstep),
      add_nonpos (weightOf_nonpos fun other hother => hwf.nonpositive other (hbefore.subset hother))
        (hwf.nonpositive step hstep)⟩
  refine ⟨hwf.start_lt, fun transition hmem => ?_, fun transition hmem => ?_,
    fun transition hmem => (hweights transition hmem).1,
    fun transition hmem => (hweights transition hmem).2⟩
  · obtain ⟨state, hstate, hbypass⟩ := mem_transitions_withoutEpsilons.mp hmem
    obtain ⟨reached, step, -, rfl⟩ := exists_of_mem_bypasses hbypass
    exact hstate
  · obtain ⟨before, step, word, -, -, hstep, -, -, htarget, -⟩ :=
      exists_path_of_mem_withoutEpsilons hwf hmem
    rw [htarget]
    exact hwf.target_lt step hstep

theorem exists_path_of_bypasses (hwf : automaton.WellFormed) {first last : Nat}
    {steps : List (Transition W)}
    (hpath : PathIn automaton.withoutEpsilons.transitions first steps last) :
    ∃ raw, PathIn automaton.transitions first raw last ∧ wordsOf raw = wordsOf steps ∧
      weightOf raw = weightOf steps ∧
      ∀ after, wordsOf after = [] → weightToLastWord (raw ++ after) = weightOf steps := by
  induction steps generalizing first with
  | nil => exact ⟨[], hpath, rfl, rfl, fun after hafter => weightToLastWord_of_silent hafter⟩
  | cons transition steps ih =>
      obtain ⟨hmem, rfl, hrest⟩ := hpath
      obtain ⟨before, step, word, hbefore, hsilent, hstep, hword, hread, htarget, hweight⟩ :=
        exists_path_of_mem_withoutEpsilons hwf hmem
      obtain ⟨raw, hraw, hwords, hrawWeight, hspoken⟩ := ih hrest
      rw [htarget] at hraw
      refine ⟨before ++ step :: raw, hbefore.append ⟨hstep, rfl, hraw⟩, ?_, ?_, ?_⟩
      · rw [wordsOf_append, hsilent, wordsOf_cons_some hword, wordsOf_cons_some hread, hwords]
        rfl
      · rw [weightOf_append, weightOf_cons, weightOf_cons, hrawWeight, ← add_assoc, hweight]
      · intro after hafter
        have hspeaks : wordsOf (step :: (raw ++ after)) ≠ [] := by
          rw [wordsOf_cons_some hword]
          exact List.cons_ne_nil _ _
        rw [List.append_assoc, List.cons_append, weightToLastWord_append _ hspeaks,
          weightToLastWord_cons_some hword, hspoken after hafter, weightOf_cons, ← add_assoc,
          hweight]

/-- A path is bypassed up to its last word by one that is no worse. -/
theorem exists_bypasses_of_path (hwf : automaton.WellFormed) {words : List String}
    {first last : Nat}
    {raw : List (Transition W)} (hfirst : first < automaton.stateCount)
    (hpath : PathIn automaton.transitions first raw last) (hwords : wordsOf raw = words) :
    ∃ steps middle after, PathIn automaton.withoutEpsilons.transitions first steps middle ∧
      wordsOf steps = words ∧ weightToLastWord raw ≤ weightOf steps ∧
      PathIn automaton.transitions middle after last ∧ wordsOf after = [] := by
  induction words generalizing first raw with
  | nil =>
      exact ⟨[], first, raw, rfl, rfl, (weightToLastWord_of_silent hwords).le, hpath, hwords⟩
  | cons word words ih =>
      obtain ⟨before, step, rest, rfl, hsilent, hword, hrestWords⟩ := wordsOf_eq_cons hwords
      obtain ⟨middle, hbefore, hstep, rfl, hrest⟩ := PathIn.append_iff.mp hpath
      obtain ⟨-, hfound, hall⟩ := epsilonClosure_spec hwf hfirst
      obtain ⟨reached, hreached, hstate⟩ := mem_statesOf.mp (hall before _ hbefore hsilent)
      obtain ⟨transition, hmem, rfl, htarget, hread, hle⟩ :=
        exists_bypass ⟨hreached, hstep, hstate.symm, by rw [hword]; exact Option.some_ne_none _⟩
      obtain ⟨steps, middle, after, hsteps, hstepsWords, hstepsLe, hafter, hquiet⟩ :=
        ih (hwf.target_lt step hstep) hrest hrestWords
      refine ⟨transition :: steps, middle, after, ⟨?_, rfl, htarget ▸ hsteps⟩, ?_, ?_, hafter,
        hquiet⟩
      · exact mem_transitions_withoutEpsilons.mpr ⟨transition.source, hfirst, hmem⟩
      · rw [wordsOf_cons_some (hread.trans hword), hstepsWords]
      · have hbest : weightOf before ≤ reached.weight :=
          (hfound reached hreached).2 before (hstate ▸ hbefore) hsilent
        have hspeaks : wordsOf (step :: rest) ≠ [] := by
          rw [wordsOf_cons_some hword]
          exact List.cons_ne_nil _ _
        calc
          weightToLastWord (before ++ step :: rest) =
              weightOf before + step.weight + weightToLastWord rest := by
            rw [weightToLastWord_append _ hspeaks, weightToLastWord_cons_some hword, add_assoc]
          _ ≤ reached.weight + step.weight + weightToLastWord rest :=
            add_le_add_left (add_le_add_left hbest _) _
          _ ≤ transition.weight + weightToLastWord rest := add_le_add_left hle _
          _ ≤ transition.weight + weightOf steps := add_le_add_right hstepsLe _
          _ = weightOf (transition :: steps) := (weightOf_cons ..).symm

/-- Without epsilons an accepting path has the weight of one up to its last word. -/
theorem pathWeights_withoutEpsilons_subset (hwf : automaton.WellFormed) (tokens : List String) :
    automaton.withoutEpsilons.pathWeights tokens ⊆ automaton.spokenWeights tokens := by
  rintro _ ⟨steps, ⟨hwords, last, hlast, hpath⟩, rfl⟩
  obtain ⟨-, final, hfinal, after, hafter, hsilent⟩ :=
    (mem_finals_withoutEpsilons hwf.numbered).mp hlast
  obtain ⟨raw, hraw, hrawWords, -, hweight⟩ := exists_path_of_bypasses hwf hpath
  refine ⟨raw ++ after, ⟨?_, final, hfinal, hraw.append hafter⟩, hweight after hsilent⟩
  rw [wordsOf_append, hrawWords, hwords, hsilent, List.append_nil]

theorem exists_le_of_mem_spokenWeights (hwf : automaton.WellFormed) {tokens : List String}
    {weight : W} (hweight : weight ∈ automaton.spokenWeights tokens) :
    ∃ better ∈ automaton.withoutEpsilons.pathWeights tokens, weight ≤ better := by
  obtain ⟨raw, ⟨hwords, final, hfinal, hraw⟩, rfl⟩ := hweight
  obtain ⟨steps, middle, after, hsteps, hstepsWords, hle, hafter, hsilent⟩ :=
    exists_bypasses_of_path hwf hwf.start_lt hraw hwords
  refine ⟨weightOf steps, ⟨steps, ⟨hstepsWords, middle, ?_, hsteps⟩, rfl⟩, hle⟩
  have hmiddle : middle < automaton.stateCount := hwf.withoutEpsilons.last_lt hwf.start_lt hsteps
  exact (mem_finals_withoutEpsilons hwf.numbered).mpr
    ⟨hmiddle, final, hfinal, after, hafter, hsilent⟩

/-- Without epsilons the greatest weight is the greatest weight up to the last word. -/
theorem isGreatest_pathWeights_withoutEpsilons (hwf : automaton.WellFormed) (tokens : List String)
    (weight : W) :
    IsGreatest (automaton.withoutEpsilons.pathWeights tokens) weight ↔
      IsGreatest (automaton.spokenWeights tokens) weight := by
  have hsubset := pathWeights_withoutEpsilons_subset hwf tokens
  constructor
  · rintro ⟨hmem, habove⟩
    refine ⟨hsubset hmem, fun other hother => ?_⟩
    obtain ⟨better, hbetter, hle⟩ := exists_le_of_mem_spokenWeights hwf hother
    exact hle.trans (habove hbetter)
  · rintro ⟨hmem, habove⟩
    obtain ⟨better, hbetter, hle⟩ := exists_le_of_mem_spokenWeights hwf hmem
    obtain rfl := le_antisymm hle (habove (hsubset hbetter))
    exact ⟨hbetter, fun other hother => habove (hsubset hother)⟩

end Automaton

end SpeechGrammar
