import Mathlib.Data.List.Sort
import SpeechGrammar.Proofs.Automaton.Closing

/-!
# Closed automata are trim

A closed automaton reads nothing silently and nothing twice between the same
states.  Its states are states of the automaton it comes from, in the same
order; and unless nothing is accepted, each of its states and transitions is
on an accepting path.  None of this depends on how weights are added and
compared, but whether an automaton accepts what its paths read does.
-/

namespace SpeechGrammar

variable {P W : Type}

/-- What a transition reads and between which states, whatever it weighs. -/
def Transition.course (transition : Transition W) : Nat × Nat × Option String :=
  (transition.source, transition.target, transition.word?)

theorem visited_append (first : Nat) (before after : List (Transition W)) :
    visited first (before ++ after) = visited first before ++ after.map (·.target) := by
  rw [visited, visited, List.map_append, List.cons_append]

namespace Automaton

/-- Paths from one state to another read some words. -/
def LeadsReading (automaton : Automaton P W) (first : Nat) (words : List String) (last : Nat) :
    Prop :=
  ∃ steps, PathIn automaton.transitions first steps last ∧ wordsOf steps = words

/-- Nothing is read silently or twice between the same states, and all states named exist. -/
structure Tidy (automaton : Automaton P W) : Prop where
  wordy : ∀ step ∈ automaton.transitions, step.word? ≠ none
  distinct : (automaton.transitions.map Transition.course).Nodup
  numbered : automaton.Numbered
  finals_lt : ∀ final, final ∈ automaton.finals → final < automaton.stateCount

/-- Every state and every transition is on an accepting path. -/
structure Trim (automaton : Automaton P W) : Prop where
  states : ∀ state < automaton.stateCount,
    ∃ tokens steps, automaton.Accepting tokens steps ∧ state ∈ visited automaton.start steps
  transitions : ∀ step ∈ automaton.transitions,
    ∃ tokens steps, automaton.Accepting tokens steps ∧ step ∈ steps

/--
The states of the second automaton stand for states of the first one, in the
same order.  They are final, and read a word, where the states they stand for
do so behind epsilon transitions.
-/
structure Renumbers (automaton closed : Automaton P W) (kept : List Nat) : Prop where
  increasing : kept.Pairwise (· < ·)
  below : ∀ state ∈ kept, state < automaton.stateCount
  stateCount_eq : closed.stateCount = kept.length
  start_eq : kept[closed.start]? = some automaton.start
  final_iff (place : Nat) : place ∈ closed.finals ↔
    ∃ state final, kept[place]? = some state ∧ final ∈ automaton.finals ∧
      automaton.LeadsSilently state final
  reads_iff (source target : Nat) (word : String) :
    (source, target, some word) ∈ closed.transitions.map Transition.course ↔
      ∃ state step, kept[source]? = some state ∧ kept[target]? = some step.target ∧
        step ∈ automaton.transitions ∧ automaton.LeadsSilently state step.source ∧
        step.word? = some word

variable {automaton : Automaton P W} {first middle last : Nat}

theorem LeadsReading.trans {words more : List String}
    (hfirst : automaton.LeadsReading first words middle)
    (hsecond : automaton.LeadsReading middle more last) :
    automaton.LeadsReading first (words ++ more) last := by
  obtain ⟨before, hbefore, rfl⟩ := hfirst
  obtain ⟨after, hafter, rfl⟩ := hsecond
  exact ⟨before ++ after, hbefore.append hafter, wordsOf_append before after⟩

theorem LeadsReading.step {step : Transition W} {word : String}
    (hmem : step ∈ automaton.transitions) (hword : step.word? = some word) :
    automaton.LeadsReading step.source [word] step.target :=
  ⟨[step], PathIn.single hmem, wordsOf_cons_some hword []⟩

theorem exists_accepting_iff {tokens : List String} :
    (∃ steps, automaton.Accepting tokens steps) ↔
      ∃ final, final ∈ automaton.finals ∧ automaton.LeadsReading automaton.start tokens final := by
  constructor
  · rintro ⟨steps, hwords, final, hfinal, hpath⟩
    exact ⟨final, hfinal, steps, hpath, hwords⟩
  · rintro ⟨final, hfinal, steps, hpath, hwords⟩
    exact ⟨steps, hwords, final, hfinal, hpath⟩

/-! ## Pruned automata -/

/-- In a list without repetitions a place and what stands there determine each other. -/
theorem idxOf?_eq_some_iff_getElem? {kept : List Nat} (hnodup : kept.Nodup) {state place : Nat} :
    kept.idxOf? state = some place ↔ kept[place]? = some state := by
  rw [List.idxOf?_eq_some_iff, List.getElem?_eq_some_iff]
  constructor
  · rintro ⟨hplace, hget, -⟩
    exact ⟨hplace, hget⟩
  · rintro ⟨hplace, hget⟩
    refine ⟨hplace, hget, fun other hother hsame => ?_⟩
    have heq : other = place := hnodup.getElem_inj_iff.mp (hsame.trans hget.symm)
    omega

theorem increasing_useful (automaton : Automaton P W) : automaton.useful.Pairwise (· < ·) :=
  List.pairwise_lt_range.filter _

theorem nodup_useful (automaton : Automaton P W) : automaton.useful.Nodup :=
  (increasing_useful automaton).imp Nat.ne_of_lt

theorem lt_of_mem_useful {state : Nat} (hstate : state ∈ automaton.useful) :
    state < automaton.stateCount :=
  List.mem_range.mp (List.mem_of_mem_filter hstate)

/-- Each kept state is on an accepting path, unless no path is accepting. -/
theorem exists_paths_of_mem_useful (hnumbered : automaton.Numbered)
    (hfinals : ∀ final, final ∈ automaton.finals → final < automaton.stateCount)
    (hlive : ∃ tokens steps, automaton.Accepting tokens steps) {state : Nat}
    (hstate : state ∈ automaton.useful) :
    ∃ before after final, final ∈ automaton.finals ∧
      PathIn automaton.transitions automaton.start before state ∧
      PathIn automaton.transitions state after final := by
  obtain ⟨-, rfl | ⟨⟨before, hbefore⟩, final, hfinal, after, hafter⟩⟩ :=
    (mem_useful_iff hnumbered hfinals).mp hstate
  · obtain ⟨tokens, steps, -, final, hfinal, hsteps⟩ := hlive
    exact ⟨[], steps, final, hfinal, rfl, hsteps⟩
  · exact ⟨before, after, final, hfinal, hbefore, hafter⟩

theorem exists_renumbered_paths (hnumbered : automaton.Numbered)
    (hfinals : ∀ final, final ∈ automaton.finals → final < automaton.stateCount)
    (hlive : ∃ tokens steps, automaton.Accepting tokens steps) {state place : Nat}
    (hplace : automaton.useful.idxOf? state = some place) :
    ∃ before after final, final ∈ automaton.prune.finals ∧
      PathIn automaton.prune.transitions automaton.prune.start before place ∧
      PathIn automaton.prune.transitions place after final := by
  have hstate : state ∈ automaton.useful := List.isSome_idxOf?.mp (by rw [hplace]; rfl)
  obtain ⟨before, after, final, hfinal, hbefore, hafter⟩ :=
    exists_paths_of_mem_useful hnumbered hfinals hlive hstate
  have huseful := mem_useful_of_accepting hnumbered hfinals hfinal (hbefore.append hafter)
  rw [visited_append] at huseful
  obtain ⟨steps, middle, hsteps, hmiddle, -⟩ := exists_renumbered_path hbefore
    (fun other hother => huseful other (List.mem_append_left _ hother)) (idxOf?_start hnumbered)
  obtain rfl := Option.some.inj (hmiddle.symm.trans hplace)
  obtain ⟨rest, last, hrest, hlast, -⟩ := exists_renumbered_path hafter
    (fun other hother => (List.mem_cons.mp hother).elim (fun hsame => hsame ▸ hstate)
      fun htail => huseful other (List.mem_append_right _ htail)) hplace
  exact ⟨steps, rest, last, mem_finals_prune.mpr ⟨final, hfinal, hlast⟩, hsteps, hrest⟩

/-- A pruned automaton is trim, unless no path is accepting. -/
theorem trim_prune (hnumbered : automaton.Numbered)
    (hfinals : ∀ final, final ∈ automaton.finals → final < automaton.stateCount)
    (hlive : ∃ tokens steps, automaton.Accepting tokens steps) : automaton.prune.Trim := by
  constructor
  case states =>
    intro place hlt
    have hplace := (idxOf?_eq_some_iff_getElem? (nodup_useful automaton)).mpr
      (List.getElem?_eq_getElem hlt)
    obtain ⟨before, after, final, hfinal, hbefore, hafter⟩ :=
      exists_renumbered_paths hnumbered hfinals hlive hplace
    refine ⟨_, before ++ after, ⟨rfl, final, hfinal, hbefore.append hafter⟩, ?_⟩
    rw [visited_append]
    exact List.mem_append_left _ hbefore.last_mem_visited
  case transitions =>
    intro new hnew
    obtain ⟨old, -, hrenumber⟩ := mem_transitions_prune.mp hnew
    obtain ⟨hsource, htarget, -⟩ := renumber?_eq_some_iff.mp hrenumber
    obtain ⟨before, -, -, -, hbefore, -⟩ :=
      exists_renumbered_paths hnumbered hfinals hlive hsource
    obtain ⟨-, after, final, hfinal, -, hafter⟩ :=
      exists_renumbered_paths hnumbered hfinals hlive htarget
    exact ⟨_, before ++ new :: after, ⟨rfl, final, hfinal, hbefore.append ⟨hnew, rfl, hafter⟩⟩,
      List.mem_append_right _ (List.mem_cons_self ..)⟩

/-- Nothing is dead exactly if some path is accepting. -/
theorem isDead_eq_true_iff (hnumbered : automaton.Numbered)
    (hfinals : ∀ final, final ∈ automaton.finals → final < automaton.stateCount) :
    automaton.isDead = true ↔ ¬ ∃ tokens steps, automaton.Accepting tokens steps := by
  rw [isDead, Bool.not_eq_true', List.contains_eq_mem, decide_eq_false_iff_not,
    mem_toFinal_iff hnumbered hfinals]
  refine not_congr ⟨?_, ?_⟩
  · rintro ⟨final, hfinal, steps, hsteps⟩
    exact ⟨wordsOf steps, steps, rfl, final, hfinal, hsteps⟩
  · rintro ⟨tokens, steps, -, final, hfinal, hsteps⟩
    exact ⟨final, hfinal, steps, hsteps⟩

/-- Of an automaton without accepting paths only the start is left, and it is not final. -/
theorem prune_of_isDead (hnumbered : automaton.Numbered)
    (hfinals : ∀ final, final ∈ automaton.finals → final < automaton.stateCount)
    (hdead : automaton.isDead = true) :
    automaton.prune.stateCount = 1 ∧ automaton.prune.finals = .empty := by
  have hnone := (isDead_eq_true_iff hnumbered hfinals).mp hdead
  have honly : ∀ state, state ∈ automaton.useful ↔ state ∈ [automaton.start] := by
    intro state
    rw [mem_useful_iff hnumbered hfinals, List.mem_singleton]
    constructor
    · rintro ⟨-, rfl | ⟨⟨before, hbefore⟩, final, hfinal, after, hafter⟩⟩
      · rfl
      · exact absurd ⟨_, before ++ after, rfl, final, hfinal, hbefore.append hafter⟩ hnone
    · rintro rfl
      exact ⟨hnumbered.start_lt, .inl rfl⟩
  have huseful : automaton.useful = [automaton.start] :=
    (increasing_useful automaton).eq_of_mem_iff (List.pairwise_singleton _ _) honly
  constructor
  · rw [prune, huseful, List.length_singleton]
  · apply SortedSet.ext
    intro place
    refine iff_of_false (fun hplace => hnone ?_) (SortedSet.not_mem_empty place)
    obtain ⟨final, hfinal, hkept⟩ := mem_finals_prune.mp hplace
    rw [idxOf?_eq_some_iff_getElem? (nodup_useful automaton)] at hkept
    obtain rfl := List.mem_singleton.mp ((honly final).mp (List.mem_of_getElem? hkept))
    exact ⟨[], [], rfl, _, hfinal, rfl⟩

/-- Pruning keeps an automaton from reading anything silently or twice. -/
theorem Tidy.prune (htidy : automaton.Tidy) : automaton.prune.Tidy := by
  constructor
  case wordy =>
    intro new hnew
    obtain ⟨old, hmem, hrenumber⟩ := mem_transitions_prune.mp hnew
    obtain ⟨-, -, hword, -⟩ := renumber?_eq_some_iff.mp hrenumber
    rw [hword]
    exact htidy.wordy old hmem
  case distinct =>
    rw [List.Nodup, List.pairwise_map, Automaton.prune, List.pairwise_filterMap]
    refine (List.pairwise_map.mp htidy.distinct).imp ?_
    intro old other hcourses new hnew another hanother hsame
    apply hcourses
    obtain ⟨hsource, htarget, hword, -⟩ := renumber?_eq_some_iff.mp hnew
    obtain ⟨hotherSource, hotherTarget, hotherWord, -⟩ := renumber?_eq_some_iff.mp hanother
    simp only [Transition.course, Prod.mk.injEq] at hsame ⊢
    refine ⟨eq_of_idxOf?_eq hsource (hsame.1 ▸ hotherSource),
      eq_of_idxOf?_eq htarget (hsame.2.1 ▸ hotherTarget), ?_⟩
    rw [← hword, ← hotherWord]
    exact hsame.2.2
  case numbered => exact htidy.numbered.prune
  case finals_lt =>
    intro place hplace
    obtain ⟨final, -, hkept⟩ := mem_finals_prune.mp hplace
    exact lt_of_idxOf?_eq hkept

variable [LogWeight W]

/-! ## Courses of bypasses -/

omit [LogWeight W] in
theorem isParallel_iff_course_eq {first second : Transition W} :
    isParallel first second = true ↔ first.course = second.course := by
  simp [isParallel_eq_true_iff, Parallel, Transition.course]

theorem courses_addBest (transition : Transition W) (kept : List (Transition W)) :
    (addBest transition kept).map Transition.course =
      if transition.course ∈ kept.map Transition.course then kept.map Transition.course
      else kept.map Transition.course ++ [transition.course] := by
  induction kept with
  | nil => rfl
  | cons other rest ih =>
      rw [addBest]
      by_cases hparallel : isParallel other transition = true
      · have hcourse := isParallel_iff_course_eq.mp hparallel
        have hmem : transition.course ∈ (other :: rest).map Transition.course :=
          List.mem_map.mpr ⟨other, List.mem_cons_self .., hcourse⟩
        rw [if_pos hparallel, if_pos hmem, List.map_cons, List.map_cons]
        split
        · rfl
        · rw [hcourse]
      · have hcourse : transition.course ≠ other.course :=
          fun hsame => hparallel (isParallel_iff_course_eq.mpr hsame.symm)
        rw [if_neg hparallel, List.map_cons, ih, List.map_cons]
        simp only [List.mem_cons, hcourse, false_or]
        split <;> rfl

theorem nodup_courses_foldl_addBest {added kept : List (Transition W)}
    (hkept : (kept.map Transition.course).Nodup) :
    ((added.foldl (fun kept transition => addBest transition kept) kept).map
      Transition.course).Nodup := by
  induction added generalizing kept with
  | nil => exact hkept
  | cons transition added ih =>
      rw [List.foldl_cons]
      apply ih
      rw [courses_addBest]
      split
      · exact hkept
      · rename_i hnew
        rw [← List.concat_eq_append]
        exact List.Nodup.concat hnew hkept

theorem mem_courses_foldl_addBest {added kept : List (Transition W)}
    {course : Nat × Nat × Option String} :
    course ∈ (added.foldl (fun kept transition => addBest transition kept) kept).map
        Transition.course ↔
      course ∈ added.map Transition.course ∨ course ∈ kept.map Transition.course := by
  induction added generalizing kept with
  | nil => simp
  | cons transition added ih =>
      rw [List.foldl_cons, ih, courses_addBest, List.map_cons, List.mem_cons]
      split
      · rename_i hold
        constructor
        · exact Or.imp_left .inr
        · rintro ((rfl | hadded) | hkept)
          · exact .inr hold
          · exact .inl hadded
          · exact .inr hkept
      · rw [List.mem_append, List.mem_singleton]
        tauto

/-- A state reads behind epsilon transitions what one of its bypasses reads. -/
theorem mem_courses_bypasses (hnumbered : automaton.Numbered) {state : Nat}
    (hstate : state < automaton.stateCount) {course : Nat × Nat × Option String} :
    course ∈ (automaton.bypasses state).map Transition.course ↔
      ∃ step ∈ automaton.transitions, automaton.LeadsSilently state step.source ∧
        step.word? ≠ none ∧ (state, step.target, step.word?) = course := by
  rw [bypasses, mem_courses_foldl_addBest, List.map_nil, List.mem_map]
  constructor
  · rintro (⟨transition, hmem, rfl⟩ | hnil)
    · obtain ⟨reached, step, ⟨hreached, hstep, hsource, hword⟩, rfl⟩ := mem_bypassed.mp hmem
      refine ⟨step, hstep, ?_, hword, rfl⟩
      rw [hsource]
      exact (mem_statesOf_epsilonClosure hnumbered hstate).mp
        (mem_statesOf.mpr ⟨reached, hreached, rfl⟩)
    · cases hnil
  · rintro ⟨step, hstep, hleads, hword, rfl⟩
    obtain ⟨reached, hreached, hsource⟩ :=
      mem_statesOf.mp ((mem_statesOf_epsilonClosure hnumbered hstate).mpr hleads)
    exact .inl ⟨bypass state reached step,
      mem_bypassed.mpr ⟨reached, step, ⟨hreached, hstep, hsource.symm, hword⟩, rfl⟩, rfl⟩

theorem mem_courses_withoutEpsilons (hnumbered : automaton.Numbered)
    {course : Nat × Nat × Option String} :
    course ∈ automaton.withoutEpsilons.transitions.map Transition.course ↔
      ∃ state < automaton.stateCount, ∃ step ∈ automaton.transitions,
        automaton.LeadsSilently state step.source ∧ step.word? ≠ none ∧
          (state, step.target, step.word?) = course := by
  simp only [withoutEpsilons, List.map_flatMap, List.mem_flatMap, List.mem_range]
  refine exists_congr fun state => and_congr_right fun hstate => ?_
  exact mem_courses_bypasses hnumbered hstate

/-- Without epsilons nothing is read silently or twice between the same states. -/
theorem Numbered.tidy_withoutEpsilons (hnumbered : automaton.Numbered) :
    automaton.withoutEpsilons.Tidy := by
  have hcourse : ∀ step ∈ automaton.withoutEpsilons.transitions,
      ∃ state < automaton.stateCount, ∃ old ∈ automaton.transitions,
        automaton.LeadsSilently state old.source ∧ old.word? ≠ none ∧
          (state, old.target, old.word?) = step.course :=
    fun step hstep => (mem_courses_withoutEpsilons hnumbered).mp (List.mem_map_of_mem hstep)
  constructor
  case wordy =>
    intro step hstep
    obtain ⟨state, -, old, -, -, hword, hsame⟩ := hcourse step hstep
    obtain ⟨rfl, -, hwords⟩ := by simpa only [Transition.course, Prod.mk.injEq] using hsame
    exact hwords ▸ hword
  case distinct =>
    rw [withoutEpsilons, List.map_flatMap, List.nodup_flatMap]
    refine ⟨fun state _ => nodup_courses_foldl_addBest List.nodup_nil, ?_⟩
    refine List.nodup_range.imp_of_mem ?_
    intro state other hstate hother hne course hleft hright
    obtain ⟨step, -, -, -, rfl⟩ :=
      (mem_courses_bypasses hnumbered (List.mem_range.mp hstate)).mp hleft
    obtain ⟨another, -, -, -, hsame⟩ :=
      (mem_courses_bypasses hnumbered (List.mem_range.mp hother)).mp hright
    exact hne (congrArg Prod.fst hsame).symm
  case numbered =>
    refine ⟨hnumbered.start_lt, fun step hstep => ?_, fun step hstep => ?_⟩ <;>
      obtain ⟨state, hstate, old, hold, -, -, hsame⟩ := hcourse step hstep <;>
      simp only [Transition.course, Prod.mk.injEq] at hsame
    · exact hsame.1 ▸ hstate
    · exact hsame.2.1 ▸ hnumbered.target_lt old hold
  case finals_lt =>
    exact fun final hfinal => ((mem_finals_withoutEpsilons hnumbered).mp hfinal).1

/-! ## Closed automata -/

theorem leadsReading_of_withoutEpsilons (hnumbered : automaton.Numbered) {words : List String}
    (hleads : automaton.withoutEpsilons.LeadsReading first words last) :
    automaton.LeadsReading first words last := by
  obtain ⟨steps, hpath, rfl⟩ := hleads
  induction steps generalizing first with
  | nil => exact ⟨[], hpath, rfl⟩
  | cons step steps ih =>
      obtain ⟨hmem, rfl, hrest⟩ := hpath
      obtain ⟨state, -, old, hold, hsilent, hword, hsame⟩ :=
        (mem_courses_withoutEpsilons hnumbered).mp (List.mem_map_of_mem hmem)
      simp only [Transition.course, Prod.mk.injEq] at hsame
      obtain ⟨rfl, htarget, hwords⟩ := hsame
      obtain ⟨word, hread⟩ := Option.ne_none_iff_exists'.mp hword
      have hfirst : automaton.LeadsReading step.source ([] ++ [word]) step.target :=
        LeadsReading.trans hsilent (htarget ▸ LeadsReading.step hold hread)
      rw [wordsOf_cons_some (hwords.symm.trans hread)]
      exact hfirst.trans (ih hrest)

/-- What an automaton reads is read without epsilons, up to those behind the last word. -/
theorem exists_leadsReading_withoutEpsilons (hnumbered : automaton.Numbered) {words : List String}
    (hfirst : first < automaton.stateCount) (hleads : automaton.LeadsReading first words last) :
    ∃ middle, automaton.withoutEpsilons.LeadsReading first words middle ∧
      automaton.LeadsSilently middle last := by
  obtain ⟨steps, hpath, hwords⟩ := hleads
  induction words generalizing first steps with
  | nil => exact ⟨first, ⟨[], rfl, rfl⟩, steps, hpath, hwords⟩
  | cons word words ih =>
      obtain ⟨before, step, rest, rfl, hsilent, hword, hrestWords⟩ := wordsOf_eq_cons hwords
      obtain ⟨_, hbefore, hstep, rfl, hrest⟩ := PathIn.append_iff.mp hpath
      have hcourse : (first, step.target, step.word?) ∈
          automaton.withoutEpsilons.transitions.map Transition.course := by
        apply (mem_courses_withoutEpsilons hnumbered).mpr
        exact ⟨first, hfirst, step, hstep, ⟨before, hbefore, hsilent⟩,
          hword ▸ Option.some_ne_none word, rfl⟩
      obtain ⟨transition, hmem, hsame⟩ := List.mem_map.mp hcourse
      simp only [Transition.course, Prod.mk.injEq] at hsame
      obtain ⟨rfl, htarget, hread⟩ := hsame
      obtain ⟨middle, hmiddle, hquiet⟩ := ih (hnumbered.target_lt step hstep) rest hrest hrestWords
      rw [← htarget] at hmiddle
      exact ⟨middle, (LeadsReading.step hmem (hread.trans hword)).trans hmiddle, hquiet⟩

theorem exists_accepting_withoutEpsilons_iff (hnumbered : automaton.Numbered)
    (tokens : List String) :
    (∃ steps, automaton.withoutEpsilons.Accepting tokens steps) ↔
      ∃ steps, automaton.Accepting tokens steps := by
  rw [exists_accepting_iff, exists_accepting_iff]
  constructor
  · rintro ⟨middle, hmiddle, hleads⟩
    obtain ⟨-, final, hfinal, hsilent⟩ := (mem_finals_withoutEpsilons hnumbered).mp hmiddle
    refine ⟨final, hfinal, ?_⟩
    rw [← List.append_nil tokens]
    exact (leadsReading_of_withoutEpsilons hnumbered hleads).trans hsilent
  · rintro ⟨final, hfinal, hleads⟩
    obtain ⟨middle, hread, hsilent⟩ :=
      exists_leadsReading_withoutEpsilons hnumbered hnumbered.start_lt hleads
    obtain ⟨steps, hpath, -⟩ := id hread
    have hmiddle : middle < automaton.stateCount :=
      hnumbered.tidy_withoutEpsilons.numbered.last_lt hnumbered.start_lt hpath
    exact ⟨middle, (mem_finals_withoutEpsilons hnumbered).mpr ⟨hmiddle, final, hfinal, hsilent⟩,
      hread⟩

/-- The states of a closed automaton stand for the useful ones, once epsilons are bypassed. -/
theorem renumbers_close (hnumbered : automaton.Numbered) :
    automaton.Renumbers automaton.close automaton.withoutEpsilons.useful := by
  have hplace : ∀ {state place : Nat}, automaton.withoutEpsilons.useful.idxOf? state = some place ↔
      automaton.withoutEpsilons.useful[place]? = some state :=
    idxOf?_eq_some_iff_getElem? (nodup_useful automaton.withoutEpsilons)
  have hbelow : ∀ state ∈ automaton.withoutEpsilons.useful,
      state < automaton.withoutEpsilons.stateCount := fun _ hstate => lt_of_mem_useful hstate
  constructor
  case increasing => exact increasing_useful automaton.withoutEpsilons
  case below => exact hbelow
  case stateCount_eq => rfl
  case start_eq => exact hplace.mp (idxOf?_start hnumbered.tidy_withoutEpsilons.numbered)
  case final_iff =>
    intro place
    rw [close, mem_finals_prune]
    constructor
    · rintro ⟨state, hfinal, hkept⟩
      obtain ⟨-, final, hlast, hleads⟩ := (mem_finals_withoutEpsilons hnumbered).mp hfinal
      exact ⟨state, final, hplace.mp hkept, hlast, hleads⟩
    · rintro ⟨state, final, hkept, hlast, hleads⟩
      exact ⟨state, (mem_finals_withoutEpsilons hnumbered).mpr
        ⟨hbelow state (List.mem_of_getElem? hkept), final, hlast, hleads⟩, hplace.mpr hkept⟩
  case reads_iff =>
    intro source target word
    constructor
    · intro hread
      obtain ⟨new, hnew, hcourse⟩ := List.mem_map.mp hread
      simp only [Transition.course, Prod.mk.injEq] at hcourse
      obtain ⟨rfl, rfl, hword⟩ := hcourse
      obtain ⟨old, hold, hrenumber⟩ := mem_transitions_prune.mp hnew
      obtain ⟨hsource, htarget, hwords, -⟩ := renumber?_eq_some_iff.mp hrenumber
      obtain ⟨state, -, step, hstep, hleads, -, hsame⟩ :=
        (mem_courses_withoutEpsilons hnumbered).mp (List.mem_map_of_mem hold)
      simp only [Transition.course, Prod.mk.injEq] at hsame
      obtain ⟨rfl, hstepTarget, hstepWord⟩ := hsame
      exact ⟨old.source, step, hplace.mp hsource, hplace.mp (hstepTarget ▸ htarget), hstep, hleads,
        hstepWord.trans (hwords.symm.trans hword)⟩
    · rintro ⟨state, step, hsource, htarget, hstep, hleads, hword⟩
      have hstate := hbelow state (List.mem_of_getElem? hsource)
      obtain ⟨old, hold, hsame⟩ := List.mem_map.mp ((mem_courses_withoutEpsilons hnumbered).mpr
        ⟨state, hstate, step, hstep, hleads, hword ▸ Option.some_ne_none word, rfl⟩)
      simp only [Transition.course, Prod.mk.injEq] at hsame
      obtain ⟨rfl, holdTarget, holdWord⟩ := hsame
      have hrenumber : renumber? automaton.withoutEpsilons.useful old =
          some ⟨source, target, old.word?, old.weight, old.tags⟩ :=
        renumber?_eq_some_iff.mpr
          ⟨hplace.mpr hsource, holdTarget ▸ hplace.mpr htarget, rfl, rfl, rfl⟩
      refine List.mem_map.mpr ⟨_, mem_transitions_prune.mpr ⟨old, hold, hrenumber⟩, ?_⟩
      rw [Transition.course, holdWord, hword]

/-- What closing an automaton comes to, given which token sequences it accepts. -/
structure ClosesTrimly (automaton : Automaton P W) (Accepted : List String → Prop) : Prop where
  tidy : automaton.close.Tidy
  renumbers : ∃ kept, automaton.Renumbers automaton.close kept
  trim : (∃ tokens, Accepted tokens) → automaton.close.Trim
  acceptsNothing_iff : automaton.acceptsNothing = true ↔ ∀ tokens, ¬ Accepted tokens
  nothing_left : automaton.acceptsNothing = true →
    automaton.close.stateCount = 1 ∧ automaton.close.finals = .empty

theorem Numbered.closesTrimly (hnumbered : automaton.Numbered) :
    automaton.ClosesTrimly fun tokens => ∃ steps, automaton.Accepting tokens steps := by
  have htidy := hnumbered.tidy_withoutEpsilons
  constructor
  case tidy => exact htidy.prune
  case renumbers => exact ⟨_, renumbers_close hnumbered⟩
  case trim =>
    rintro ⟨tokens, haccepted⟩
    apply trim_prune htidy.numbered htidy.finals_lt
    exact ⟨tokens, (exists_accepting_withoutEpsilons_iff hnumbered tokens).mpr haccepted⟩
  case acceptsNothing_iff =>
    rw [acceptsNothing, isDead_eq_true_iff htidy.numbered htidy.finals_lt, not_exists]
    exact forall_congr' fun tokens =>
      not_congr (exists_accepting_withoutEpsilons_iff hnumbered tokens)
  case nothing_left => exact prune_of_isDead htidy.numbered htidy.finals_lt

/--
A closed automaton is trim.  It reads nothing silently or twice between the
same states, its states are states of the automaton it comes from in the same
order, all of it is on accepting paths if anything is accepted, and otherwise
closing finds that out and leaves one state.  By any arithmetic this holds of
what the paths of the automaton read, and by exact arithmetic of what it is
found to accept.
-/
theorem close_trims :
    (∀ (P W : Type) [LogWeight W] (automaton : Automaton P W), automaton.Numbered →
      automaton.ClosesTrimly fun tokens => ∃ steps, automaton.Accepting tokens steps) ∧
    ∀ (P W : Type) [ExactWeight W] (automaton : Automaton P W), automaton.WellFormed →
      automaton.ClosesTrimly fun tokens => automaton.accepts tokens = true := by
  constructor
  · intro P W _ automaton hnumbered
    exact hnumbered.closesTrimly
  · intro P W _ automaton hwf
    have haccepts : (fun tokens => automaton.accepts tokens = true) =
        fun tokens => ∃ steps, automaton.Accepting tokens steps :=
      funext fun tokens => propext (accepts_iff_exists_accepting hwf tokens)
    rw [haccepts]
    exact hwf.numbered.closesTrimly

/-- The start is not the first state, and the states 1 and 3 are on no accepting path. -/
def straggling : Automaton ℕ (WithBot ℤ) where
  name := "straggling"
  stateCount := 5
  start := 2
  finals := .ofList [4]
  transitions :=
    [⟨2, 0, none, (-1 : ℤ), .empty⟩, ⟨0, 2, none, 0, .empty⟩, ⟨0, 4, some "a", 0, .empty⟩,
      ⟨2, 4, some "a", (-3 : ℤ), .empty⟩, ⟨2, 1, some "b", 0, .empty⟩, ⟨3, 4, some "c", 0, .empty⟩]
  languageWeight := 1

theorem wellFormed_straggling : straggling.WellFormed where
  start_lt := by decide
  source_lt := by decide
  target_lt := by decide
  finite := by decide
  nonpositive := by decide

/-- `straggling` accepts `a`, and closing it leaves two of its five states in a trim automaton. -/
theorem straggling_close_trims :
    straggling.WellFormed ∧ straggling.accepts ["a"] = true ∧
      straggling.acceptsNothing = false ∧ straggling.close.stateCount = 2 ∧
      straggling.close.Tidy ∧ straggling.close.Trim := by
  have htrims := close_trims.2 ℕ (WithBot ℤ) straggling wellFormed_straggling
  have haccepts : straggling.accepts ["a"] = true := by decide +kernel
  exact ⟨wellFormed_straggling, haccepts, by decide +kernel, by decide +kernel, htrims.tidy,
    htrims.trim ⟨["a"], haccepts⟩⟩

end Automaton

end SpeechGrammar
