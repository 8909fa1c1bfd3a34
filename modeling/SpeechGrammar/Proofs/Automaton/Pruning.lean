import SpeechGrammar.Proofs.Automaton.EpsilonSearch
import SpeechGrammar.Proofs.Reachability

/-!
# Pruning keeps accepting paths

Every state of an accepting path is led to from the start and leads to a final
state, so it is kept.  Renumbering the states that are kept is one-to-one, so
paths on them correspond, step by step and with the same words and weights.
-/

namespace SpeechGrammar

variable {P W : Type}

namespace Automaton

theorem eq_of_idxOf?_eq {kept : List Nat} {state other place : Nat}
    (hstate : kept.idxOf? state = some place) (hother : kept.idxOf? other = some place) :
    state = other := by
  obtain ⟨_, hget, -⟩ := List.idxOf?_eq_some_iff.mp hstate
  obtain ⟨_, hgetOther, -⟩ := List.idxOf?_eq_some_iff.mp hother
  exact hget.symm.trans hgetOther

theorem lt_of_idxOf?_eq {kept : List Nat} {state place : Nat}
    (hstate : kept.idxOf? state = some place) : place < kept.length :=
  (List.idxOf?_eq_some_iff.mp hstate).1

theorem exists_idxOf? {kept : List Nat} {state : Nat} (hstate : state ∈ kept) :
    ∃ place, kept.idxOf? state = some place :=
  Option.isSome_iff_exists.mp (List.isSome_idxOf?.mpr hstate)

theorem renumber?_eq_some_iff {kept : List Nat} {old new : Transition W} :
    renumber? kept old = some new ↔
      kept.idxOf? old.source = some new.source ∧ kept.idxOf? old.target = some new.target ∧
        new.word? = old.word? ∧ new.weight = old.weight ∧ new.tags = old.tags := by
  cases new
  cases hsource : kept.idxOf? old.source <;> cases htarget : kept.idxOf? old.target <;>
    simp [renumber?, hsource, htarget, eq_comm]

variable {automaton : Automaton P W}

/-- The states that the start leads to are those on a path from it. -/
theorem leads_iff_exists_path {first last : Nat} :
    Graph.Leads (fun state => (automaton.leaving state).map (·.target)) first last ↔
      ∃ steps, PathIn automaton.transitions first steps last := by
  constructor
  · intro hleads
    induction hleads with
    | refl => exact ⟨[], rfl⟩
    | tail _ hstep ih =>
        obtain ⟨steps, hpath⟩ := ih
        obtain ⟨step, hleaving, rfl⟩ := List.mem_map.mp hstep
        obtain ⟨hmem, hsource⟩ := List.mem_filter.mp hleaving
        obtain rfl := beq_iff_eq.mp hsource
        exact ⟨steps ++ [step], hpath.append (PathIn.single hmem)⟩
  · rintro ⟨steps, hpath⟩
    induction steps generalizing first with
    | nil =>
        obtain rfl := PathIn.nil_iff.mp hpath
        exact .refl
    | cons step steps ih =>
        obtain ⟨hmem, rfl, hrest⟩ := hpath
        refine .head (List.mem_map.mpr ⟨step, ?_, rfl⟩) (ih hrest)
        exact List.mem_filter.mpr ⟨hmem, beq_self_eq_true _⟩

theorem leads_back_iff_exists_path {first last : Nat} :
    Graph.Leads (fun state => (automaton.transitions.filter (·.target == state)).map (·.source))
        last first ↔
      ∃ steps, PathIn automaton.transitions first steps last := by
  constructor
  · intro hleads
    induction hleads with
    | refl => exact ⟨[], rfl⟩
    | tail _ hstep ih =>
        obtain ⟨steps, hpath⟩ := ih
        obtain ⟨step, hentering, rfl⟩ := List.mem_map.mp hstep
        obtain ⟨hmem, htarget⟩ := List.mem_filter.mp hentering
        obtain rfl := beq_iff_eq.mp htarget
        exact ⟨step :: steps, hmem, rfl, hpath⟩
  · rintro ⟨steps, hpath⟩
    induction steps generalizing first with
    | nil =>
        obtain rfl := PathIn.nil_iff.mp hpath
        exact .refl
    | cons step steps ih =>
        obtain ⟨hmem, rfl, hrest⟩ := hpath
        refine .tail (ih hrest) (List.mem_map.mpr ⟨step, ?_, rfl⟩)
        exact List.mem_filter.mpr ⟨hmem, beq_self_eq_true _⟩

theorem mem_fromStart_iff (hnumbered : automaton.Numbered) {state : Nat} :
    state ∈ automaton.fromStart ↔
      ∃ steps, PathIn automaton.transitions automaton.start steps state := by
  rw [fromStart, Graph.mem_reachable_iff]
  · simp [leads_iff_exists_path]
  · intro node _ next hnext
    obtain ⟨step, hmem, rfl⟩ := List.mem_map.mp hnext
    exact List.mem_range.mpr (hnumbered.target_lt step (List.mem_filter.mp hmem).1)
  · simpa using hnumbered.start_lt
  · simp

theorem mem_toFinal_iff (hnumbered : automaton.Numbered)
    (hfinals : ∀ final, final ∈ automaton.finals → final < automaton.stateCount) {state : Nat} :
    state ∈ automaton.toFinal ↔
      ∃ final, final ∈ automaton.finals ∧
        ∃ steps, PathIn automaton.transitions state steps final := by
  rw [toFinal, Graph.mem_reachable_iff]
  · simp only [leads_back_iff_exists_path, SortedSet.mem_toList]
  · intro node _ next hnext
    obtain ⟨step, hmem, rfl⟩ := List.mem_map.mp hnext
    exact List.mem_range.mpr (hnumbered.source_lt step (List.mem_filter.mp hmem).1)
  · exact fun final hfinal => List.mem_range.mpr (hfinals final hfinal)
  · simp

theorem mem_useful_iff (hnumbered : automaton.Numbered)
    (hfinals : ∀ final, final ∈ automaton.finals → final < automaton.stateCount) {state : Nat} :
    state ∈ automaton.useful ↔ state < automaton.stateCount ∧ (state = automaton.start ∨
      (∃ steps, PathIn automaton.transitions automaton.start steps state) ∧
        ∃ final, final ∈ automaton.finals ∧
          ∃ steps, PathIn automaton.transitions state steps final) := by
  simp [useful, mem_fromStart_iff hnumbered, mem_toFinal_iff hnumbered hfinals]

/-- Every state of an accepting path is useful. -/
theorem mem_useful_of_accepting (hnumbered : automaton.Numbered)
    (hfinals : ∀ final, final ∈ automaton.finals → final < automaton.stateCount) {final : Nat}
    {steps : List (Transition W)} (hfinal : final ∈ automaton.finals)
    (hpath : PathIn automaton.transitions automaton.start steps final) :
    ∀ state ∈ visited automaton.start steps, state ∈ automaton.useful := by
  intro state hstate
  obtain ⟨before, after, -, hbefore, hafter, -⟩ := hpath.split_at hstate
  exact (mem_useful_iff hnumbered hfinals).mpr
    ⟨hpath.visited_lt hnumbered.target_lt hnumbered.start_lt state hstate,
      .inr ⟨⟨before, hbefore⟩, final, hfinal, after, hafter⟩⟩

theorem mem_transitions_prune {new : Transition W} :
    new ∈ automaton.prune.transitions ↔
      ∃ old ∈ automaton.transitions, renumber? automaton.useful old = some new := by
  simp [prune]

theorem mem_finals_prune {place : Nat} :
    place ∈ automaton.prune.finals ↔
      ∃ final, final ∈ automaton.finals ∧ automaton.useful.idxOf? final = some place := by
  simp only [prune, SortedSet.mem_ofList, List.mem_filterMap, SortedSet.mem_toList]

theorem idxOf?_start (hnumbered : automaton.Numbered) :
    automaton.useful.idxOf? automaton.start = some automaton.prune.start := by
  have hstart : automaton.start ∈ automaton.useful := by
    simp [useful, hnumbered.start_lt]
  obtain ⟨place, hplace⟩ := exists_idxOf? hstart
  rw [prune, hplace, Option.getD_some]

theorem Numbered.prune (hnumbered : automaton.Numbered) : automaton.prune.Numbered := by
  refine ⟨lt_of_idxOf?_eq (idxOf?_start hnumbered), fun new hnew => ?_, fun new hnew => ?_⟩ <;>
    obtain ⟨old, -, hrenumber⟩ := mem_transitions_prune.mp hnew <;>
    obtain ⟨hsource, htarget, -⟩ := renumber?_eq_some_iff.mp hrenumber
  · exact lt_of_idxOf?_eq hsource
  · exact lt_of_idxOf?_eq htarget

/-- Steps between useful states, and the same steps between the places of these states. -/
def Renumbered (automaton : Automaton P W) (old new : List (Transition W)) : Prop :=
  List.Forall₂ (fun before after => renumber? automaton.useful before = some after) old new

theorem Renumbered.wordsOf_eq {old new : List (Transition W)}
    (hrenumbered : automaton.Renumbered old new) : wordsOf old = wordsOf new := by
  induction hrenumbered with
  | nil => rfl
  | cons hstep _ ih =>
      obtain ⟨-, -, hword, -⟩ := renumber?_eq_some_iff.mp hstep
      rw [wordsOf_cons, wordsOf_cons, hword, ih]

theorem exists_path_of_renumbered {first last place : Nat} {steps : List (Transition W)}
    (hpath : PathIn automaton.prune.transitions place steps last)
    (hfirst : automaton.useful.idxOf? first = some place) :
    ∃ old state, PathIn automaton.transitions first old state ∧
      automaton.useful.idxOf? state = some last ∧ automaton.Renumbered old steps := by
  induction steps generalizing first place with
  | nil =>
      obtain rfl := PathIn.nil_iff.mp hpath
      exact ⟨[], first, rfl, hfirst, .nil⟩
  | cons new steps ih =>
      obtain ⟨hmem, rfl, hrest⟩ := hpath
      obtain ⟨old, hold, hrenumber⟩ := mem_transitions_prune.mp hmem
      obtain ⟨hsource, htarget, -⟩ := renumber?_eq_some_iff.mp hrenumber
      obtain ⟨rest, state, hpathRest, hstate, hrenumbered⟩ := ih hrest htarget
      exact ⟨old :: rest, state, ⟨hold, eq_of_idxOf?_eq hsource hfirst, hpathRest⟩, hstate,
        .cons hrenumber hrenumbered⟩

theorem exists_renumbered_path {first last place : Nat} {old : List (Transition W)}
    (hpath : PathIn automaton.transitions first old last)
    (huseful : ∀ state ∈ visited first old, state ∈ automaton.useful)
    (hfirst : automaton.useful.idxOf? first = some place) :
    ∃ steps lastPlace, PathIn automaton.prune.transitions place steps lastPlace ∧
      automaton.useful.idxOf? last = some lastPlace ∧ automaton.Renumbered old steps := by
  induction old generalizing first place with
  | nil =>
      obtain rfl := PathIn.nil_iff.mp hpath
      exact ⟨[], place, rfl, hfirst, .nil⟩
  | cons step old ih =>
      obtain ⟨hmem, rfl, hrest⟩ := hpath
      have hvisited : ∀ state ∈ visited step.target old, state ∈ automaton.useful :=
        fun state hstate => huseful state (List.mem_cons_of_mem _ hstate)
      obtain ⟨next, hnext⟩ := exists_idxOf? (hvisited step.target (List.mem_cons_self ..))
      obtain ⟨steps, lastPlace, hsteps, hlast, hrenumbered⟩ := ih hrest hvisited hnext
      have hrenumber : renumber? automaton.useful step =
          some ⟨place, next, step.word?, step.weight, step.tags⟩ :=
        renumber?_eq_some_iff.mpr ⟨hfirst, hnext, rfl, rfl, rfl⟩
      exact ⟨_ :: steps, lastPlace,
        ⟨mem_transitions_prune.mpr ⟨step, hmem, hrenumber⟩, rfl, hsteps⟩, hlast,
        .cons hrenumber hrenumbered⟩

/-- Pruning keeps what accepting paths read. -/
theorem exists_accepting_prune_iff (hnumbered : automaton.Numbered)
    (hfinals : ∀ final, final ∈ automaton.finals → final < automaton.stateCount)
    (tokens : List String) :
    (∃ steps, automaton.prune.Accepting tokens steps) ↔
      ∃ steps, automaton.Accepting tokens steps := by
  constructor
  · rintro ⟨steps, hwords, last, hlast, hpath⟩
    obtain ⟨final, hfinal, hplace⟩ := mem_finals_prune.mp hlast
    obtain ⟨old, state, hold, hstate, hrenumbered⟩ :=
      exists_path_of_renumbered hpath (idxOf?_start hnumbered)
    obtain rfl := eq_of_idxOf?_eq hstate hplace
    exact ⟨old, hrenumbered.wordsOf_eq.trans hwords, state, hfinal, hold⟩
  · rintro ⟨old, hwords, final, hfinal, hpath⟩
    obtain ⟨steps, last, hsteps, hlast, hrenumbered⟩ :=
      exists_renumbered_path hpath (mem_useful_of_accepting hnumbered hfinals hfinal hpath)
        (idxOf?_start hnumbered)
    exact ⟨steps, hrenumbered.wordsOf_eq.symm.trans hwords, last,
      mem_finals_prune.mpr ⟨final, hfinal, hlast⟩, hsteps⟩

section Weights

variable [ExactWeight W]

theorem Renumbered.weightOf_eq {old new : List (Transition W)}
    (hrenumbered : automaton.Renumbered old new) : weightOf old = weightOf new := by
  induction hrenumbered with
  | nil => rfl
  | cons hstep _ ih =>
      obtain ⟨-, -, -, hweight, -⟩ := renumber?_eq_some_iff.mp hstep
      rw [weightOf_cons, weightOf_cons, hweight, ih]

theorem WellFormed.prune (hwf : automaton.WellFormed) : automaton.prune.WellFormed := by
  obtain ⟨hstart, hsource, htarget⟩ := hwf.numbered.prune
  refine ⟨hstart, hsource, htarget, fun new hnew => ?_, fun new hnew => ?_⟩ <;>
    obtain ⟨old, hmem, hrenumber⟩ := mem_transitions_prune.mp hnew <;>
    obtain ⟨-, -, -, hweight, -⟩ := renumber?_eq_some_iff.mp hrenumber
  · exact hweight ▸ hwf.finite old hmem
  · exact hweight ▸ hwf.nonpositive old hmem

/-- Pruning keeps the weights of the accepting paths that read some tokens. -/
theorem pathWeights_prune (hwf : automaton.WellFormed)
    (hfinals : ∀ final, final ∈ automaton.finals → final < automaton.stateCount)
    (tokens : List String) : automaton.prune.pathWeights tokens = automaton.pathWeights tokens := by
  ext weight
  constructor
  · rintro ⟨steps, ⟨hwords, last, hlast, hpath⟩, rfl⟩
    obtain ⟨final, hfinal, hplace⟩ := mem_finals_prune.mp hlast
    obtain ⟨old, state, hold, hstate, hrenumbered⟩ :=
      exists_path_of_renumbered hpath (idxOf?_start hwf.numbered)
    obtain rfl := eq_of_idxOf?_eq hstate hplace
    exact ⟨old, ⟨hrenumbered.wordsOf_eq.trans hwords, state, hfinal, hold⟩,
      hrenumbered.weightOf_eq⟩
  · rintro ⟨old, ⟨hwords, final, hfinal, hpath⟩, rfl⟩
    obtain ⟨steps, last, hsteps, hlast, hrenumbered⟩ :=
      exists_renumbered_path hpath (mem_useful_of_accepting hwf.numbered hfinals hfinal hpath)
        (idxOf?_start hwf.numbered)
    exact ⟨steps, ⟨hrenumbered.wordsOf_eq.symm.trans hwords, last,
      mem_finals_prune.mpr ⟨final, hfinal, hlast⟩, hsteps⟩, hrenumbered.weightOf_eq.symm⟩

end Weights

end Automaton

end SpeechGrammar
