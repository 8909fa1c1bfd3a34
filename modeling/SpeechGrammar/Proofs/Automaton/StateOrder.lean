import Mathlib.Algebra.Order.Ring.Int
import SpeechGrammar.Proofs.Automaton.Relaxation

/-!
# Scores do not depend on an order of states

Scoring takes the states with labels one after another three times: when a token
is read from them, when their labels are spread, and when the best final one is
chosen.  Whatever the order, a different one each time, scoring ends, and with
the same score.
-/

namespace SpeechGrammar

variable {P W : Type}

/-- The order in which the states with labels are taken, each time that they are. -/
structure StateOrder (W : Type) where
  states : Nat → Labels W → List Nat
  nodup : ∀ time labels, (states time labels).Nodup
  mem_states : ∀ time labels state, state ∈ states time labels ↔ (labels.weight? state).isSome

/-- States with labels in order and, every other time, in reverse order. -/
def StateOrder.alternating : StateOrder W where
  states time labels :=
    let states := (List.range labels.size).filter fun state => (labels.weight? state).isSome
    if time % 2 = 0 then states else states.reverse
  nodup time labels := by
    have hnodup := List.nodup_range (n := labels.size).filter fun state =>
      (labels.weight? state).isSome
    dsimp only
    split
    · exact hnodup
    · exact List.nodup_reverse.mpr hnodup
  mem_states time labels state := by
    have hlt : (labels.weight? state).isSome → state < labels.size := fun hlabel =>
      Labels.lt_size_of_weight? (Option.some_get hlabel).symm
    dsimp only
    split <;> simpa using hlt

namespace Automaton

section Definitions

variable [LogWeight W]

def readFrom (automaton : Automaton P W) (token : String) (labels : Labels W) (states : List Nat) :
    Labels W :=
  states.foldl
    (fun next state => (automaton.leaving state).foldl (followWord token labels) next)
    automaton.noLabels

def bestFinal? (automaton : Automaton P W) (labels : Labels W) (states : List Nat) : Option W :=
  LogWeight.greatest? ((states.filter automaton.isFinal).filterMap labels.weight?)

/--
Reading tokens one after another ends with a score, or with none as soon as a
token leads nowhere.
-/
inductive ReadsTo (automaton : Automaton P W) (order : StateOrder W) :
    Nat → Labels W → List String → Option W → Prop where
  | done (time : Nat) (labels : Labels W) :
      ReadsTo automaton order time labels []
        (automaton.bestFinal? labels (order.states time labels))
  | stuck {time : Nat} {labels : Labels W} {token : String} (tokens : List String)
      (hnone : (automaton.readFrom token labels (order.states time labels)).isEmpty = true) :
      ReadsTo automaton order time labels (token :: tokens) none
  | step {time : Nat} {labels next spread : Labels W} {token : String} {tokens : List String}
      {outcome : Option W}
      (hread : automaton.readFrom token labels (order.states time labels) = next)
      (hsome : next.isEmpty = false)
      (hspread : automaton.Relaxes (next, order.states (time + 1) next) spread)
      (hrest : ReadsTo automaton order (time + 2) spread tokens outcome) :
      ReadsTo automaton order time labels (token :: tokens) outcome

def atStart (automaton : Automaton P W) : Labels W :=
  automaton.noLabels.setIfInBounds automaton.start (some 0)

/-- Scoring some tokens in some order of states ends with an outcome. -/
def ScoresTo (automaton : Automaton P W) (order : StateOrder W) (tokens : List String)
    (outcome : Option W) : Prop :=
  ∃ labels, automaton.Relaxes (automaton.atStart, order.states 0 automaton.atStart) labels ∧
    automaton.ReadsTo order 1 labels tokens outcome

end Definitions

variable [ExactWeight W] {automaton : Automaton P W} {given labels found : Labels W}

/-- Reading a token from states one after another reads it from all transitions. -/
theorem readFrom_eq (hnumbered : automaton.Numbered) {token : String} {states : List Nat}
    (hstates : ∀ state, state ∈ states ↔ (labels.weight? state).isSome) :
    automaton.readFrom token labels states =
      automaton.transitions.foldl (followWord token labels) automaton.noLabels := by
  rw [readFrom, ← List.foldl_flatMap]
  have hpart : states.flatMap automaton.leaving ⊆ automaton.transitions := by
    intro step hstep
    obtain ⟨state, -, hleaving⟩ := List.mem_flatMap.mp hstep
    exact (List.mem_filter.mp hleaving).1
  obtain ⟨hsize, hwithin, hcovers⟩ :=
    foldl_followWord_noLabels hnumbered token labels hpart fun step hmem _ hsome =>
      List.mem_flatMap.mpr ⟨step.source, (hstates _).mpr hsome, by simp [leaving, hmem]⟩
  obtain ⟨hsizeAll, hwithinAll, hcoversAll⟩ :=
    foldl_followWord_transitions hnumbered token labels
  exact Labels.eq_of_covers (hsize.trans hsizeAll.symm) hwithin hcovers hwithinAll hcoversAll

theorem bestFinal?_eq (hsize : labels.size = automaton.stateCount) {states : List Nat}
    (hstates : ∀ state, state ∈ states ↔ (labels.weight? state).isSome) :
    automaton.bestFinal? labels states =
      automaton.bestFinal? labels (List.range automaton.stateCount) := by
  refine LogWeight.greatest?_congr fun weight => ?_
  simp only [List.mem_filterMap, List.mem_filter, List.mem_range]
  constructor
  · rintro ⟨state, ⟨-, hfinal⟩, hlabel⟩
    exact ⟨state, ⟨hsize ▸ Labels.lt_size_of_weight? hlabel, hfinal⟩, hlabel⟩
  · rintro ⟨state, ⟨-, hfinal⟩, hlabel⟩
    exact ⟨state, ⟨(hstates state).mpr (by rw [hlabel]; rfl), hfinal⟩, hlabel⟩

omit [ExactWeight W] in
theorem weight?_eq_none_of_isEmpty (hempty : labels.isEmpty = true) (state : Nat) :
    labels.weight? state = none := by
  rw [Labels.isEmpty, Array.all_eq_true] at hempty
  rw [Labels.weight?]
  rcases Nat.lt_or_ge state labels.size with hstate | hstate
  · rw [Array.getElem?_eq_getElem hstate]
    exact Option.isNone_iff_eq_none.mp (hempty state hstate)
  · rw [Array.getElem?_eq_none hstate, Option.join_none]

/-- Where nothing is reached, epsilon transitions reach nothing. -/
theorem weight?_spread_of_none (hwf : automaton.WellFormed)
    (hsize : given.size = automaton.stateCount) (hnone : ∀ state, given.weight? state = none)
    (state : Nat) : (automaton.spread given).weight? state = none := by
  obtain ⟨-, hwithin, -⟩ := spread_spec hwf hsize fun state weight hlabel => by
    rw [hnone] at hlabel
    cases hlabel
  refine Option.eq_none_iff_forall_not_mem.mpr fun weight hlabel => ?_
  obtain ⟨origin, start, steps, hstart, -⟩ := hwithin state weight hlabel
  rw [hnone] at hstart
  cases hstart

/-- Where nothing is reached, no tokens lead anywhere. -/
theorem weight?_foldl_step_of_none (hwf : automaton.WellFormed) (tokens : List String)
    (hnone : ∀ state, labels.weight? state = none) (state : Nat) :
    (tokens.foldl automaton.step labels).weight? state = none := by
  induction tokens generalizing labels with
  | nil => exact hnone state
  | cons token tokens ih =>
      refine ih fun place => ?_
      have hread : automaton.transitions.foldl (followWord token labels) automaton.noLabels =
          automaton.noLabels := by
        refine List.foldl_fixed' (fun step => followWord_eq_self ?_) _
        rw [hnone]
        exact fun hstep => Bool.false_ne_true hstep.2
      rw [step, hread]
      exact weight?_spread_of_none hwf (size_noLabels automaton) (weight?_noLabels automaton) place

theorem bestFinal?_eq_none (hnone : ∀ state, labels.weight? state = none) (states : List Nat) :
    automaton.bestFinal? labels states = none := by
  have hempty : (states.filter automaton.isFinal).filterMap labels.weight? = [] :=
    List.filterMap_eq_nil_iff.mpr fun state _ => hnone state
  rw [bestFinal?, hempty, LogWeight.greatest?]

section Step

variable (hwf : automaton.WellFormed) {token : String} {states : List Nat} {next : Labels W}
  (hfinite : ∀ state weight, labels.weight? state = some weight → LogWeight.floor < weight)
  (hstates : ∀ state, state ∈ states ↔ (labels.weight? state).isSome)
  (hread : automaton.readFrom token labels states = next)

include hwf hstates hread

include hfinite in
theorem relaxes_read_iff {others : List Nat}
    (hothers : ∀ state, state ∈ others ↔ (next.weight? state).isSome) :
    automaton.Relaxes (next, others) found ↔ found = automaton.step labels token := by
  obtain ⟨hsize, hwithin, -⟩ := foldl_followWord_transitions hwf.numbered token labels
  rw [readFrom_eq hwf.numbered hstates] at hread
  subst hread
  exact relaxes_iff hwf hsize
    (fun state weight hlabel => (hwithin state weight hlabel).floor_lt hwf hfinite) hothers

theorem weight?_step_of_isEmpty (hempty : next.isEmpty = true) (state : Nat) :
    (automaton.step labels token).weight? state = none := by
  rw [readFrom_eq hwf.numbered hstates] at hread
  subst hread
  obtain ⟨hsize, -⟩ := foldl_followWord_transitions hwf.numbered token labels
  exact weight?_spread_of_none hwf hsize (weight?_eq_none_of_isEmpty hempty) state

end Step

theorem readsTo_iff (hwf : automaton.WellFormed) (order : StateOrder W) (time : Nat)
    {read tokens : List String} (hlabels : automaton.Describes labels read) {outcome : Option W} :
    automaton.ReadsTo order time labels tokens outcome ↔
      outcome = automaton.bestFinal? (tokens.foldl automaton.step labels)
        (List.range automaton.stateCount) := by
  induction tokens generalizing time labels read with
  | nil =>
      rw [List.foldl_nil, ← bestFinal?_eq hlabels.size (order.mem_states time labels)]
      constructor
      · intro hreads
        cases hreads
        rfl
      · rintro rfl
        exact .done time labels
  | cons token tokens ih =>
      have hfinite := fun state weight (hlabel : labels.weight? state = some weight) =>
        hlabels.floor_lt hwf hlabel
      have hstates := order.mem_states time labels
      rw [List.foldl_cons, ← ih (time + 2) (hlabels.step hwf token)]
      constructor
      · intro hreads
        cases hreads with
        | stuck _ hempty =>
            have hnone := weight?_step_of_isEmpty hwf hstates rfl hempty
            rw [ih (time + 2) (hlabels.step hwf token),
              bestFinal?_eq_none (weight?_foldl_step_of_none hwf tokens hnone)]
        | step hread _ hspread hrest =>
            obtain rfl :=
              (relaxes_read_iff hwf hfinite hstates hread (order.mem_states _ _)).mp hspread
            exact hrest
      · intro hrest
        cases hempty : (automaton.readFrom token labels (order.states time labels)).isEmpty with
        | true =>
            have hnone := weight?_step_of_isEmpty hwf hstates rfl hempty
            rw [ih (time + 2) (hlabels.step hwf token),
              bestFinal?_eq_none (weight?_foldl_step_of_none hwf tokens hnone)] at hrest
            exact hrest ▸ .stuck tokens hempty
        | false =>
            refine .step rfl hempty ?_ hrest
            exact (relaxes_read_iff hwf hfinite hstates rfl (order.mem_states _ _)).mpr rfl

/-- Scoring in any order of states ends, and with the score. -/
theorem scoresTo_iff (hwf : automaton.WellFormed) (order : StateOrder W) {tokens : List String}
    {outcome : Option W} :
    automaton.ScoresTo order tokens outcome ↔ outcome = automaton.score? tokens := by
  have hsize : automaton.atStart.size = automaton.stateCount := by
    rw [atStart, Array.size_setIfInBounds, size_noLabels]
  have hstart : ∀ labels, automaton.Relaxes
      (automaton.atStart, order.states 0 automaton.atStart) labels ↔
      labels = automaton.startLabels := fun labels =>
    relaxes_iff hwf hsize (fun state weight hlabel => by
      rw [((weight?_setIfInBounds_start hwf.numbered state weight).mp hlabel).2]
      exact ExactWeight.floor_lt_zero) (order.mem_states 0 _)
  simp only [ScoresTo, hstart, exists_eq_left]
  exact readsTo_iff hwf order 1 (describes_startLabels hwf)

/--
Whatever the order in which states are taken, scoring some tokens ends with the
same outcome: the greatest weight of an accepting path that reads them, or none
where there is no such path.
-/
theorem scoresTo_greatest (hwf : automaton.WellFormed) (order : StateOrder W)
    (tokens : List String) :
    (∃ outcome, automaton.ScoresTo order tokens outcome) ∧
      ∀ outcome, automaton.ScoresTo order tokens outcome →
        outcome = automaton.score? tokens ∧
        (outcome = none ↔ ¬∃ steps, automaton.Accepting tokens steps) ∧
        ∀ best, outcome = some best ↔ IsGreatest (automaton.pathWeights tokens) best := by
  refine ⟨⟨_, (scoresTo_iff hwf order).mpr rfl⟩, fun outcome houtcome => ?_⟩
  obtain rfl := (scoresTo_iff hwf order).mp houtcome
  refine ⟨rfl, ?_, score?_eq_some_iff hwf tokens⟩
  rw [← accepts_iff_exists_accepting hwf, accepts, Bool.not_eq_true, Option.isSome_eq_false_iff,
    Option.isNone_iff_eq_none]

/--
States 1 and 2 form a cycle of epsilon transitions, and the final state is reached with less weight
from 1 than through 2.
-/
def detour : Automaton ℕ (WithBot ℤ) where
  name := "detour"
  stateCount := 4
  start := 0
  finals := .ofList [3]
  transitions :=
    [⟨0, 1, some "go", 0, .empty⟩, ⟨1, 3, none, (-3 : ℤ), .empty⟩, ⟨1, 2, none, (-1 : ℤ), .empty⟩,
      ⟨2, 1, none, 0, .empty⟩, ⟨2, 3, none, (-1 : ℤ), .empty⟩]
  languageWeight := 1

theorem wellFormed_detour : detour.WellFormed where
  start_lt := by decide
  source_lt := by decide
  target_lt := by decide
  finite := by decide
  nonpositive := by decide

/--
The score of `go` in `detour` is -2 when states are taken in alternating order, which is the
greatest weight of an accepting path; `go on` has no accepting path.
-/
theorem detour_taken :
    detour.ScoresTo .alternating ["go"] (some ((-2 : ℤ) : WithBot ℤ)) ∧
      IsGreatest (detour.pathWeights ["go"]) (-2 : ℤ) ∧
      ¬∃ steps, detour.Accepting ["go", "on"] steps := by
  obtain ⟨⟨went, hwent⟩, hgo⟩ := scoresTo_greatest wellFormed_detour .alternating ["go"]
  obtain ⟨⟨stopped, hstopped⟩, hon⟩ :=
    scoresTo_greatest wellFormed_detour .alternating ["go", "on"]
  obtain ⟨rfl, -, hgreatest⟩ := hgo went hwent
  obtain ⟨rfl, hnone, -⟩ := hon stopped hstopped
  have hscore : detour.score? ["go"] = some ((-2 : ℤ) : WithBot ℤ) := by decide +kernel
  exact ⟨hscore ▸ hwent, (hgreatest _).mp hscore, hnone.mp (by decide +kernel)⟩

end Automaton

end SpeechGrammar
