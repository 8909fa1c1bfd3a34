import SpeechGrammar.Automaton.Closure

/-!
# Changing the weights of an automaton

Pruning does not look at weights.  Bypassing epsilon transitions adds and
compares them, so it may be done before or after a change of weights that
keeps nothing, sums and comparisons.
-/

namespace SpeechGrammar

variable {P Q W V : Type}

def Transition.mapWeight (change : W → V) (transition : Transition W) : Transition V :=
  ⟨transition.source, transition.target, transition.word?, change transition.weight,
    transition.tags⟩

def Reached.mapWeight (change : W → V) (found : Reached W) : Reached V :=
  ⟨found.state, change found.weight, found.tags⟩

namespace Automaton

def reweigh (change : W → V) (languageWeight : Q) (automaton : Automaton P W) : Automaton Q V :=
  { name := automaton.name
    stateCount := automaton.stateCount
    start := automaton.start
    finals := automaton.finals
    transitions := automaton.transitions.map (·.mapWeight change)
    languageWeight }

theorem reweigh_id (automaton : Automaton P W) :
    automaton.reweigh id automaton.languageWeight = automaton := by
  have htransitions : automaton.transitions.map (·.mapWeight id) = automaton.transitions :=
    List.map_id automaton.transitions
  rw [reweigh, htransitions]

theorem leaving_reweigh (change : W → V) (languageWeight : Q)
    (automaton : Automaton P W) (state : Nat) :
    (automaton.reweigh change languageWeight).leaving state =
      (automaton.leaving state).map (·.mapWeight change) :=
  List.filter_map

theorem useful_reweigh (change : W → V) (languageWeight : Q)
    (automaton : Automaton P W) :
    (automaton.reweigh change languageWeight).useful = automaton.useful := by
  have hahead : (automaton.reweigh change languageWeight).fromStart = automaton.fromStart := by
    simp only [fromStart, leaving_reweigh, List.map_map]
    rfl
  have hback : (automaton.reweigh change languageWeight).toFinal = automaton.toFinal := by
    simp only [toFinal, reweigh, List.filter_map, List.map_map]
    rfl
  rw [useful, useful, hahead, hback]
  rfl

theorem renumber?_mapWeight (change : W → V) (kept : List Nat) (transition : Transition W) :
    renumber? kept (transition.mapWeight change) =
      (renumber? kept transition).map (·.mapWeight change) := by
  rw [renumber?, renumber?]
  cases hsource : kept.idxOf? transition.source <;>
    cases htarget : kept.idxOf? transition.target <;>
    simp [Transition.mapWeight, hsource, htarget]

theorem prune_reweigh (change : W → V) (languageWeight : Q)
    (automaton : Automaton P W) :
    (automaton.reweigh change languageWeight).prune =
      automaton.prune.reweigh change languageWeight := by
  have htransitions : (automaton.transitions.map (·.mapWeight change)).filterMap
      (renumber? automaton.useful) =
      (automaton.transitions.filterMap (renumber? automaton.useful)).map
        (·.mapWeight change) := by
    rw [List.filterMap_map, List.map_filterMap]
    congr 1
    funext transition
    exact renumber?_mapWeight change automaton.useful transition
  rw [prune, prune, useful_reweigh]
  simp only [reweigh, htransitions]

/-- A change of weights that keeps nothing, sums and comparisons. -/
structure KeepsSums [LogWeight W] [LogWeight V] (change : W → V) : Prop where
  zero : change 0 = 0
  add (first second : W) : change (first + second) = change first + change second
  le_iff (first second : W) : change first ≤ change second ↔ first ≤ second
  order_eq (first second : W) :
    LogWeight.order (change first) (change second) = LogWeight.order first second

variable [LogWeight W] [LogWeight V] {change : W → V} {languageWeight : Q}

theorem KeepsSums.best?_map (hkeeps : KeepsSums change) (pending : List (Reached W)) :
    best? (pending.map (Reached.mapWeight change)) =
      (best? pending).map (Reached.mapWeight change) := by
  have hprefers : ∀ first second : Reached W,
      prefers (first.mapWeight change) (second.mapWeight change) = prefers first second := by
    intro first second
    rw [prefers, prefers, Reached.mapWeight, Reached.mapWeight, hkeeps.order_eq]
  cases pending with
  | nil => rfl
  | cons first rest =>
      rw [List.map_cons, best?, best?, Option.map_some, List.foldl_map]
      congr 1
      apply List.foldl_hom (Reached.mapWeight change)
      intro best other
      rw [hprefers]
      split <;> rfl

/-- The search goes the same way when weights are changed. -/
theorem KeepsSums.settle_reweigh (hkeeps : KeepsSums change) (automaton : Automaton P W)
    (allowance : Nat) (settled pending : List (Reached W)) :
    (automaton.reweigh change languageWeight).settle allowance
        (settled.map (Reached.mapWeight change)) (pending.map (Reached.mapWeight change)) =
      (automaton.settle allowance settled pending).map (Reached.mapWeight change) := by
  induction allowance generalizing settled pending with
  | zero => rfl
  | succ allowance ih =>
      rw [settle, settle, hkeeps.best?_map]
      cases best? pending with
      | none => rfl
      | some found =>
          have hsettled : settled.map (Reached.mapWeight change) ++ [found.mapWeight change] =
              (settled ++ [found]).map (Reached.mapWeight change) := by
            rw [List.map_append, List.map_singleton]
          have hold : ∀ state, isSettled ((settled ++ [found]).map (Reached.mapWeight change))
              state = isSettled (settled ++ [found]) state := by
            intro state
            rw [isSettled, isSettled, List.any_map]
            rfl
          have hextend : ∀ step : Transition W,
              Reached.extend (found.mapWeight change) (step.mapWeight change) =
                (Reached.extend found step).mapWeight change := by
            intro step
            simp only [Reached.extend, Reached.mapWeight, Transition.mapWeight, hkeeps.add]
          rw [Option.map_some]
          simp only [leaving_reweigh, hsettled, List.filter_map, List.map_map,
            Function.comp_def, hextend, hold]
          rw [← ih]
          simp only [List.map_append, List.map_map, Function.comp_def]
          rfl

theorem KeepsSums.epsilonClosure_reweigh (hkeeps : KeepsSums change)
    (automaton : Automaton P W) (state : Nat) :
    (automaton.reweigh change languageWeight).epsilonClosure state =
      (automaton.epsilonClosure state).map (Reached.mapWeight change) := by
  rw [epsilonClosure, epsilonClosure, ← hkeeps.settle_reweigh, List.map_singleton,
    Reached.mapWeight, hkeeps.zero]
  rfl

theorem KeepsSums.addBest_map (hkeeps : KeepsSums change) (transition : Transition W)
    (kept : List (Transition W)) :
    addBest (transition.mapWeight change) (kept.map (·.mapWeight change)) =
      (addBest transition kept).map (·.mapWeight change) := by
  induction kept with
  | nil => rfl
  | cons other rest ih =>
      have hparallel : isParallel (other.mapWeight change) (transition.mapWeight change) =
          isParallel other transition := rfl
      have hle : (transition.mapWeight change).weight ≤ (other.mapWeight change).weight ↔
          transition.weight ≤ other.weight := hkeeps.le_iff transition.weight other.weight
      rw [List.map_cons, addBest, addBest, hparallel, ih]
      split
      · by_cases hworse : transition.weight ≤ other.weight
        · rw [if_pos hworse, if_pos (hle.mpr hworse), List.map_cons]
        · rw [if_neg hworse, if_neg (mt hle.mp hworse), List.map_cons]
      · rw [List.map_cons]

theorem KeepsSums.foldl_addBest_map (hkeeps : KeepsSums change) (added kept : List (Transition W)) :
    (added.map (·.mapWeight change)).foldl (fun kept transition => addBest transition kept)
        (kept.map (·.mapWeight change)) =
      (added.foldl (fun kept transition => addBest transition kept) kept).map
        (·.mapWeight change) := by
  rw [List.foldl_map]
  apply List.foldl_hom (List.map (Transition.mapWeight change))
  exact fun kept transition => hkeeps.addBest_map transition kept

theorem KeepsSums.bypasses_reweigh (hkeeps : KeepsSums change) (automaton : Automaton P W)
    (state : Nat) :
    (automaton.reweigh change languageWeight).bypasses state =
      (automaton.bypasses state).map (·.mapWeight change) := by
  have hbypass : ∀ (reached : Reached W) (step : Transition W),
      bypass state (reached.mapWeight change) (step.mapWeight change) =
        (bypass state reached step).mapWeight change := by
    intro reached step
    simp only [bypass, Reached.mapWeight, Transition.mapWeight, hkeeps.add]
  have hread : ∀ reached : Reached W,
      (((automaton.reweigh change languageWeight).leaving (reached.mapWeight change).state).filter
          (!·.isEpsilon)).map (bypass state (reached.mapWeight change)) =
        (((automaton.leaving reached.state).filter (!·.isEpsilon)).map
          (bypass state reached)).map (·.mapWeight change) := by
    intro reached
    simp only [leaving_reweigh, List.filter_map, List.map_map, Function.comp_def, hbypass]
    rfl
  rw [bypasses, bypasses, hkeeps.epsilonClosure_reweigh, List.flatMap_map, funext hread,
    ← List.map_flatMap]
  exact hkeeps.foldl_addBest_map _ []

/-- Epsilon transitions are bypassed the same way when weights are changed. -/
theorem KeepsSums.withoutEpsilons_reweigh (hkeeps : KeepsSums change)
    (automaton : Automaton P W) :
    (automaton.reweigh change languageWeight).withoutEpsilons =
      automaton.withoutEpsilons.reweigh change languageWeight := by
  have hfinal : (automaton.reweigh change languageWeight).leadsToFinal =
      automaton.leadsToFinal := by
    funext state
    rw [leadsToFinal, leadsToFinal, hkeeps.epsilonClosure_reweigh, List.any_map]
    rfl
  have hbypasses : (automaton.reweigh change languageWeight).bypasses =
      fun state => (automaton.bypasses state).map (·.mapWeight change) :=
    funext (hkeeps.bypasses_reweigh automaton)
  rw [withoutEpsilons, withoutEpsilons, hfinal, hbypasses]
  simp only [reweigh, List.map_flatMap]

theorem KeepsSums.close_reweigh (hkeeps : KeepsSums change) (automaton : Automaton P W) :
    (automaton.reweigh change languageWeight).close =
      automaton.close.reweigh change languageWeight := by
  rw [close, close, hkeeps.withoutEpsilons_reweigh, prune_reweigh]

end Automaton

end SpeechGrammar
