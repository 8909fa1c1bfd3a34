import Mathlib.Data.List.Basic
import SpeechGrammar.Proofs.Automaton.Trim
import SpeechGrammar.Automaton.Checked

/-!
# No state is looked up that there is not

Scoring and closing that fail where a table has no row for a state do not fail
where all states that an automaton names exist, and what they come to is the
same as without tables.
-/

namespace SpeechGrammar

variable {P W : Type}

namespace Automaton.Checked

variable {α β : Type}

/-- Values that belong in rows of a table are put there, in order. -/
theorem exists_foldlM_push {entries : List (Nat × α)} (table : Array (List α))
    (hentries : ∀ entry ∈ entries, entry.1 < table.size) :
    ∃ more, entries.foldlM push table = some more ∧ more.size = table.size ∧
      ∀ index row, table[index]? = some row →
        more[index]? = some (row ++ (entries.filter (·.1 == index)).map (·.2)) := by
  induction entries generalizing table with
  | nil => exact ⟨table, rfl, rfl, fun index row hrow => by simpa using hrow⟩
  | cons entry entries ih =>
      obtain ⟨hentry, hothers⟩ := List.forall_mem_cons.mp hentries
      have hpush : push table entry =
          some (table.setIfInBounds entry.1 (table[entry.1] ++ [entry.2])) := by
        rw [push, Array.getElem?_eq_getElem hentry]
        rfl
      obtain ⟨more, hmore, hsize, hrows⟩ := ih (table.setIfInBounds entry.1
        (table[entry.1] ++ [entry.2])) (by simpa using hothers)
      refine ⟨more, ?_, by simpa using hsize, fun index row hrow => ?_⟩
      · rw [List.foldlM_cons, hpush]
        exact hmore
      · by_cases hsame : entry.1 = index
        · subst hsame
          obtain rfl := Option.some.inj ((Array.getElem?_eq_getElem hentry).symm.trans hrow)
          rw [hrows _ _ (Array.getElem?_setIfInBounds_self_of_lt hentry)]
          simp
        · rw [hrows index row (by rw [Array.getElem?_setIfInBounds_ne hsame, hrow])]
          simp [hsame]

theorem exists_tabulate_eq_some {count : Nat} (entries : List (Nat × α))
    (hentries : ∀ entry ∈ entries, entry.1 < count) :
    ∃ table, tabulate count entries = some table ∧ table.size = count ∧
      ∀ index < count, table[index]? = some ((entries.filter (·.1 == index)).map (·.2)) := by
  obtain ⟨table, htable, hsize, hrows⟩ := exists_foldlM_push
    (Array.replicate count []) (by simpa using hentries)
  refine ⟨table, htable, by simpa using hsize, fun index hindex => ?_⟩
  simpa using hrows index [] (by simp [hindex])

theorem mapM_eq_some {values : List α} {partly : α → Option β} {wholly : α → β}
    (hvalues : ∀ value ∈ values, partly value = some (wholly value)) :
    values.mapM partly = some (values.map wholly) := by
  induction values with
  | nil => rfl
  | cons value values ih =>
      obtain ⟨hvalue, hothers⟩ := List.forall_mem_cons.mp hvalues
      rw [List.mapM_cons, hvalue, ih hothers]
      rfl

/-- A fold whose every step succeeds succeeds. -/
theorem foldlM_eq_some {values : List α} {partly : β → α → Option β} {wholly : β → α → β}
    (hstep : ∀ value ∈ values, ∀ state, partly state value = some (wholly state value))
    (state : β) : values.foldlM partly state = some (values.foldl wholly state) := by
  induction values generalizing state with
  | nil => rfl
  | cons value values ih =>
      obtain ⟨hvalue, hothers⟩ := List.forall_mem_cons.mp hstep
      rw [List.foldlM_cons, hvalue, List.foldl_cons]
      exact ih hothers _

def Lists {α : Type} (table : Array (List α)) (count : Nat) (row : Nat → List α) : Prop :=
  ∀ index < count, table[index]? = some (row index)

variable {automaton : Automaton P W}

theorem exists_arcs_eq_some (hnumbered : automaton.Numbered) :
    ∃ table, arcs automaton = some table ∧ Lists table automaton.stateCount automaton.leaving := by
  obtain ⟨table, htable, -, hrows⟩ := exists_tabulate_eq_some
    (automaton.transitions.map fun step => (step.source, step))
    (by simpa using hnumbered.source_lt)
  refine ⟨table, htable, fun index hindex => ?_⟩
  rw [hrows index hindex, List.filter_map, List.map_map]
  exact congrArg some (List.map_id' _)

section Reachable

variable {table : Array (List Nat)} {count : Nat} {successors : Nat → List Nat}

/-- A visit looks up no rows but those of nodes below the count. -/
theorem visit_eq_some (hlists : Lists table count successors)
    (hsuccessors : ∀ node < count, ∀ next ∈ successors node, next < count) (allowance : Nat)
    (visited : List Nat) {node : Nat} (hnode : node < count) :
    visit table allowance visited node = some (Graph.visit successors allowance visited node) := by
  induction allowance generalizing visited node with
  | zero => rfl
  | succ allowance ih =>
      rw [visit, Graph.visit]
      split
      · rfl
      · rw [hlists node hnode]
        exact foldlM_eq_some (fun next hnext found =>
          ih found (hsuccessors node hnode next hnext)) _

theorem reachable_eq_some (hlists : Lists table count successors)
    (hsuccessors : ∀ node < count, ∀ next ∈ successors node, next < count) (allowance : Nat)
    {roots : List Nat} (hroots : ∀ root ∈ roots, root < count) :
    reachable table allowance roots = some (Graph.reachable successors allowance roots) := by
  rw [reachable, foldlM_eq_some fun root hroot found =>
    visit_eq_some hlists hsuccessors allowance found (hroots root hroot)]
  rfl

end Reachable

/-- Pruning looks up states that there are, and finds the start among those it keeps. -/
theorem prune_eq_some (hnumbered : automaton.Numbered)
    (hfinals : ∀ final, final ∈ automaton.finals → final < automaton.stateCount) :
    prune automaton = some automaton.prune := by
  obtain ⟨forward, hforward, -, hahead⟩ := exists_tabulate_eq_some
    (automaton.transitions.map fun step => (step.source, step.target))
    (by simpa using hnumbered.source_lt)
  obtain ⟨backward, hbackward, -, hback⟩ := exists_tabulate_eq_some
    (automaton.transitions.map fun step => (step.target, step.source))
    (by simpa using hnumbered.target_lt)
  have hfromStart : reachable forward (automaton.stateCount + 1) [automaton.start] =
      some automaton.fromStart := by
    refine reachable_eq_some (fun index hindex => ?_) (fun node _ next hnext => ?_) _
      (by simpa using hnumbered.start_lt)
    · rw [hahead index hindex, List.filter_map, List.map_map]
      rfl
    · obtain ⟨step, hmem, rfl⟩ := List.mem_map.mp hnext
      exact hnumbered.target_lt step (List.mem_filter.mp hmem).1
  have htoFinal : reachable backward (automaton.stateCount + 1) automaton.finals.toList =
      some automaton.toFinal := by
    refine reachable_eq_some (fun index hindex => ?_) (fun node _ next hnext => ?_) _
      (fun final hfinal => hfinals final hfinal)
    · rw [hback index hindex, List.filter_map, List.map_map]
      rfl
    · obtain ⟨step, hmem, rfl⟩ := List.mem_map.mp hnext
      exact hnumbered.source_lt step (List.mem_filter.mp hmem).1
  have hstart := idxOf?_start hnumbered
  rw [useful] at hstart
  simp only [prune, hforward, hbackward, hfromStart, htoFinal, hstart, Option.bind_eq_bind,
    Option.bind_some]
  rfl

variable [LogWeight W] {table : Array (List (Transition W))}

/-- The search looks up no rows but those of states that there are. -/
theorem settle_eq_some (hnumbered : automaton.Numbered)
    (hlists : Lists table automaton.stateCount automaton.leaving) (allowance : Nat)
    {settled pending : List (Reached W)}
    (hpending : ∀ candidate ∈ pending, candidate.state < automaton.stateCount) :
    settle table allowance settled pending =
      some (automaton.settle allowance settled pending) := by
  induction allowance generalizing settled pending with
  | zero => rfl
  | succ allowance ih =>
      cases hbest : best? pending with
      | none => rw [settle, Automaton.settle, hbest]
      | some found =>
          have hfound := hpending found (mem_of_best?_eq_some hbest)
          rw [settle_succ hbest, ← ih]
          · rw [settle, hbest]
            simp only [hlists found.state hfound, Option.bind_eq_bind, Option.bind_some]
            rfl
          · intro candidate hcandidate
            rcases mem_pendingAfter.mp hcandidate with ⟨hold, -⟩ | ⟨-, step, hmem, -, -, rfl⟩
            · exact hpending candidate hold
            · exact hnumbered.target_lt step hmem

theorem epsilonClosure_eq_some (hnumbered : automaton.Numbered)
    (hlists : Lists table automaton.stateCount automaton.leaving) {state : Nat}
    (hstate : state < automaton.stateCount) :
    epsilonClosure automaton table state = some (automaton.epsilonClosure state) :=
  settle_eq_some hnumbered hlists _ (by simpa using hstate)

theorem bypasses_eq_some (hnumbered : automaton.Numbered)
    (hlists : Lists table automaton.stateCount automaton.leaving) {state : Nat}
    (hstate : state < automaton.stateCount) :
    bypasses automaton table state = some (automaton.bypasses state) := by
  have hread : (automaton.epsilonClosure state).mapM (bypassesOf table state) =
      some ((automaton.epsilonClosure state).map fun reached =>
        ((automaton.leaving reached.state).filter (!·.isEpsilon)).map (bypass state reached)) := by
    refine mapM_eq_some fun reached hreached => ?_
    have hmem : reached.state ∈ statesOf (automaton.epsilonClosure state) :=
      List.mem_map_of_mem hreached
    obtain ⟨steps, hpath, -⟩ := (mem_statesOf_epsilonClosure hnumbered hstate).mp hmem
    rw [bypassesOf, hlists reached.state (hnumbered.last_lt hstate hpath)]
    rfl
  simp only [bypasses, epsilonClosure_eq_some hnumbered hlists hstate, hread,
    Option.bind_eq_bind, Option.bind_some]
  rw [Automaton.bypasses, List.flatMap]
  rfl

/-- Bypassing epsilon paths looks up states that there are. -/
theorem withoutEpsilons_eq_some (hnumbered : automaton.Numbered) :
    withoutEpsilons automaton = some automaton.withoutEpsilons := by
  obtain ⟨table, htable, hlists⟩ := exists_arcs_eq_some hnumbered
  have hends : (List.range automaton.stateCount).mapM (leadsToFinal automaton table) =
      some ((List.range automaton.stateCount).map fun state =>
        (state, automaton.leadsToFinal state)) := by
    refine mapM_eq_some fun state hstate => ?_
    rw [leadsToFinal, epsilonClosure_eq_some hnumbered hlists (List.mem_range.mp hstate)]
    rfl
  have hread : (List.range automaton.stateCount).mapM (bypasses automaton table) =
      some ((List.range automaton.stateCount).map automaton.bypasses) :=
    mapM_eq_some fun state hstate =>
      bypasses_eq_some hnumbered hlists (List.mem_range.mp hstate)
  simp only [withoutEpsilons, htable, hends, hread, Option.bind_eq_bind, Option.bind_some,
    List.filter_map, List.map_map]
  rw [Automaton.withoutEpsilons, List.flatMap]
  congr 3
  exact List.map_id' _

theorem close_eq_some (hnumbered : automaton.Numbered) :
    close automaton = some automaton.close := by
  have htidy := hnumbered.tidy_withoutEpsilons
  rw [close, withoutEpsilons_eq_some hnumbered]
  exact prune_eq_some htidy.numbered htidy.finals_lt

theorem improve_eq_some (hlists : Lists table automaton.stateCount automaton.leaving) {state : Nat}
    (hstate : state < automaton.stateCount) (labels : Labels W) (weight : W) :
    improve table labels state weight = some (labels.improve state weight) := by
  rw [improve, hlists state hstate]
  rfl

theorem followEpsilon_eq_some (hnumbered : automaton.Numbered)
    (hlists : Lists table automaton.stateCount automaton.leaving) (given labels : Labels W)
    {transition : Transition W} (hmem : transition ∈ automaton.transitions) :
    followEpsilon table given labels transition =
      some (Automaton.followEpsilon given labels transition) := by
  unfold followEpsilon Automaton.followEpsilon
  cases transition.word? with
  | some word => rfl
  | none =>
      cases labels.weight? transition.source with
      | none => rfl
      | some weight =>
          dsimp only
          split
          · exact improve_eq_some hlists (hnumbered.target_lt transition hmem) _ _
          · rfl

theorem settleLabels_eq_some (hnumbered : automaton.Numbered)
    (hlists : Lists table automaton.stateCount automaton.leaving) (given labels : Labels W)
    (rounds : Nat) :
    settleLabels automaton table given rounds labels =
      some (automaton.settleLabels given rounds labels) := by
  induction rounds generalizing labels with
  | zero => rfl
  | succ rounds ih =>
      rw [settleLabels, Automaton.settleLabels]
      split
      · rw [foldlM_eq_some fun transition hmem next =>
          followEpsilon_eq_some hnumbered hlists given next hmem]
        exact ih _
      · rfl

theorem spread_eq_some (hnumbered : automaton.Numbered)
    (hlists : Lists table automaton.stateCount automaton.leaving) (given : Labels W) :
    spread automaton table given = some (automaton.spread given) := by
  rw [spread, Automaton.spread, settleLabels_eq_some hnumbered hlists]

theorem followWord_eq_some (hnumbered : automaton.Numbered)
    (hlists : Lists table automaton.stateCount automaton.leaving) (token : String)
    (given labels : Labels W) {transition : Transition W}
    (hmem : transition ∈ automaton.transitions) :
    followWord table token given labels transition =
      some (Automaton.followWord token given labels transition) := by
  unfold followWord Automaton.followWord
  cases given.weight? transition.source with
  | none => rfl
  | some weight =>
      dsimp only
      split
      · exact improve_eq_some hlists (hnumbered.target_lt transition hmem) _ _
      · rfl

theorem step_eq_some (hnumbered : automaton.Numbered)
    (hlists : Lists table automaton.stateCount automaton.leaving) (labels : Labels W)
    (token : String) :
    step automaton table labels token = some (automaton.step labels token) := by
  rw [step, foldlM_eq_some fun transition hmem next =>
    followWord_eq_some hnumbered hlists token labels next hmem, Option.bind_eq_bind,
    Option.bind_some, spread_eq_some hnumbered hlists, Automaton.step]

/-- Scoring looks up states that there are. -/
theorem score_eq_some (hnumbered : automaton.Numbered) (tokens : List String) :
    score automaton tokens = some (automaton.score? tokens) := by
  obtain ⟨table, htable, hlists⟩ := exists_arcs_eq_some hnumbered
  have hstart : startLabels automaton table = some automaton.startLabels := by
    rw [startLabels, hlists _ hnumbered.start_lt, Option.bind_eq_bind, Option.bind_some,
      spread_eq_some hnumbered hlists, Automaton.startLabels]
  have hread : tokens.foldlM (step automaton table) automaton.startLabels =
      some (tokens.foldl automaton.step automaton.startLabels) :=
    foldlM_eq_some (fun token _ labels => step_eq_some hnumbered hlists labels token) _
  simp only [score, htable, hstart, hread, Option.bind_eq_bind, Option.bind_some]
  rfl

end Automaton.Checked

namespace Automaton

variable [LogWeight W] {automaton : Automaton P W}

/-- Every state that is looked up when an automaton is scored or closed has a row. -/
structure Indexed (automaton : Automaton P W) : Prop where
  arcs : ∃ table, Checked.arcs automaton = some table ∧
    Checked.Lists table automaton.stateCount automaton.leaving ∧
    ∀ state < automaton.stateCount,
      Checked.epsilonClosure automaton table state = some (automaton.epsilonClosure state)
  score (tokens : List String) : Checked.score automaton tokens = some (automaton.score? tokens)
  prune : Checked.prune automaton = some automaton.prune
  close : Checked.close automaton = some automaton.close

/-- No lookup fails where all states that are named exist. -/
theorem Numbered.indexed (hnumbered : automaton.Numbered)
    (hfinals : ∀ final, final ∈ automaton.finals → final < automaton.stateCount) :
    automaton.Indexed where
  arcs := by
    obtain ⟨table, htable, hlists⟩ := Checked.exists_arcs_eq_some hnumbered
    exact ⟨table, htable, hlists, fun _ => Checked.epsilonClosure_eq_some hnumbered hlists⟩
  score := Checked.score_eq_some hnumbered
  prune := Checked.prune_eq_some hnumbered hfinals
  close := Checked.close_eq_some hnumbered

end Automaton

end SpeechGrammar
