import SpeechGrammar.Proofs.Automaton.Path
import SpeechGrammar.Automaton.Closure

/-!
# The best-first search through epsilon transitions

The search keeps settled states and candidates.  Every one of them is the end
of an epsilon path, no epsilon path to a settled state is better, and whatever
transition leads out of the settled states leads to a candidate at least as
good.  Weights are not positive, so the best candidate cannot be reached in a
better way, and settling it keeps all this true.  In the end every state that
epsilon transitions lead to is settled with the weight of a best path.
-/

namespace SpeechGrammar

variable {P W : Type}

namespace Automaton

def statesOf (found : List (Reached W)) : List Nat := found.map (·.state)

theorem mem_statesOf {state : Nat} {found : List (Reached W)} :
    state ∈ statesOf found ↔ ∃ reached ∈ found, reached.state = state := by
  simp [statesOf]

theorem isSettled_eq_true_iff {state : Nat} {settled : List (Reached W)} :
    isSettled settled state = true ↔ state ∈ statesOf settled := by
  simp [isSettled, statesOf]

/-- The candidates that a settled state leads to, but for states that are settled. -/
def freshFrom [LogWeight W] (automaton : Automaton P W) (settled : List (Reached W))
    (found : Reached W) : List (Reached W) :=
  (((automaton.leaving found.state).filter (·.isEpsilon)).map (Reached.extend found)).filter
    fun candidate => !isSettled settled candidate.state

section Steps

variable [LogWeight W] {automaton : Automaton P W} {settled pending : List (Reached W)}
  {found : Reached W}

theorem best?_eq_none (hnone : best? pending = none) : pending = [] := by
  cases pending with
  | nil => rfl
  | cons first rest => cases hnone

def pendingAfter (automaton : Automaton P W) (settled pending : List (Reached W))
    (found : Reached W) : List (Reached W) :=
  pending.filter (·.state != found.state) ++ automaton.freshFrom (settled ++ [found]) found

theorem mem_freshFrom {candidate : Reached W} :
    candidate ∈ automaton.freshFrom settled found ↔
      candidate.state ∉ statesOf settled ∧ ∃ step ∈ automaton.transitions,
        step.source = found.state ∧ step.word? = none ∧
        Reached.extend found step = candidate := by
  have hsettled : (!isSettled settled candidate.state) = true ↔
      candidate.state ∉ statesOf settled := by
    rw [Bool.not_eq_true', ← Bool.not_eq_true, isSettled_eq_true_iff]
  simp only [freshFrom, List.mem_filter, hsettled, List.mem_map, leaving, beq_iff_eq,
    Transition.isEpsilon, Option.isNone_iff_eq_none, and_assoc]
  exact and_comm

theorem mem_pendingAfter {candidate : Reached W} :
    candidate ∈ automaton.pendingAfter settled pending found ↔
      (candidate ∈ pending ∧ candidate.state ≠ found.state) ∨
        (candidate.state ∉ statesOf (settled ++ [found]) ∧ ∃ step ∈ automaton.transitions,
          step.source = found.state ∧ step.word? = none ∧
          Reached.extend found step = candidate) := by
  rw [pendingAfter, List.mem_append, mem_freshFrom, List.mem_filter, bne_iff_ne]

theorem settle_nil (automaton : Automaton P W) (allowance : Nat) (settled : List (Reached W)) :
    automaton.settle allowance settled [] = settled := by
  cases allowance with
  | zero => rfl
  | succ allowance => rw [Automaton.settle, best?]

theorem settle_succ (hbest : best? pending = some found) (allowance : Nat) :
    automaton.settle (allowance + 1) settled pending =
      automaton.settle allowance (settled ++ [found])
        (automaton.pendingAfter settled pending found) := by
  rw [Automaton.settle, hbest]
  rfl

theorem settle_keeps {holds : List (Reached W) → List (Reached W) → Prop}
    (hkeeps : ∀ {settled pending : List (Reached W)} {found : Reached W}, holds settled pending →
      best? pending = some found →
      holds (settled ++ [found]) (automaton.pendingAfter settled pending found))
    (allowance : Nat) (hholds : holds settled pending) :
    ∃ left, holds (automaton.settle allowance settled pending) left ∧
      (left = [] ∨ settled.length + allowance ≤
        (automaton.settle allowance settled pending).length) := by
  induction allowance generalizing settled pending with
  | zero => exact ⟨pending, hholds, .inr (le_refl _)⟩
  | succ allowance ih =>
      cases hbest : best? pending with
      | none =>
          obtain rfl := best?_eq_none hbest
          rw [settle_nil]
          exact ⟨[], hholds, .inl rfl⟩
      | some found =>
          rw [settle_succ hbest]
          obtain ⟨left, hleft, hend⟩ := ih (hkeeps hholds hbest)
          refine ⟨left, hleft, hend.imp_right fun hlength => ?_⟩
          rw [List.length_append, List.length_singleton] at hlength
          rwa [← Nat.add_assoc, Nat.add_right_comm]

end Steps

theorem mem_of_nodup_of_length_le {states : List Nat} {count : Nat} (hnodup : states.Nodup)
    (hsubset : states ⊆ List.range count) (hlength : count ≤ states.length) {state : Nat}
    (hstate : state < count) : state ∈ states := by
  have hperm := (List.subperm_of_subset hnodup hsubset).perm_of_length_le (by
    rwa [List.length_range])
  exact hperm.mem_iff.mpr (List.mem_range.mpr hstate)

variable [ExactWeight W]

variable {automaton : Automaton P W} {origin : Nat} {settled pending : List (Reached W)}
  {found : Reached W}

/-- What is found is the end of an epsilon path, with its weight and its tags. -/
def Explained (automaton : Automaton P W) (origin : Nat) (found : Reached W) : Prop :=
  ∃ steps, PathIn automaton.transitions origin steps found.state ∧ wordsOf steps = [] ∧
    weightOf steps = found.weight ∧ ∀ tag, tag ∈ tagsOf steps ↔ tag ∈ found.tags

/-- No epsilon path to the state that is found is better. -/
def Optimal (automaton : Automaton P W) (origin : Nat) (found : Reached W) : Prop :=
  ∀ steps, PathIn automaton.transitions origin steps found.state → wordsOf steps = [] →
    weightOf steps ≤ found.weight

/-- What holds of the settled states and the candidates all through the search. -/
structure Searching (automaton : Automaton P W) (origin : Nat)
    (settled pending : List (Reached W)) : Prop where
  explained : ∀ found ∈ settled ++ pending, automaton.Explained origin found
  optimal : ∀ found ∈ settled, automaton.Optimal origin found
  distinct : (statesOf settled).Nodup
  unsettled : ∀ candidate ∈ pending, candidate.state ∉ statesOf settled
  frontier : ∀ found ∈ settled, ∀ step ∈ automaton.transitions, step.source = found.state →
    step.word? = none → step.target ∉ statesOf settled →
    ∃ candidate ∈ pending, candidate.state = step.target ∧
      found.weight + step.weight ≤ candidate.weight
  origin_known : origin ∉ statesOf settled →
    ∃ candidate ∈ pending, candidate.state = origin ∧ 0 ≤ candidate.weight

theorem searching_start (automaton : Automaton P W) (origin : Nat) :
    automaton.Searching origin [] [⟨origin, 0, .empty⟩] where
  explained := by
    intro found hfound
    obtain rfl := List.mem_singleton.mp hfound
    exact ⟨[], rfl, rfl, rfl, fun _ => Iff.rfl⟩
  optimal := by simp
  distinct := List.nodup_nil
  unsettled := by simp [statesOf]
  frontier := by simp
  origin_known := fun _ => ⟨_, List.mem_singleton_self _, rfl, le_refl _⟩

theorem Searching.congr {others : List (Reached W)}
    (hsearch : automaton.Searching origin settled pending)
    (hsame : ∀ candidate, candidate ∈ pending ↔ candidate ∈ others) :
    automaton.Searching origin settled others where
  explained := fun found hfound => hsearch.explained found (by
    rwa [List.mem_append, hsame, ← List.mem_append])
  optimal := hsearch.optimal
  distinct := hsearch.distinct
  unsettled := fun candidate hcandidate => hsearch.unsettled candidate ((hsame _).mpr hcandidate)
  frontier := fun found hfound step hmem hsource hword htarget => by
    obtain ⟨candidate, hcandidate, hrest⟩ :=
      hsearch.frontier found hfound step hmem hsource hword htarget
    exact ⟨candidate, (hsame candidate).mp hcandidate, hrest⟩
  origin_known := fun horigin => by
    obtain ⟨candidate, hcandidate, hrest⟩ := hsearch.origin_known horigin
    exact ⟨candidate, (hsame candidate).mp hcandidate, hrest⟩

theorem Explained.extend (hfound : automaton.Explained origin found) {step : Transition W}
    (hmem : step ∈ automaton.transitions) (hsource : step.source = found.state)
    (hword : step.word? = none) : automaton.Explained origin (Reached.extend found step) := by
  obtain ⟨steps, hpath, hsilent, hweight, htags⟩ := hfound
  refine ⟨steps ++ [step], hpath.append ?_, ?_, ?_, fun tag => ?_⟩
  · rw [← hsource]
    exact PathIn.single hmem
  · rw [wordsOf_concat_none hword, hsilent]
  · rw [weightOf_append, weightOf_cons, weightOf_nil, add_zero, hweight]
    rfl
  · rw [mem_tagsOf, Reached.extend, SortedSet.mem_union, ← htags tag, mem_tagsOf]
    simp [or_and_right, exists_or]

/--
An epsilon path from a settled state to one that is not crosses to a candidate
which is at least as good as the whole of it.
-/
theorem Searching.exists_candidate_of_settled (hwf : automaton.WellFormed)
    (hsearch : automaton.Searching origin settled pending) {steps : List (Transition W)}
    {last : Nat} (hlast : last ∉ statesOf settled) (hfound : found ∈ settled)
    (hpath : PathIn automaton.transitions found.state steps last) (hsilent : wordsOf steps = []) :
    ∃ candidate ∈ pending, found.weight + weightOf steps ≤ candidate.weight := by
  induction steps generalizing found with
  | nil =>
      obtain rfl := PathIn.nil_iff.mp hpath
      exact absurd (mem_statesOf.mpr ⟨found, hfound, rfl⟩) hlast
  | cons step steps ih =>
      obtain ⟨hmem, hsource, hrest⟩ := hpath
      have hword := wordsOf_eq_nil_iff.mp hsilent step (List.mem_cons_self ..)
      rw [wordsOf_cons_none hword] at hsilent
      rw [weightOf_cons, ← add_assoc]
      by_cases htarget : step.target ∈ statesOf settled
      · obtain ⟨next, hnext, hstate⟩ := mem_statesOf.mp htarget
        obtain ⟨candidate, hcandidate, hle⟩ := ih hnext (hstate ▸ hrest) hsilent
        refine ⟨candidate, hcandidate, le_trans (add_le_add_left ?_ _) hle⟩
        obtain ⟨before, hbefore, hquiet, hweight, -⟩ :=
          (hsearch.explained found (List.mem_append_left _ hfound)).extend hmem hsource hword
        have hbest := hsearch.optimal next hnext before (hstate ▸ hbefore) hquiet
        rwa [hweight] at hbest
      · obtain ⟨candidate, hcandidate, -, hle⟩ :=
          hsearch.frontier found hfound step hmem hsource hword htarget
        refine ⟨candidate, hcandidate, ?_⟩
        have hdrop : weightOf steps ≤ 0 :=
          weightOf_nonpos fun other hother => hwf.nonpositive other (hrest.subset hother)
        calc
          found.weight + step.weight + weightOf steps ≤ found.weight + step.weight + 0 :=
            add_le_add_right hdrop _
          _ = found.weight + step.weight := add_zero _
          _ ≤ candidate.weight := hle

/-- An epsilon path to a state that is not settled is no better than some candidate. -/
theorem Searching.exists_candidate (hwf : automaton.WellFormed)
    (hsearch : automaton.Searching origin settled pending) {steps : List (Transition W)}
    {last : Nat} (hlast : last ∉ statesOf settled)
    (hpath : PathIn automaton.transitions origin steps last) (hsilent : wordsOf steps = []) :
    ∃ candidate ∈ pending, weightOf steps ≤ candidate.weight := by
  by_cases horigin : origin ∈ statesOf settled
  · obtain ⟨found, hfound, rfl⟩ := mem_statesOf.mp horigin
    obtain ⟨candidate, hcandidate, hle⟩ :=
      hsearch.exists_candidate_of_settled hwf hlast hfound hpath hsilent
    refine ⟨candidate, hcandidate, le_trans ?_ hle⟩
    have hzero : 0 ≤ found.weight := hsearch.optimal found hfound [] rfl rfl
    calc
      weightOf steps = 0 + weightOf steps := (zero_add _).symm
      _ ≤ found.weight + weightOf steps := add_le_add_left hzero _
  · obtain ⟨candidate, hcandidate, -, hle⟩ := hsearch.origin_known horigin
    refine ⟨candidate, hcandidate, le_trans ?_ hle⟩
    exact weightOf_nonpos fun step hstep => hwf.nonpositive step (hpath.subset hstep)

/-! ## Choosing the best candidate -/

theorem prefers_eq_true_iff {first second : Reached W} :
    prefers first second = true ↔ second.weight < first.weight ∨
      first.weight = second.weight ∧ first.state < second.state := by
  rw [prefers, ExactWeight.order_eq_compare]
  rcases lt_trichotomy first.weight second.weight with hless | hequal | hgreater
  · simp [compare_lt_iff_lt.mpr hless, hless.not_gt, hless.ne]
  · simp [hequal]
  · simp [compare_gt_iff_gt.mpr hgreater, hgreater]

theorem prefers_eq_false_iff {first second : Reached W} :
    prefers first second = false ↔ first.weight ≤ second.weight ∧
      (first.weight = second.weight → second.state ≤ first.state) := by
  rw [← Bool.not_eq_true, prefers_eq_true_iff, not_or, not_lt, not_and, not_lt]

theorem prefers_trans {first second third : Reached W} (hfirst : prefers first second = false)
    (hsecond : prefers second third = false) : prefers first third = false := by
  rw [prefers_eq_false_iff] at hfirst hsecond ⊢
  refine ⟨hfirst.1.trans hsecond.1, fun heq => ?_⟩
  have hsame : first.weight = second.weight := le_antisymm hfirst.1 (heq ▸ hsecond.1)
  exact (hsecond.2 (hsame ▸ heq)).trans (hfirst.2 hsame)

theorem prefers_asymm {first second : Reached W} (hprefers : prefers first second = true) :
    prefers second first = false := by
  rw [prefers_eq_true_iff] at hprefers
  rw [prefers_eq_false_iff]
  rcases hprefers with hless | ⟨heq, hless⟩
  · exact ⟨hless.le, fun hsame => absurd hsame hless.ne⟩
  · exact ⟨heq.ge, fun _ => hless.le⟩

/-- The chosen candidate is one of them, and none is preferred to it. -/
theorem best?_eq_some {best : Reached W} (hbest : best? pending = some best) :
    best ∈ pending ∧ ∀ candidate ∈ pending, prefers candidate best = false := by
  cases pending with
  | nil => cases hbest
  | cons first rest =>
      rw [best?, Option.some.injEq] at hbest
      subst hbest
      induction rest generalizing first with
      | nil =>
          refine ⟨List.mem_singleton_self _, fun candidate hcandidate => ?_⟩
          obtain rfl := List.mem_singleton.mp hcandidate
          simp [prefers_eq_false_iff]
      | cons second rest ih =>
          rw [List.foldl_cons]
          obtain ⟨hmem, hbest⟩ := ih (if prefers second first then second else first)
          have hchosen := hbest _ (List.mem_cons_self ..)
          refine ⟨?_, fun candidate hcandidate => ?_⟩
          · rcases List.mem_cons.mp hmem with hhead | hrest
            · rw [hhead]
              split <;> simp
            · exact List.mem_cons_of_mem _ (List.mem_cons_of_mem _ hrest)
          · have hbetter :
                prefers first (if prefers second first then second else first) = false ∧
                prefers second (if prefers second first then second else first) = false := by
              split
              · rename_i hprefers
                exact ⟨prefers_asymm hprefers, by simp [prefers_eq_false_iff]⟩
              · rename_i hprefers
                exact ⟨by simp [prefers_eq_false_iff], Bool.eq_false_iff.mpr hprefers⟩
            rcases List.mem_cons.mp hcandidate with rfl | hcandidate
            · exact prefers_trans hbetter.1 hchosen
            · rcases List.mem_cons.mp hcandidate with rfl | hcandidate
              · exact prefers_trans hbetter.2 hchosen
              · exact hbest candidate (List.mem_cons_of_mem _ hcandidate)

/-- Settling a candidate of the greatest weight keeps what holds of the search. -/
theorem Searching.settle_greatest (hwf : automaton.WellFormed)
    (hsearch : automaton.Searching origin settled pending) (hfound : found ∈ pending)
    (habove : ∀ candidate ∈ pending, candidate.weight ≤ found.weight) :
    automaton.Searching origin (settled ++ [found])
      (automaton.pendingAfter settled pending found) := by
  have hnew := hsearch.unsettled found hfound
  have hexplained := hsearch.explained found (List.mem_append_right _ hfound)
  have hstates : statesOf (settled ++ [found]) = statesOf settled ++ [found.state] := by
    simp [statesOf]
  constructor
  case explained =>
    intro other hother
    rcases List.mem_append.mp hother with hother | hother
    · rcases List.mem_append.mp hother with hold | hlast
      · exact hsearch.explained other (List.mem_append_left _ hold)
      · obtain rfl := List.mem_singleton.mp hlast
        exact hexplained
    · rcases mem_pendingAfter.mp hother with ⟨hold, -⟩ | ⟨-, step, hmem, hsource, hword, rfl⟩
      · exact hsearch.explained other (List.mem_append_right _ hold)
      · exact hexplained.extend hmem hsource hword
  case optimal =>
    intro other hother steps hpath hsilent
    rcases List.mem_append.mp hother with hold | hlast
    · exact hsearch.optimal other hold steps hpath hsilent
    · obtain rfl := List.mem_singleton.mp hlast
      obtain ⟨candidate, hcandidate, hle⟩ := hsearch.exists_candidate hwf hnew hpath hsilent
      exact hle.trans (habove candidate hcandidate)
  case distinct =>
    rw [hstates]
    exact List.nodup_append.mpr ⟨hsearch.distinct, List.nodup_cons.mpr ⟨by simp, List.nodup_nil⟩,
      fun state hstate other hother => by
        rw [List.mem_singleton.mp hother]
        rintro rfl
        exact hnew hstate⟩
  case unsettled =>
    intro candidate hcandidate
    rcases mem_pendingAfter.mp hcandidate with ⟨hold, hother⟩ | ⟨hfresh, -⟩
    · rw [hstates, List.mem_append, List.mem_singleton]
      rintro (hsettled | hsame)
      · exact hsearch.unsettled candidate hold hsettled
      · exact hother hsame
    · exact hfresh
  case frontier =>
    intro other hother step hmem hsource hword htarget
    rcases List.mem_append.mp hother with hold | hlast
    · have hout : step.target ∉ statesOf settled ∧ step.target ≠ found.state := by
        rw [hstates, List.mem_append, List.mem_singleton] at htarget
        exact not_or.mp htarget
      obtain ⟨candidate, hcandidate, hstate, hle⟩ :=
        hsearch.frontier other hold step hmem hsource hword hout.1
      exact ⟨candidate, mem_pendingAfter.mpr (.inl ⟨hcandidate, hstate ▸ hout.2⟩), hstate, hle⟩
    · obtain rfl := List.mem_singleton.mp hlast
      exact ⟨Reached.extend other step,
        mem_pendingAfter.mpr (.inr ⟨htarget, step, hmem, hsource, hword, rfl⟩), rfl, le_refl _⟩
  case origin_known =>
    intro horigin
    rw [hstates, List.mem_append, List.mem_singleton, not_or] at horigin
    obtain ⟨candidate, hcandidate, hstate, hle⟩ := hsearch.origin_known horigin.1
    exact ⟨candidate, mem_pendingAfter.mpr (.inl ⟨hcandidate, hstate ▸ horigin.2⟩), hstate, hle⟩

theorem Searching.settle_best (hwf : automaton.WellFormed)
    (hsearch : automaton.Searching origin settled pending) (hbest : best? pending = some found) :
    automaton.Searching origin (settled ++ [found])
      (automaton.pendingAfter settled pending found) := by
  obtain ⟨hfound, hfirst⟩ := best?_eq_some hbest
  exact hsearch.settle_greatest hwf hfound fun candidate hcandidate =>
    (prefers_eq_false_iff.mp (hfirst candidate hcandidate)).1

theorem Searching.settle (hwf : automaton.WellFormed) (allowance : Nat)
    (hsearch : automaton.Searching origin settled pending) :
    ∃ left, automaton.Searching origin (automaton.settle allowance settled pending) left ∧
      (left = [] ∨ settled.length + allowance ≤
        (automaton.settle allowance settled pending).length) :=
  settle_keeps (fun hholds hbest => hholds.settle_best hwf hbest) allowance hsearch

theorem WellFormed.last_lt (hwf : automaton.WellFormed) {steps : List (Transition W)} {last : Nat}
    (horigin : origin < automaton.stateCount)
    (hpath : PathIn automaton.transitions origin steps last) : last < automaton.stateCount :=
  hpath.visited_lt hwf.target_lt horigin last hpath.last_mem_visited

theorem Searching.states_subset (hwf : automaton.WellFormed)
    (horigin : origin < automaton.stateCount)
    (hsearch : automaton.Searching origin settled pending) :
    statesOf settled ⊆ List.range automaton.stateCount := by
  intro state hstate
  obtain ⟨found, hfound, rfl⟩ := mem_statesOf.mp hstate
  obtain ⟨before, hbefore, -⟩ := hsearch.explained found (List.mem_append_left _ hfound)
  exact List.mem_range.mpr (hwf.last_lt horigin hbefore)

theorem Searching.settles_all (hwf : automaton.WellFormed)
    (hsearch : automaton.Searching origin settled []) {steps : List (Transition W)} {last : Nat}
    (hpath : PathIn automaton.transitions origin steps last) (hsilent : wordsOf steps = []) :
    last ∈ statesOf settled := by
  by_contra hlast
  obtain ⟨candidate, hcandidate, -⟩ := hsearch.exists_candidate hwf hlast hpath hsilent
  cases hcandidate

/-- The search settles every state that epsilon transitions lead to, once, with a best path. -/
theorem epsilonClosure_spec (hwf : automaton.WellFormed) (horigin : origin < automaton.stateCount) :
    (statesOf (automaton.epsilonClosure origin)).Nodup ∧
      (∀ found ∈ automaton.epsilonClosure origin,
        automaton.Explained origin found ∧ automaton.Optimal origin found) ∧
      ∀ steps last, PathIn automaton.transitions origin steps last → wordsOf steps = [] →
        last ∈ statesOf (automaton.epsilonClosure origin) := by
  obtain ⟨left, hsearch, hend⟩ :=
    (searching_start automaton origin).settle hwf automaton.stateCount
  refine ⟨hsearch.distinct, fun found hfound => ⟨?_, hsearch.optimal found hfound⟩, ?_⟩
  · exact hsearch.explained found (List.mem_append_left _ hfound)
  · intro steps last hpath hsilent
    rcases hend with rfl | hfull
    · exact hsearch.settles_all hwf hpath hsilent
    · -- As many states are settled as there are, so the last one is among them.
      have hlength :
          automaton.stateCount ≤ (statesOf (automaton.epsilonClosure origin)).length := by
        rw [statesOf, List.length_map]
        rwa [List.length_nil, Nat.zero_add] at hfull
      exact mem_of_nodup_of_length_le hsearch.distinct (hsearch.states_subset hwf horigin) hlength
        (hwf.last_lt horigin hpath)

end Automaton

end SpeechGrammar
