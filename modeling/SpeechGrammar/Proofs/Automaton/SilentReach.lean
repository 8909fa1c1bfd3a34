import SpeechGrammar.Proofs.Automaton.EpsilonSearch

/-!
# What epsilon transitions lead to

Which states the best-first search finds does not depend on how weights are
added and compared.  Whatever candidate it takes for the best, it goes on to
all states that epsilon transitions lead to, and to no others.
-/

namespace SpeechGrammar.Automaton

variable {P W : Type} {automaton : Automaton P W} {first middle last : Nat}

/-- Epsilon transitions lead from a state to another one, or the two are the same. -/
def LeadsSilently (automaton : Automaton P W) (first last : Nat) : Prop :=
  ∃ steps, PathIn automaton.transitions first steps last ∧ wordsOf steps = []

theorem LeadsSilently.refl (automaton : Automaton P W) (state : Nat) :
    automaton.LeadsSilently state state :=
  ⟨[], rfl, rfl⟩

theorem LeadsSilently.trans (hfirst : automaton.LeadsSilently first middle)
    (hsecond : automaton.LeadsSilently middle last) : automaton.LeadsSilently first last := by
  obtain ⟨before, hbefore, hquiet⟩ := hfirst
  obtain ⟨after, hafter, hsilent⟩ := hsecond
  refine ⟨before ++ after, hbefore.append hafter, ?_⟩
  rw [wordsOf_append, hquiet, hsilent, List.append_nil]

theorem LeadsSilently.step {step : Transition W} (hmem : step ∈ automaton.transitions)
    (hword : step.word? = none) : automaton.LeadsSilently step.source step.target :=
  ⟨[step], PathIn.single hmem, wordsOf_cons_none hword []⟩

theorem Numbered.last_lt (hnumbered : automaton.Numbered) {steps : List (Transition W)}
    (hfirst : first < automaton.stateCount)
    (hpath : PathIn automaton.transitions first steps last) : last < automaton.stateCount :=
  hpath.visited_lt hnumbered.target_lt hfirst last hpath.last_mem_visited

variable [LogWeight W] {origin : Nat} {settled pending : List (Reached W)} {found : Reached W}

/-- What holds of the states that are settled and those of candidates all through the search. -/
structure Exploring (automaton : Automaton P W) (origin : Nat)
    (settled pending : List (Reached W)) : Prop where
  reached : ∀ found ∈ settled ++ pending, automaton.LeadsSilently origin found.state
  distinct : (statesOf settled).Nodup
  unsettled : ∀ candidate ∈ pending, candidate.state ∉ statesOf settled
  frontier : ∀ step ∈ automaton.transitions, step.word? = none → step.source ∈ statesOf settled →
    step.target ∈ statesOf settled ∨ step.target ∈ statesOf pending
  origin_known : origin ∈ statesOf settled ∨ origin ∈ statesOf pending

/-- The search begins with the origin as its only candidate. -/
theorem exploring_start (automaton : Automaton P W) (origin : Nat) :
    automaton.Exploring origin [] [⟨origin, 0, .empty⟩] := by
  constructor
  case reached =>
    intro found hfound
    obtain rfl := List.mem_singleton.mp hfound
    exact .refl automaton origin
  case distinct => exact List.nodup_nil
  case unsettled => exact fun _ _ hstate => nomatch hstate
  case frontier => exact fun _ _ _ hsource => nomatch hsource
  case origin_known => exact .inr (List.mem_singleton_self origin)

/-- Whatever the search takes for the best candidate is one. -/
theorem mem_of_best?_eq_some (hbest : best? pending = some found) : found ∈ pending := by
  cases pending with
  | nil => cases hbest
  | cons head rest =>
      rw [best?, Option.some.injEq] at hbest
      subst hbest
      induction rest generalizing head with
      | nil => exact List.mem_singleton_self head
      | cons second rest ih =>
          rw [List.foldl_cons]
          rcases List.mem_cons.mp (ih (if prefers second head then second else head)) with
            hhead | hrest
          · rw [hhead]
            split <;> simp
          · exact List.mem_cons_of_mem _ (List.mem_cons_of_mem _ hrest)

/-- Settling a candidate, whichever it is, keeps what holds of the search. -/
theorem Exploring.settle (hexploring : automaton.Exploring origin settled pending)
    (hfound : found ∈ pending) :
    automaton.Exploring origin (settled ++ [found])
      (automaton.pendingAfter settled pending found) := by
  have hstates : statesOf (settled ++ [found]) = statesOf settled ++ [found.state] := by
    simp [statesOf]
  have hnew := hexploring.unsettled found hfound
  have hreached := hexploring.reached found (List.mem_append_right _ hfound)
  -- A candidate stays one unless its state is the one that is settled now.
  have hkept : ∀ state ∈ statesOf pending, state ∈ statesOf (settled ++ [found]) ∨
      state ∈ statesOf (automaton.pendingAfter settled pending found) := by
    intro state hstate
    obtain ⟨candidate, hcandidate, rfl⟩ := mem_statesOf.mp hstate
    by_cases hsame : candidate.state = found.state
    · left
      rw [hstates, hsame]
      exact List.mem_append_right _ (List.mem_singleton_self _)
    · right
      exact mem_statesOf.mpr ⟨candidate, mem_pendingAfter.mpr (.inl ⟨hcandidate, hsame⟩), rfl⟩
  constructor
  case reached =>
    intro other hother
    rcases List.mem_append.mp hother with hother | hother
    · rcases List.mem_append.mp hother with hold | hlast
      · exact hexploring.reached other (List.mem_append_left _ hold)
      · obtain rfl := List.mem_singleton.mp hlast
        exact hreached
    · rcases mem_pendingAfter.mp hother with ⟨hold, -⟩ | ⟨-, step, hmem, hsource, hword, rfl⟩
      · exact hexploring.reached other (List.mem_append_right _ hold)
      · exact hreached.trans (hsource ▸ LeadsSilently.step hmem hword)
  case distinct =>
    rw [hstates]
    refine List.nodup_append.mpr
      ⟨hexploring.distinct, List.pairwise_singleton _ _, fun state hstate other hother => ?_⟩
    obtain rfl := List.mem_singleton.mp hother
    rintro rfl
    exact hnew hstate
  case unsettled =>
    intro candidate hcandidate
    rcases mem_pendingAfter.mp hcandidate with ⟨hold, hother⟩ | ⟨hfresh, -⟩
    · rw [hstates, List.mem_append, List.mem_singleton]
      rintro (hsettled | hsame)
      · exact hexploring.unsettled candidate hold hsettled
      · exact hother hsame
    · exact hfresh
  case frontier =>
    intro step hmem hword hsource
    rw [hstates, List.mem_append, List.mem_singleton] at hsource
    rcases hsource with hold | hlast
    · rcases hexploring.frontier step hmem hword hold with htarget | htarget
      · left
        rw [hstates]
        exact List.mem_append_left _ htarget
      · exact hkept _ htarget
    · by_cases htarget : step.target ∈ statesOf (settled ++ [found])
      · exact .inl htarget
      · exact .inr (mem_statesOf.mpr ⟨Reached.extend found step,
          mem_pendingAfter.mpr (.inr ⟨htarget, step, hmem, hlast, hword, rfl⟩), rfl⟩)
  case origin_known =>
    rcases hexploring.origin_known with hold | hpending
    · left
      rw [hstates]
      exact List.mem_append_left _ hold
    · exact hkept _ hpending

omit [LogWeight W] in
/-- Where no candidate is left, all states that epsilon transitions lead to are settled. -/
theorem Exploring.mem_statesOf (hexploring : automaton.Exploring origin settled []) {state : Nat}
    (hleads : automaton.LeadsSilently origin state) : state ∈ statesOf settled := by
  have horigin : origin ∈ statesOf settled :=
    hexploring.origin_known.resolve_right List.not_mem_nil
  obtain ⟨steps, hpath, hsilent⟩ := hleads
  generalize origin = first at hpath horigin
  induction steps generalizing first with
  | nil =>
      obtain rfl := PathIn.nil_iff.mp hpath
      exact horigin
  | cons step steps ih =>
      obtain ⟨hmem, rfl, hrest⟩ := hpath
      have hword := wordsOf_eq_nil_iff.mp hsilent step (List.mem_cons_self ..)
      rw [wordsOf_cons_none hword] at hsilent
      have htarget := (hexploring.frontier step hmem hword horigin).resolve_right List.not_mem_nil
      exact ih hsilent step.target hrest htarget

/-- The search finds the states that epsilon transitions lead to, however weights are compared. -/
theorem mem_statesOf_epsilonClosure (hnumbered : automaton.Numbered)
    (horigin : origin < automaton.stateCount) {state : Nat} :
    state ∈ statesOf (automaton.epsilonClosure origin) ↔ automaton.LeadsSilently origin state := by
  obtain ⟨left, hexploring, hend⟩ := settle_keeps
    (fun hholds hbest => Exploring.settle hholds (mem_of_best?_eq_some hbest))
    automaton.stateCount (exploring_start automaton origin)
  constructor
  · intro hstate
    obtain ⟨found, hfound, rfl⟩ := Automaton.mem_statesOf.mp hstate
    exact hexploring.reached found (List.mem_append_left _ hfound)
  · intro hleads
    rcases hend with rfl | hfull
    · exact hexploring.mem_statesOf hleads
    · -- As many states are settled as there are, so the state is among them.
      have hlt : ∀ other, automaton.LeadsSilently origin other → other < automaton.stateCount :=
        fun other ⟨_, hpath, _⟩ => hnumbered.last_lt horigin hpath
      refine mem_of_nodup_of_length_le hexploring.distinct (fun other hother => ?_) ?_
        (hlt state hleads)
      · obtain ⟨found, hfound, rfl⟩ := Automaton.mem_statesOf.mp hother
        exact List.mem_range.mpr
          (hlt _ (hexploring.reached found (List.mem_append_left _ hfound)))
      · rw [statesOf, List.length_map]
        rwa [List.length_nil, Nat.zero_add] at hfull

end SpeechGrammar.Automaton
