import Mathlib.Algebra.Order.Ring.Int
import SpeechGrammar.Proofs.Automaton.EpsilonSearch

/-!
# Searching with a heap

A search with a heap leaves the candidates for a state that is settled where
they are, and drops them when they come up.  Which one comes up first among
candidates of equal weight for the same state is up to the heap.  However it
chooses, the search comes to an end, and settles the same states in the same
order with the same weights: those that epsilon transitions lead to, each by a
best path, the better ones first.
-/

namespace SpeechGrammar

variable {P W : Type}

/-- The settled states of a search in order, and its candidates, in any order. -/
structure Search (W : Type) where
  settled : List (Reached W)
  heap : List (Reached W)

namespace Search

def start [Zero W] (origin : Nat) : Search W := ⟨[], [⟨origin, 0, .empty⟩]⟩

/-- A candidate comes up first if none is preferred to it, and leaves the others. -/
structure Pops [LogWeight W] (search : Search W) (found : Reached W) (rest : List (Reached W)) :
    Prop where
  perm : search.heap.Perm (found :: rest)
  first : ∀ candidate ∈ search.heap, Automaton.prefers candidate found = false

def live (search : Search W) : List (Reached W) :=
  search.heap.filter fun candidate => !Automaton.isSettled search.settled candidate.state

end Search

def Reached.key (reached : Reached W) : Nat × W := (reached.state, reached.weight)

namespace Automaton

section Definitions

variable [LogWeight W]

/-- The candidate that comes up is dropped if its state is settled, and settled otherwise. -/
inductive Advances (automaton : Automaton P W) : Search W → Search W → Prop where
  | drop {search : Search W} {found : Reached W} {rest : List (Reached W)}
      (hpops : search.Pops found rest) (hold : found.state ∈ statesOf search.settled) :
      Advances automaton search ⟨search.settled, rest⟩
  | settle {search : Search W} {found : Reached W} {rest : List (Reached W)}
      (hpops : search.Pops found rest) (hnew : found.state ∉ statesOf search.settled) :
      Advances automaton search
        ⟨search.settled ++ [found],
          rest ++ automaton.freshFrom (search.settled ++ [found]) found⟩

/-- Whichever candidates come up, the search goes on until none is left, and this happens. -/
inductive Ends (automaton : Automaton P W) : Search W → Prop where
  | done (settled : List (Reached W)) : Ends automaton ⟨settled, []⟩
  | next {search : Search W} (hsome : ∃ next, automaton.Advances search next)
      (hall : ∀ next, automaton.Advances search next → Ends automaton next) :
      Ends automaton search

end Definitions

variable [ExactWeight W] {automaton : Automaton P W} {origin : Nat} {search next : Search W}
  {settled pending : List (Reached W)} {found : Reached W} {rest : List (Reached W)}

/--
What a search is to find: the states that epsilon transitions lead to, each
once, by a path of the greatest weight and with the tags of this path, the
better ones first.  The state that it begins with comes first of all.
-/
structure IsClosure (automaton : Automaton P W) (origin : Nat) (settled : List (Reached W)) :
    Prop where
  begins : settled.head? = some ⟨origin, 0, .empty⟩
  distinct : (statesOf settled).Nodup
  mem_states_iff : ∀ state, state ∈ statesOf settled ↔
    ∃ steps, PathIn automaton.transitions origin steps state ∧ wordsOf steps = []
  explained : ∀ found ∈ settled, automaton.Explained origin found
  optimal : ∀ found ∈ settled, automaton.Optimal origin found
  descending : settled.Pairwise fun earlier later => later.weight ≤ earlier.weight

/-! ## The steps of a search -/

omit [ExactWeight W] in
theorem mem_live {candidate : Reached W} :
    candidate ∈ search.live ↔ candidate ∈ search.heap ∧
      candidate.state ∉ statesOf search.settled := by
  rw [Search.live, List.mem_filter, Bool.not_eq_true', ← Bool.not_eq_true, isSettled_eq_true_iff]

/-- As long as a candidate is left, one comes up. -/
theorem exists_pops (hheap : search.heap ≠ []) : ∃ found rest, search.Pops found rest := by
  cases hbest : best? search.heap with
  | none => exact absurd (best?_eq_none hbest) hheap
  | some found =>
      obtain ⟨hfound, hfirst⟩ := best?_eq_some hbest
      obtain ⟨before, after, hsplit⟩ := List.append_of_mem hfound
      refine ⟨found, before ++ after, ?_, hfirst⟩
      rw [hsplit]
      exact List.perm_middle

theorem exists_advances (automaton : Automaton P W) (hheap : search.heap ≠ []) :
    ∃ next, automaton.Advances search next := by
  obtain ⟨found, rest, hpops⟩ := exists_pops hheap
  by_cases hold : found.state ∈ statesOf search.settled
  · exact ⟨_, .drop hpops hold⟩
  · exact ⟨_, .settle hpops hold⟩

theorem mem_live_of_drop (hpops : search.Pops found rest)
    (hold : found.state ∈ statesOf search.settled) (candidate : Reached W) :
    candidate ∈ Search.live ⟨search.settled, rest⟩ ↔ candidate ∈ search.live := by
  rw [mem_live, mem_live, hpops.perm.mem_iff, List.mem_cons]
  constructor
  · rintro ⟨hrest, hnew⟩
    exact ⟨.inr hrest, hnew⟩
  · rintro ⟨rfl | hrest, hnew⟩
    · exact absurd hold hnew
    · exact ⟨hrest, hnew⟩

/-- Settling a candidate leaves what the search that drops candidates at once is left with. -/
theorem mem_live_of_settle (hpops : search.Pops found rest) (candidate : Reached W) :
    candidate ∈ Search.live ⟨search.settled ++ [found],
        rest ++ automaton.freshFrom (search.settled ++ [found]) found⟩ ↔
      candidate ∈ automaton.pendingAfter search.settled search.live found := by
  have hstates : candidate.state ∉ statesOf (search.settled ++ [found]) ↔
      candidate.state ∉ statesOf search.settled ∧ candidate.state ≠ found.state := by
    simp [statesOf]
  rw [mem_live, List.mem_append, mem_freshFrom, mem_pendingAfter, mem_live, hpops.perm.mem_iff,
    List.mem_cons, hstates]
  constructor
  · rintro ⟨hrest | hfresh, hnew, hother⟩
    · exact .inl ⟨⟨.inr hrest, hnew⟩, hother⟩
    · exact .inr hfresh
  · rintro (⟨⟨rfl | hrest, hnew⟩, hother⟩ | ⟨hout, hsteps⟩)
    · exact absurd rfl hother
    · exact ⟨.inl hrest, hnew, hother⟩
    · exact ⟨.inr ⟨hout, hsteps⟩, hout⟩

/-- What holds of a search that began with a state. -/
structure Underway (automaton : Automaton P W) (origin : Nat) (search : Search W) : Prop where
  searching : automaton.Searching origin search.settled search.live
  begins : search = .start origin ∨ search.settled.head? = some ⟨origin, 0, .empty⟩
  descending : search.settled.Pairwise fun earlier later => later.weight ≤ earlier.weight
  below : ∀ found ∈ search.settled, ∀ candidate ∈ search.heap, candidate.weight ≤ found.weight

theorem underway_start (automaton : Automaton P W) (origin : Nat) :
    automaton.Underway origin (.start origin) where
  searching := searching_start automaton origin
  begins := .inl rfl
  descending := .nil
  below := fun _ hfound => nomatch hfound

/-- Going on keeps what holds of a search. -/
theorem Underway.advance (hwf : automaton.WellFormed) (hunderway : automaton.Underway origin search)
    (hadvances : automaton.Advances search next) : automaton.Underway origin next := by
  cases hadvances with
  | @drop found rest hpops hold =>
      have hrest : rest ⊆ search.heap := fun candidate hcandidate =>
        hpops.perm.mem_iff.mpr (List.mem_cons_of_mem _ hcandidate)
      constructor
      case searching => exact hunderway.searching.congr fun candidate =>
          (mem_live_of_drop hpops hold candidate).symm
      case begins =>
        rcases hunderway.begins with rfl | hbegins
        · cases hold
        · exact .inr hbegins
      case descending => exact hunderway.descending
      case below =>
        exact fun earlier hearlier candidate hcandidate =>
          hunderway.below earlier hearlier candidate (hrest hcandidate)
  | @settle found rest hpops hnew =>
      have hfound : found ∈ search.heap := hpops.perm.mem_iff.mpr (List.mem_cons_self ..)
      have habove : ∀ candidate ∈ search.heap, candidate.weight ≤ found.weight :=
        fun candidate hcandidate =>
          (prefers_eq_false_iff.mp (hpops.first candidate hcandidate)).1
      constructor
      case searching =>
        refine (hunderway.searching.settle_greatest hwf (mem_live.mpr ⟨hfound, hnew⟩) ?_).congr
          fun candidate => (mem_live_of_settle hpops candidate).symm
        exact fun candidate hcandidate => habove candidate (mem_live.mp hcandidate).1
      case begins =>
        rcases hunderway.begins with rfl | hbegins
        · obtain rfl := List.mem_singleton.mp hfound
          exact .inr rfl
        · refine .inr ?_
          rw [List.head?_append, hbegins, Option.some_or]
      case descending =>
        refine List.pairwise_append.mpr ⟨hunderway.descending, List.pairwise_singleton .., ?_⟩
        intro earlier hearlier later hlater
        obtain rfl := List.mem_singleton.mp hlater
        exact hunderway.below earlier hearlier later hfound
      case below =>
        have hless : ∀ candidate ∈ rest ++ automaton.freshFrom (search.settled ++ [found]) found,
            candidate.weight ≤ found.weight := by
          intro candidate hcandidate
          rcases List.mem_append.mp hcandidate with hrest | hfresh
          · exact habove candidate (hpops.perm.mem_iff.mpr (List.mem_cons_of_mem _ hrest))
          · obtain ⟨-, step, hmem, -, -, rfl⟩ := mem_freshFrom.mp hfresh
            exact add_le_of_nonpos_right (hwf.nonpositive step hmem)
        intro earlier hearlier candidate hcandidate
        rcases List.mem_append.mp hearlier with hold | hlast
        · exact (hless candidate hcandidate).trans (hunderway.below earlier hold found hfound)
        · exact List.mem_singleton.mp hlast ▸ hless candidate hcandidate

theorem underway_of_reaches (hwf : automaton.WellFormed)
    (hreaches : Relation.ReflTransGen automaton.Advances (.start origin) search) :
    automaton.Underway origin search := by
  induction hreaches with
  | refl => exact underway_start automaton origin
  | tail _ hadvances ih => exact ih.advance hwf hadvances

/-- A search that has come to its end has found what it is to find. -/
theorem Underway.isClosure (hwf : automaton.WellFormed)
    (hunderway : automaton.Underway origin ⟨settled, []⟩) :
    automaton.IsClosure origin settled := by
  have hsearching : automaton.Searching origin settled [] := hunderway.searching
  have hexplained : ∀ found ∈ settled, automaton.Explained origin found :=
    fun found hfound => hsearching.explained found (List.mem_append_left _ hfound)
  constructor
  case begins =>
    rcases hunderway.begins with hstart | hbegins
    · cases congrArg Search.heap hstart
    · exact hbegins
  case distinct => exact hsearching.distinct
  case mem_states_iff =>
    intro state
    constructor
    · intro hstate
      obtain ⟨found, hfound, rfl⟩ := mem_statesOf.mp hstate
      obtain ⟨steps, hpath, hsilent, -⟩ := hexplained found hfound
      exact ⟨steps, hpath, hsilent⟩
    · rintro ⟨steps, hpath, hsilent⟩
      exact hsearching.settles_all hwf hpath hsilent
  case explained => exact hexplained
  case optimal => exact hsearching.optimal
  case descending => exact hunderway.descending

/-! ## The end of a search -/

theorem length_freshFrom_le (automaton : Automaton P W) (settled : List (Reached W))
    (found : Reached W) :
    (automaton.freshFrom settled found).length ≤ automaton.transitions.length := by
  refine (List.length_filter_le _ _).trans ?_
  rw [List.length_map]
  exact (List.length_filter_le _ _).trans (List.length_filter_le _ _)

theorem Underway.length_settled_le (hwf : automaton.WellFormed)
    (horigin : origin < automaton.stateCount) (hunderway : automaton.Underway origin search) :
    search.settled.length ≤ automaton.stateCount := by
  have hsubset := hunderway.searching.states_subset hwf horigin
  simpa [statesOf] using (List.subperm_of_subset hunderway.searching.distinct hsubset).length_le

/--
The search comes to an end.  Settling a state leaves fewer states, and brings no
more candidates than there are transitions; dropping one leaves fewer candidates.
-/
theorem Underway.ends (hwf : automaton.WellFormed) (horigin : origin < automaton.stateCount)
    (hunderway : automaton.Underway origin search) : automaton.Ends search := by
  induction hmeasure : (automaton.stateCount - search.settled.length) *
      (automaton.transitions.length + 1) + search.heap.length using
    Nat.strong_induction_on generalizing search with
  | h measure ih =>
      subst hmeasure
      obtain ⟨settled, heap⟩ := search
      cases heap with
      | nil => exact .done settled
      | cons first others =>
          refine .next (exists_advances automaton (List.cons_ne_nil _ _)) fun next hadvances => ?_
          have hnext := hunderway.advance hwf hadvances
          refine ih _ ?_ hnext rfl
          have hsettled := hnext.length_settled_le hwf horigin
          cases hadvances with
          | drop hpops _ =>
              have hlength := hpops.perm.length_eq
              dsimp only at hlength ⊢
              rw [hlength, List.length_cons]
              omega
          | @settle found rest hpops _ =>
              have hlength := hpops.perm.length_eq
              have hfresh := length_freshFrom_le automaton (settled ++ [found]) found
              dsimp only at hlength hsettled ⊢
              rw [List.length_append, List.length_singleton] at hsettled
              obtain ⟨left, hleft⟩ := Nat.exists_eq_add_of_le hsettled
              have hbefore : automaton.stateCount - settled.length = left + 1 := by omega
              have hafter : automaton.stateCount - (settled ++ [found]).length = left := by
                rw [List.length_append, List.length_singleton]
                omega
              rw [hbefore, hafter, hlength, List.length_append, List.length_cons, Nat.succ_mul]
              omega

section Alike

variable {others : List (Reached W)} {other : Reached W}

omit [ExactWeight W] in
theorem statesOf_eq_of_keys {settled others : List (Reached W)}
    (hkeys : settled.map Reached.key = others.map Reached.key) :
    statesOf settled = statesOf others := by
  have hstates := congrArg (List.map Prod.fst) hkeys
  rwa [List.map_map, List.map_map] at hstates

theorem key_eq_of_prefers (hfound : prefers found other = false)
    (hother : prefers other found = false) : found.key = other.key := by
  rw [prefers_eq_false_iff] at hfound hother
  have hweight := le_antisymm hfound.1 hother.1
  exact Prod.ext (le_antisymm (hother.2 hweight.symm) (hfound.2 hweight)) hweight

/-- What comes up first among the same states and weights has the same state and weight. -/
theorem key_eq_of_first
    (hlive : ∀ key, key ∈ pending.map Reached.key ↔ key ∈ others.map Reached.key)
    (hfound : found ∈ pending) (hfirst : ∀ candidate ∈ pending, prefers candidate found = false)
    (hother : other ∈ others) (hbest : ∀ candidate ∈ others, prefers candidate other = false) :
    found.key = other.key := by
  have hcongr : ∀ {first second third : Reached W}, first.key = second.key →
      prefers first third = prefers second third := by
    intro first second third hkey
    obtain ⟨hstate, hweight⟩ := Prod.mk.inj hkey
    rw [prefers, prefers, hstate, hweight]
  obtain ⟨twin, htwin, hkey⟩ := List.mem_map.mp ((hlive _).mp (List.mem_map_of_mem hfound))
  obtain ⟨again, hagain, hsame⟩ := List.mem_map.mp ((hlive _).mpr (List.mem_map_of_mem hother))
  exact key_eq_of_prefers (hcongr hkey ▸ hbest twin htwin) (hcongr hsame ▸ hfirst again hagain)

theorem mem_keys_pendingAfter {key : Nat × W} :
    key ∈ (automaton.pendingAfter settled pending found).map Reached.key ↔
      (key ∈ pending.map Reached.key ∧ key.1 ≠ found.key.1) ∨
        (key.1 ∉ statesOf settled ++ [found.key.1] ∧ ∃ step ∈ automaton.transitions,
          step.source = found.key.1 ∧ step.word? = none ∧
          (step.target, found.key.2 + step.weight) = key) := by
  have hstates : statesOf (settled ++ [found]) = statesOf settled ++ [found.key.1] := by
    simp [statesOf, Reached.key]
  simp only [List.mem_map, mem_pendingAfter, hstates]
  constructor
  · rintro ⟨candidate, ⟨hold, hstate⟩ | ⟨hout, step, hmem, hsource, hword, rfl⟩, rfl⟩
    · exact .inl ⟨⟨candidate, hold, rfl⟩, hstate⟩
    · exact .inr ⟨hout, step, hmem, hsource, hword, rfl⟩
  · rintro (⟨⟨candidate, hold, rfl⟩, hstate⟩ | ⟨hout, step, hmem, hsource, hword, rfl⟩)
    · exact ⟨candidate, .inl ⟨hold, hstate⟩, rfl⟩
    · exact ⟨Reached.extend found step, .inr ⟨hout, step, hmem, hsource, hword, rfl⟩, rfl⟩

theorem settled_prefix_of_reaches
    (hreaches : Relation.ReflTransGen automaton.Advances search next) :
    search.settled <+: next.settled := by
  induction hreaches with
  | refl => exact List.prefix_rfl
  | tail _ hadvances ih =>
      cases hadvances with
      | drop => exact ih
      | settle => exact ih.trans (List.prefix_append ..)

/--
However candidates come up, the same states are settled with the same weights
as by the search that drops candidates at once, given the same candidates.
-/
theorem keys_eq_keys_settle
    (hreaches : Relation.ReflTransGen automaton.Advances search ⟨settled, []⟩)
    (hkeys : search.settled.map Reached.key = others.map Reached.key)
    (hlive : ∀ key, key ∈ search.live.map Reached.key ↔ key ∈ pending.map Reached.key)
    {allowance : Nat} (hallowance : settled.length ≤ search.settled.length + allowance) :
    settled.map Reached.key = (automaton.settle allowance others pending).map Reached.key := by
  -- What is dropped is not live, and what is settled is first among the same keys on both sides.
  induction hreaches using Relation.ReflTransGen.head_induction_on
      generalizing others pending allowance with
  | refl =>
      have hnone : pending = [] := List.eq_nil_iff_forall_not_mem.mpr fun candidate hcandidate =>
        List.not_mem_nil ((hlive candidate.key).mpr (List.mem_map_of_mem hcandidate))
      rw [hnone, settle_nil]
      exact hkeys
  | @head search middle hadvances hrest ih =>
      cases hadvances with
      | drop hpops hold =>
          refine ih hkeys (fun key => ?_) hallowance
          rw [← hlive key]
          simp only [List.mem_map, mem_live_of_drop hpops hold]
      | @settle found rest hpops hnew =>
          have hfound : found ∈ search.live :=
            mem_live.mpr ⟨hpops.perm.mem_iff.mpr (List.mem_cons_self ..), hnew⟩
          have hfirst : ∀ candidate ∈ search.live, prefers candidate found = false :=
            fun candidate hcandidate => hpops.first candidate (mem_live.mp hcandidate).1
          have hlength := (settled_prefix_of_reaches hrest).length_le
          dsimp only at hlength
          rw [List.length_append, List.length_singleton] at hlength
          obtain ⟨left, rfl⟩ : ∃ left, allowance = left + 1 := ⟨allowance - 1, by omega⟩
          cases hbest : best? pending with
          | none =>
              have hkey := (hlive found.key).mp (List.mem_map_of_mem hfound)
              rw [best?_eq_none hbest] at hkey
              cases hkey
          | some other =>
              obtain ⟨hother, hgreatest⟩ := best?_eq_some hbest
              have hkey := key_eq_of_first hlive hfound hfirst hother hgreatest
              rw [settle_succ hbest]
              refine ih ?_ (fun key => ?_) ?_
              · simp only [List.map_append, List.map_singleton, hkeys, hkey]
              · have hpending : key ∈ (Search.live ⟨search.settled ++ [found],
                      rest ++ automaton.freshFrom (search.settled ++ [found]) found⟩).map
                        Reached.key ↔
                    key ∈ (automaton.pendingAfter search.settled search.live found).map
                      Reached.key := by
                  simp only [List.mem_map, mem_live_of_settle hpops]
                rw [hpending, mem_keys_pendingAfter, mem_keys_pendingAfter, hlive key, hkey,
                  statesOf_eq_of_keys hkeys]
              · rw [List.length_append, List.length_singleton]
                omega

end Alike

theorem Ends.exists_reaches (hends : automaton.Ends search) :
    ∃ settled, Relation.ReflTransGen automaton.Advances search ⟨settled, []⟩ := by
  induction hends with
  | done settled => exact ⟨settled, .refl⟩
  | next hsome _ ih =>
      obtain ⟨next, hnext⟩ := hsome
      obtain ⟨settled, hreaches⟩ := ih next hnext
      exact ⟨settled, .head hnext hreaches⟩

/-- The search that drops candidates at once goes on from what it has settled. -/
theorem prefix_settle (automaton : Automaton P W) (allowance : Nat)
    (settled pending : List (Reached W)) :
    settled <+: automaton.settle allowance settled pending := by
  induction allowance generalizing settled pending with
  | zero => exact List.prefix_rfl
  | succ allowance ih =>
      cases hbest : best? pending with
      | none =>
          have hsame : automaton.settle (allowance + 1) settled pending = settled := by
            rw [best?_eq_none hbest, settle_nil]
          exact hsame.symm ▸ List.prefix_rfl
      | some found =>
          rw [settle_succ hbest]
          exact (List.prefix_append ..).trans (ih _ _)

/-- The state that the search begins with is settled first. -/
theorem head?_epsilonClosure (horigin : origin < automaton.stateCount) :
    (automaton.epsilonClosure origin).head? = some ⟨origin, 0, .empty⟩ := by
  obtain ⟨left, hleft⟩ := Nat.exists_eq_add_of_lt horigin
  have hbest : best? [(⟨origin, 0, .empty⟩ : Reached W)] = some ⟨origin, 0, .empty⟩ := rfl
  rw [epsilonClosure, hleft, settle_succ hbest]
  obtain ⟨more, hmore⟩ := prefix_settle automaton (origin + left)
    ([] ++ [⟨origin, 0, .empty⟩])
    (automaton.pendingAfter [] [⟨origin, 0, .empty⟩] ⟨origin, 0, .empty⟩)
  rw [← hmore]
  rfl

/-- However candidates come up, the search settles the same states with the same weights. -/
theorem keys_eq_keys_epsilonClosure (hwf : automaton.WellFormed)
    (horigin : origin < automaton.stateCount)
    (hreaches : Relation.ReflTransGen automaton.Advances (.start origin) ⟨settled, []⟩) :
    settled.map Reached.key = (automaton.epsilonClosure origin).map Reached.key := by
  have hlength := (underway_of_reaches hwf hreaches).length_settled_le hwf horigin
  refine keys_eq_keys_settle hreaches rfl (fun key => ?_) (by simpa [Search.start] using hlength)
  simp [Search.start, Search.live, isSettled]

/--
The search for the states that epsilon transitions lead to ends, however the
heap chooses among equal candidates, and finds what it is to find.  Which states
it finds with which weights, and in which order, does not depend on the choice.
-/
theorem epsilonClosure_of_any_heap (hwf : automaton.WellFormed)
    (horigin : origin < automaton.stateCount) :
    automaton.Ends (.start origin) ∧
      automaton.IsClosure origin (automaton.epsilonClosure origin) ∧
      ∀ settled, Relation.ReflTransGen automaton.Advances (.start origin) ⟨settled, []⟩ →
        automaton.IsClosure origin settled ∧
          settled.map Reached.key = (automaton.epsilonClosure origin).map Reached.key := by
  have hends := (underway_start automaton origin).ends hwf horigin
  refine ⟨hends, ?_, fun settled hreaches => ⟨?_, ?_⟩⟩
  · obtain ⟨hdistinct, hfound, -⟩ := epsilonClosure_spec hwf horigin
    obtain ⟨settled, hreaches⟩ := hends.exists_reaches
    have hclosure := (underway_of_reaches hwf hreaches).isClosure hwf
    have hkeys := keys_eq_keys_epsilonClosure hwf horigin hreaches
    constructor
    case begins => exact head?_epsilonClosure horigin
    case distinct => exact hdistinct
    case mem_states_iff =>
      intro state
      rw [← statesOf_eq_of_keys hkeys]
      exact hclosure.mem_states_iff state
    case explained => exact fun found hmem => (hfound found hmem).1
    case optimal => exact fun found hmem => (hfound found hmem).2
    case descending =>
      have hdescending : (settled.map Reached.key).Pairwise fun earlier later =>
          later.2 ≤ earlier.2 := List.pairwise_map.mpr hclosure.descending
      rw [hkeys] at hdescending
      exact List.pairwise_map.mp hdescending
  · exact (underway_of_reaches hwf hreaches).isClosure hwf
  · exact keys_eq_keys_epsilonClosure hwf horigin hreaches

/--
Two epsilon transitions of equal weight lead from 0 to 1, and the one from 0 to 2 weighs less than
the way through 1.
-/
def forked : Automaton ℕ (WithBot ℤ) where
  name := "forked"
  stateCount := 4
  start := 0
  finals := .ofList [3]
  transitions :=
    [⟨0, 1, none, 0, .ofList [⟨"left", none⟩]⟩, ⟨0, 1, none, 0, .ofList [⟨"right", none⟩]⟩,
      ⟨1, 0, none, 0, .empty⟩, ⟨0, 2, none, (-3 : ℤ), .empty⟩, ⟨1, 2, none, (-1 : ℤ), .empty⟩,
      ⟨2, 3, some "go", 0, .empty⟩]
  languageWeight := 1

theorem wellFormed_forked : forked.WellFormed where
  start_lt := by decide
  source_lt := by decide
  target_lt := by decide
  finite := by decide
  nonpositive := by decide

/--
Every complete search from state 0 of `forked` settles the states 0, 1 and 2, in this order, with
the weights 0, 0 and -1.
-/
theorem forked_found :
    forked.IsClosure 0 (forked.epsilonClosure 0) ∧
      (∃ settled, Relation.ReflTransGen forked.Advances (.start 0) ⟨settled, []⟩) ∧
      ∀ settled, Relation.ReflTransGen forked.Advances (.start 0) ⟨settled, []⟩ →
        settled.map Reached.key = [(0, 0), (1, 0), (2, ((-1 : ℤ) : WithBot ℤ))] := by
  obtain ⟨hends, hclosure, hevery⟩ :=
    epsilonClosure_of_any_heap wellFormed_forked (by decide : 0 < forked.stateCount)
  refine ⟨hclosure, hends.exists_reaches, fun settled hreaches => ?_⟩
  exact (hevery settled hreaches).2.trans (by decide +kernel)

end Automaton

end SpeechGrammar
