import SpeechGrammar.Proofs.Refusals
import SpeechGrammar.Proofs.Unfolding.Instantiation

/-!
# What comes of matching and building

Matching looks through all the rules that references lead to before it starts,
and so it succeeds exactly if none of them is broken.  Building instantiates
rules one inside another and stops at the first broken one.  It succeeds
exactly if none is broken that is led to on branches that can be taken, even
though it does not go into rules that are open; and if it fails, it says what is
wrong with the first broken rule in the order of instantiation.
-/

namespace SpeechGrammar.Scope

variable {P W : Type} [BranchWeight P] {scope : Scope P} {name : String} {target : Target}
  {top : Rule P} {order : List Target}

/-- The first broken rule in the order of instantiation is met while a public rule is unfolded. -/
theorem Identified.fault?_publicUnfolding (hscope : scope.Identified)
    (hpublic : scope.grammar.public name = .ok (target, top))
    (hvisits : scope.Visits [] [⟨top.name, some target⟩] order) :
    (scope.publicUnfolding target top).report.fault? = order.findSome? scope.unusableAt? := by
  have hunfolds := unfolds_unfoldReference scope.spacious_nil 0 ⟨top.name, some target⟩
  refine hunfolds.fault?_eq hscope.linked hscope.prepared.endless (.reference trivial) ?_ hvisits
  intro link hlink
  obtain rfl := List.mem_singleton.mp hlink
  exact ⟨target, mem_targets (follow?_of_public hpublic), rfl⟩

omit [BranchWeight P] in
/-- Nothing is found in the order of instantiation if no broken rule is led to. -/
theorem findSome?_unusableAt?_eq_none_iff {leads : Target → Target → Prop}
    (horder : ∀ found, found ∈ order ↔ leads target found) :
    order.findSome? scope.unusableAt? = none ↔ ¬ scope.MeetsBroken leads target := by
  rw [List.findSome?_eq_none_iff, not_meetsBroken_iff]
  constructor
  · intro hnone other found hleads hfound
    rw [← unusableAt?_eq hfound]
    exact hnone other ((horder other).mpr hleads)
  · intro husable other hother
    cases hfound : scope.follow? other with
    | none => rw [unusableAt?, hfound, Option.bind_none]
    | some found =>
        rw [unusableAt?_eq hfound]
        exact husable other found ((horder other).mp hother) hfound

variable [LogWeight W] [Logarithm P W]

/-- Matching succeeds if no broken rule is among those that references lead to. -/
theorem exists_deduce_eq_ok_iff (hscope : scope.Identified)
    (hpublic : scope.grammar.public name = .ok (target, top)) (tokens : List String)
    (assignments : List Assignment) (policy : MatchPolicy) :
    (∃ deduction : Deduction W, scope.deduce name tokens assignments policy = .ok deduction) ↔
      ¬ scope.MeetsBroken (Graph.Leads scope.successors) target := by
  have hindexed := hscope.prepared.indexed.grammar
  rw [← refuses_iff_of_public hindexed hpublic,
    ← deduce_eq_error_iff (W := W) hscope tokens assignments policy]
  cases (scope.deduce name tokens assignments policy : Except _ (Deduction W)) with
  | error refusal => exact iff_of_false (by rintro ⟨_, ⟨⟩⟩) fun hnone => hnone ⟨refusal, rfl⟩
  | ok deduction => exact iff_of_true ⟨deduction, rfl⟩ (by rintro ⟨_, ⟨⟩⟩)

/--
Matching an utterance against a public rule succeeds exactly if none of the
rules that references lead to is broken, whatever the utterance and however it
is matched.  There is one order in which references instantiate the rules that
are led to on branches that can be taken.  With a language weight that is
finite and positive, building succeeds exactly if none of them is broken, and
otherwise it fails because of what is wrong with the first broken one.
-/
theorem outcomes_of_matching_and_building (hscope : scope.Identified)
    (hpublic : scope.grammar.public name = .ok (target, top)) :
    (∀ (tokens : List String) (assignments : List Assignment) (policy : MatchPolicy),
      (∃ deduction : Deduction W, scope.deduce name tokens assignments policy = .ok deduction) ↔
        ¬ scope.MeetsBroken (Graph.Leads scope.successors) target) ∧
    ∃ order, (∀ other, scope.Visits [] [⟨top.name, some target⟩] other ↔ other = order) ∧
      (∀ found, found ∈ order ↔ Graph.Leads scope.takenSuccessors target found) ∧
      ∀ languageWeight : P, BranchWeight.isFinite languageWeight = true → 0 < languageWeight →
        ((∃ automaton : Automaton P W, scope.buildRaw name languageWeight = .ok automaton) ↔
          ¬ scope.MeetsBroken (Graph.Leads scope.takenSuccessors) target) ∧
        ∀ refusal, (scope.buildRaw name languageWeight : Except _ (Automaton P W)) =
            .error refusal ↔
          ∃ reason, refusal = .unusable reason ∧
            order.findSome? scope.unusableAt? = some reason := by
  refine ⟨exists_deduce_eq_ok_iff hscope hpublic, ?_⟩
  have hvisits := scope.visits_instantiated scope.spacious_nil [⟨top.name, some target⟩]
  have horder := hvisits.mem_iff hscope.linked rfl (mem_targets (follow?_of_public hpublic))
  refine ⟨_, fun other => ⟨fun hother => (hvisits.unique hother).symm, ?_⟩, horder, ?_⟩
  · rintro rfl
    exact hvisits
  intro languageWeight hfinite hpositive
  rw [← findSome?_unusableAt?_eq_none_iff horder, ← hscope.fault?_publicUnfolding hpublic hvisits,
    buildRaw_eq_of_public hpublic hfinite hpositive]
  cases (scope.publicUnfolding target top).report.fault? with
  | none => simp
  | some reason => simp [eq_comm]

def strandedText : String :=
  "public <trip> = /0/ <stop> | /1/ <leg> [then <trip>]; <stop> = <station>; " ++
    "<leg> = <ride> | <fare>; <fare> = <coins>; <ride> = by <train>;"

def stranded : Scope ℚ := (parseLenient ⟨0⟩ strandedText none).1

/--
A broken rule is among those that `<trip>` leads to.  The rules 0, 2, 4 and 3 are instantiated in
this order, and building fails for the unbound reference of `<ride>`, the first broken one among
them.
-/
theorem stranded_outcomes :
    stranded.MeetsBroken (Graph.Leads stranded.successors) ⟨⟨0⟩, 0⟩ ∧
      stranded.Visits [] [⟨"trip", some ⟨⟨0⟩, 0⟩⟩]
        [⟨⟨0⟩, 0⟩, ⟨⟨0⟩, 2⟩, ⟨⟨0⟩, 4⟩, ⟨⟨0⟩, 3⟩] ∧
      (stranded.buildRaw "trip" 1 : Except _ (Automaton ℚ (WithBot ℚ))) =
        .error (.unusable (.unbound "ride" "train")) := by
  -- All that is computed of the grammar is computed at once, so that its text is read once.
  obtain ⟨herrors, hfind, hcomputed, hrefused, hfirst⟩ :
      (parseLenient (P := ℚ) ⟨0⟩ strandedText none).2 = [] ∧
      ((stranded.grammar.public "trip").map fun found =>
        (found.1, found.2.name)).toOption = some (⟨⟨0⟩, 0⟩, "trip") ∧
      stranded.instantiated stranded.ruleCount [] [⟨"trip", some ⟨⟨0⟩, 0⟩⟩] =
        [⟨⟨0⟩, 0⟩, ⟨⟨0⟩, 2⟩, ⟨⟨0⟩, 4⟩, ⟨⟨0⟩, 3⟩] ∧
      ((stranded.deduce "trip" ["then"] [] literally : Except _ (Deduction (WithBot ℚ))).map
        fun _ => ()).toOption = none ∧
      [⟨⟨0⟩, 0⟩, ⟨⟨0⟩, 2⟩, ⟨⟨0⟩, 4⟩, ⟨⟨0⟩, 3⟩].findSome? stranded.unusableAt? =
        some (.unbound "ride" "train") := by decide +kernel
  have hparse : parse ⟨0⟩ strandedText none = .ok stranded :=
    parse_eq_ok_iff.mpr (Prod.ext rfl herrors)
  have hscope : stranded.Identified := identified_of_parse (by simp) (by simp) hparse
  obtain ⟨⟨target, top⟩, hpublic, hfound⟩ := exists_of_toOption_map_eq_some hfind
  obtain ⟨rfl, hname⟩ := Prod.mk.inj hfound
  obtain ⟨hmatch, order, hunique, -, hbuild⟩ :=
    outcomes_of_matching_and_building (W := WithBot ℚ) hscope hpublic
  have hvisits : stranded.Visits [] [⟨"trip", some ⟨⟨0⟩, 0⟩⟩]
      [⟨⟨0⟩, 0⟩, ⟨⟨0⟩, 2⟩, ⟨⟨0⟩, 4⟩, ⟨⟨0⟩, 3⟩] := by
    rw [← hcomputed]
    exact visits_instantiated stranded.spacious_nil _
  refine ⟨?_, hvisits, ?_⟩
  · by_contra husable
    obtain ⟨deduction, hdeduce⟩ := (hmatch ["then"] [] literally).mpr husable
    rw [hdeduce] at hrefused
    cases hrefused
  · obtain rfl := (hunique _).mp (hname ▸ hvisits)
    obtain ⟨-, hrefusal⟩ := hbuild 1 rfl one_pos
    exact (hrefusal _).mpr ⟨_, rfl, hfirst⟩

end SpeechGrammar.Scope
