import SpeechGrammar.Proofs.Agreement
import SpeechGrammar.Proofs.Grammar.Integrity
import SpeechGrammar.Proofs.Unfolding.Descent
import SpeechGrammar.Proofs.Unfolding.Faultless

/-!
# When building and matching are refused

An utterance is not matched against a rule if a broken rule is among those that
its references lead to.  An automaton of the rule is not built if a broken rule
is met on the way.  These are not the same: branches of probability zero are
not built, so a broken rule that is referred to on such branches only does not
keep an automaton from being built.  The other way round, whatever cannot be
built cannot be matched either.
-/

namespace SpeechGrammar.Scope

variable {P W : Type} {scope : Scope P}

/-- A public rule of the scope's own grammar with a name. -/
def Offers (scope : Scope P) (name : String) (target : Target) : Prop :=
  target.grammar = scope.grammar.id ∧ ∃ rule, scope.grammar.rules[target.index]? = some rule ∧
    rule.name = name ∧ rule.isPublic = true

/-- A broken rule among those that a relation leads to from a rule. -/
def MeetsBroken (scope : Scope P) (leads : Target → Target → Prop) (target : Target) : Prop :=
  ∃ other found, leads target other ∧ scope.follow? other = some found ∧ found.isBroken = true

/-- A rule of a name is missing or not public, or a broken rule is among those it leads to. -/
def Refuses (scope : Scope P) (leads : Target → Target → Prop) (name : String) : Prop :=
  (∀ target, ¬ scope.Offers name target) ∨
    ∃ target, scope.Offers name target ∧ scope.MeetsBroken leads target

/-- Where the index is exact, the public rules are those that are found. -/
theorem offers_iff (hindexed : scope.grammar.Indexed) {name : String} {target : Target} :
    scope.Offers name target ↔ ∃ top, scope.grammar.public name = .ok (target, top) := by
  simp only [Grammar.public_eq_ok_iff, hindexed.ruleIndex?_eq_some_iff]
  rw [Offers, ← exists_and_left]
  refine exists_congr fun top => and_congr_right fun _ => ?_
  constructor
  · rintro ⟨hrule, hname, htop⟩
    refine ⟨?_, hrule, htop⟩
    rw [Grammar.ruleNames, List.getElem?_map, hrule, Option.map_some, hname]
  · rintro ⟨hplace, hrule, htop⟩
    rw [Grammar.ruleNames, List.getElem?_map, hrule, Option.map_some] at hplace
    exact ⟨hrule, Option.some.inj hplace, htop⟩

theorem not_meetsBroken_iff {leads : Target → Target → Prop} {target : Target} :
    ¬ scope.MeetsBroken leads target ↔
      ∀ other found, leads target other → scope.follow? other = some found →
        found.unusable? = none := by
  simp only [MeetsBroken, not_exists, not_and, Rule.isBroken, Bool.not_eq_true,
    Option.isSome_eq_false_iff, Option.isNone_iff_eq_none]

theorem refuses_iff_of_public (hindexed : scope.grammar.Indexed) {name : String}
    {leads : Target → Target → Prop} {target : Target} {top : Rule P}
    (hpublic : scope.grammar.public name = .ok (target, top)) :
    scope.Refuses leads name ↔ scope.MeetsBroken leads target := by
  have hoffers : scope.Offers name target := (offers_iff hindexed).mpr ⟨top, hpublic⟩
  constructor
  · rintro (hnone | ⟨other, hother, hmeets⟩)
    · exact absurd hoffers (hnone target)
    · obtain ⟨found, hfound⟩ := (offers_iff hindexed).mp hother
      obtain ⟨rfl, -⟩ := Prod.mk.inj (Except.ok.inj (hpublic.symm.trans hfound))
      exact hmeets
  · exact fun hmeets => .inr ⟨target, hoffers, hmeets⟩

theorem refuses_of_public_eq_error (hindexed : scope.grammar.Indexed) {name : String}
    (leads : Target → Target → Prop) {refusal : Refusal P}
    (hpublic : scope.grammar.public name = .error refusal) : scope.Refuses leads name := by
  refine .inl fun target hoffers => ?_
  obtain ⟨top, htop⟩ := (offers_iff hindexed).mp hoffers
  rw [hpublic] at htop
  cases htop

/-! ## Rules that are met while a rule is unfolded -/

section Unfold

variable [BranchWeight P]

theorem exists_of_unfoldReference_eq_rule {room : Nat} {opened : List OpenRule} {floor : Nat}
    {link : Reference} {target : Target} {body : Unfolding P}
    (heq : scope.unfoldReference room opened floor link = .rule target body) :
    ∃ rule, scope.follow? target = some rule ∧ rule.unusable? = none := by
  unfold unfoldReference at heq
  split at heq
  · cases heq
  · split at heq
    · cases heq
    · split at heq
      · cases heq
      · cases heq
      · rename_i rule room hrule
        split at heq
        · cases heq
        · rename_i husable
          obtain ⟨rfl, -⟩ := Unfolding.rule.inj heq
          exact ⟨rule, hrule, husable⟩

/-- A rule that can be used and is unfolded without faults, inside others of the same kind. -/
inductive Instantiates (scope : Scope P) : Target → Prop where
  | intro {target : Target} {rule : Rule P} {opened : List OpenRule} {room floor : Nat}
      (hrule : scope.follow? target = some rule) (husable : rule.unusable? = none)
      (hopened : ∀ entry ∈ opened, Instantiates scope entry.target)
      (hfaultless : (rule.body.unfold (scope.unfoldReference room)
        (opened ++ [⟨target, rule.name⟩]) floor).Faultless) : Instantiates scope target

theorem instantiates_of_faultless {room : Nat} {opened : List OpenRule} {floor : Nat}
    {link : Reference} (hopened : ∀ entry ∈ opened, scope.Instantiates entry.target)
    (hfaultless : (scope.unfoldReference room opened floor link).Faultless) {target : Target}
    (htarget : link.target? = some target) : scope.Instantiates target := by
  rcases unfoldReference_cases scope room opened floor link with ⟨reason, heq, -⟩ |
    ⟨other, hother, ⟨depth, entry, hentry, hsame, -, -⟩ | ⟨left, rule, -, hrule, -, heq⟩⟩
  · rw [heq] at hfaultless
    exact (Unfolding.not_faultless_fault reason hfaultless).elim
  · obtain rfl := Option.some.inj (htarget.symm.trans hother)
    exact hsame ▸ hopened entry (List.mem_of_getElem? hentry)
  · obtain rfl := Option.some.inj (htarget.symm.trans hother)
    obtain ⟨found, hfound, husable⟩ := exists_of_unfoldReference_eq_rule heq
    obtain rfl := Option.some.inj (hrule.symm.trans hfound)
    rw [heq, Unfolding.faultless_rule_iff] at hfaultless
    exact .intro hrule husable hopened hfaultless

/-- Whatever an instantiated rule can come to is instantiated. -/
theorem Instantiates.of_leads {target other : Target} (hinstantiates : scope.Instantiates target)
    (hleads : scope.Leads target other) : scope.Instantiates other := by
  induction hleads with
  | refl => exact hinstantiates
  | tail _ hcalls ih =>
      obtain ⟨rule, link, hrule, hreaches, hlink⟩ := hcalls
      cases ih with
      | @intro _ found opened room floor hfound husable hopened hfaultless =>
          obtain rfl := Option.some.inj (hrule.symm.trans hfound)
          obtain ⟨lower, -, hfollow⟩ :=
            Expansion.holds_follow_of_reaches Unfolding.passesDown_faultless hreaches hfaultless
          refine instantiates_of_faultless (List.forall_mem_append.mpr ⟨hopened, ?_⟩) hfollow hlink
          exact List.forall_mem_singleton.mpr (.intro hrule husable hopened hfaultless)

/-- A public rule is unfolded without faults exactly if no broken rule can be come to. -/
theorem Identified.faultless_publicUnfolding_iff (hscope : scope.Identified) {name : String}
    {target : Target} {top : Rule P}
    (hpublic : scope.grammar.public name = .ok (target, top)) :
    (scope.publicUnfolding target top).Faultless ↔ ¬ scope.MeetsBroken scope.Leads target := by
  rw [not_meetsBroken_iff]
  constructor
  · intro hfaultless other found hleads hfound
    have hnone : ∀ entry ∈ ([] : List OpenRule), scope.Instantiates entry.target :=
      fun entry hentry => nomatch hentry
    have hinstantiates : scope.Instantiates target :=
      instantiates_of_faultless hnone hfaultless rfl
    cases hinstantiates.of_leads hleads with
    | intro hrule husable _ _ =>
        obtain rfl := Option.some.inj (hfound.symm.trans hrule)
        exact husable
  · intro husable
    have hsustains : scope.Sustains (scope.Leads target) := by
      refine ⟨fun hleads hrule => husable _ _ hleads hrule, fun hleads hrule hmeets hnext => ?_⟩
      have hbounded := hscope.prepared.properlyBounded.of_follow? hrule
      exact hleads.tail ⟨_, _, hrule, hmeets.reaches hbounded, hnext⟩
    exact hsustains.faultless hscope.linked hpublic .refl

end Unfold

/-! ## Refusals -/

section Outcomes

variable [BranchWeight P] [LogWeight W] [Logarithm P W] {name : String}

/-- Matching is refused where a broken rule is among those that references lead to. -/
theorem deduce_eq_error_iff (hscope : scope.Identified) (tokens : List String)
    (assignments : List Assignment) (policy : MatchPolicy) :
    (∃ refusal, (scope.deduce name tokens assignments policy : Except _ (Deduction W)) =
      .error refusal) ↔ scope.Refuses (Graph.Leads scope.successors) name := by
  have hindexed := hscope.prepared.indexed.grammar
  rw [deduce]
  cases hpublic : scope.grammar.public name with
  | error refusal =>
      exact iff_of_true ⟨refusal, rfl⟩ (refuses_of_public_eq_error hindexed _ hpublic)
  | ok found =>
      obtain ⟨target, top⟩ := found
      have hroot : target ∈ scope.targets := mem_targets (follow?_of_public hpublic)
      have hbroken : scope.MeetsBroken (Graph.Leads scope.successors) target ↔
          scope.unusableBelow? target ≠ none := by
        rw [← not_iff_not, not_meetsBroken_iff, not_not,
          hscope.linked.unusableBelow?_eq_none_iff hroot]
        rfl
      rw [refuses_iff_of_public hindexed hpublic, hbroken]
      dsimp only [bind, Except.bind]
      cases scope.unusableBelow? target with
      | none =>
          constructor
          · rintro ⟨_, ⟨⟩⟩
          · exact fun hne => absurd rfl hne
      | some reason => exact iff_of_true ⟨_, rfl⟩ (Option.some_ne_none reason)

/-- What building comes to, by the first fault that is met. -/
theorem buildRaw_eq_of_public {target : Target} {top : Rule P}
    (hpublic : scope.grammar.public name = .ok (target, top)) {languageWeight : P}
    (hfinite : BranchWeight.isFinite languageWeight = true) (hpositive : 0 < languageWeight) :
    (scope.buildRaw name languageWeight : Except _ (Automaton P W)) =
      match (scope.publicUnfolding target top).report.fault? with
      | some reason => .error (.unusable reason)
      | none => .ok ((scope.publicUnfolding target top).automaton (scope.automatonName name)
          languageWeight) := by
  rw [buildRaw, unfoldPublic_eq_map name hfinite hpositive, hpublic]
  rfl

/-- Building is refused where a broken rule can be come to. -/
theorem buildRaw_eq_error_iff (hscope : scope.Identified) {languageWeight : P}
    (hfinite : BranchWeight.isFinite languageWeight = true) (hpositive : 0 < languageWeight) :
    (∃ refusal, (scope.buildRaw name languageWeight : Except _ (Automaton P W)) =
      .error refusal) ↔ scope.Refuses scope.Leads name := by
  have hindexed := hscope.prepared.indexed.grammar
  cases hpublic : scope.grammar.public name with
  | error refusal =>
      rw [buildRaw, unfoldPublic_eq_map name hfinite hpositive, hpublic]
      exact iff_of_true ⟨refusal, rfl⟩ (refuses_of_public_eq_error hindexed _ hpublic)
  | ok found =>
      obtain ⟨target, top⟩ := found
      have hbroken : scope.MeetsBroken scope.Leads target ↔
          (scope.publicUnfolding target top).report.fault? ≠ none := by
        rw [← not_iff_not, ← hscope.faultless_publicUnfolding_iff hpublic, not_not]
        rfl
      rw [refuses_iff_of_public hindexed hpublic, hbroken,
        buildRaw_eq_of_public hpublic hfinite hpositive]
      cases (scope.publicUnfolding target top).report.fault? with
      | none =>
          constructor
          · rintro ⟨_, ⟨⟩⟩
          · exact fun hne => absurd rfl hne
      | some reason => exact iff_of_true ⟨_, rfl⟩ (Option.some_ne_none reason)

/--
Matching utterances against a rule is refused exactly if the rule is missing, or not public, or
some broken rule is among those that its references lead to.  With a language weight that is
finite and positive, building an automaton of the rule is refused exactly if it is missing, or
not public, or a broken rule can be come to, through references on branches with a positive
probability only.  So what cannot be built cannot be matched.
-/
theorem refusals_of_matching_and_building (hscope : scope.Identified) (name : String)
    {languageWeight : P} (hfinite : BranchWeight.isFinite languageWeight = true)
    (hpositive : 0 < languageWeight) (tokens : List String) (assignments : List Assignment)
    (policy : MatchPolicy) :
    ((∃ refusal, (scope.deduce name tokens assignments policy : Except _ (Deduction W)) =
        .error refusal) ↔ scope.Refuses (Graph.Leads scope.successors) name) ∧
      ((∃ refusal, (scope.buildRaw name languageWeight : Except _ (Automaton P W)) =
        .error refusal) ↔ scope.Refuses scope.Leads name) ∧
      ((∃ refusal, (scope.buildRaw name languageWeight : Except _ (Automaton P W)) =
        .error refusal) →
          ∃ refusal, (scope.deduce name tokens assignments policy : Except _ (Deduction W)) =
            .error refusal) := by
  refine ⟨deduce_eq_error_iff hscope tokens assignments policy,
    buildRaw_eq_error_iff hscope hfinite hpositive, fun hrefused =>
      (deduce_eq_error_iff hscope tokens assignments policy).mpr ?_⟩
  rcases (buildRaw_eq_error_iff hscope hfinite hpositive).mp hrefused with
    hnone | ⟨target, hoffers, other, found, hleads, hfound⟩
  · exact .inl hnone
  · exact .inr ⟨target, hoffers, other, found, hleads.leads_successors, hfound⟩

end Outcomes

/-- A refusal is known without comparing what else could have come out. -/
theorem eq_error_of_map_eq_error {ε α : Type} {outcome : Except ε α} {refusal : ε}
    (hknown : (outcome.map fun _ => ()) = .error refusal) : outcome = .error refusal := by
  cases outcome with
  | error other => exact congrArg Except.error (Except.error.inj hknown)
  | ok value => cases hknown

def shunningText : String :=
  "public <trip> = /1/ home | /0/ <stop>; <stop> = <station>; public <visit> = [see] <stop>;"

def shunning : Scope ℚ := (parseLenient ⟨0⟩ shunningText none).1

/--
The only broken rule that `<trip>` leads to stands on a branch of probability zero, so that matching
refuses `<trip>` and building does not; building refuses `<visit>`.
-/
theorem shunning_refusals :
    shunning.Refuses (Graph.Leads shunning.successors) "trip" ∧
      ¬ shunning.Refuses shunning.Leads "trip" ∧ shunning.Refuses shunning.Leads "visit" := by
  have herrors : (parseLenient (P := ℚ) ⟨0⟩ shunningText none).2 = [] := by decide +kernel
  have hparse : parse ⟨0⟩ shunningText none = .ok shunning :=
    parse_eq_ok_iff.mpr (Prod.ext rfl herrors)
  have hscope : shunning.Identified := identified_of_parse (by simp) (by simp) hparse
  have hone : (0 : ℚ) < 1 := one_pos
  obtain ⟨hmatchTrip, hbuildTrip, -⟩ := refusals_of_matching_and_building (W := WithBot ℚ) hscope
    "trip" rfl hone ["home"] [] literally
  obtain ⟨-, hbuildVisit, -⟩ := refusals_of_matching_and_building (W := WithBot ℚ) hscope
    "visit" rfl hone ["home"] [] literally
  refine ⟨hmatchTrip.mp ⟨.unusable (.unbound "stop" "station"), ?_⟩, fun hrefuses => ?_,
    hbuildVisit.mp ⟨.unusable (.unbound "stop" "station"), ?_⟩⟩
  · exact eq_error_of_map_eq_error (by decide +kernel)
  · obtain ⟨refusal, hrefused⟩ := hbuildTrip.mpr hrefuses
    obtain ⟨automaton, hbuild, -⟩ := exists_of_toOption_map_eq_some
      (by decide +kernel : ((shunning.buildRaw "trip" 1 :
        Except _ (Automaton ℚ (WithBot ℚ))).map fun _ => ()).toOption = some ())
    rw [hbuild] at hrefused
    cases hrefused
  · exact eq_error_of_map_eq_error (by decide +kernel)

/--
An automaton of `<trip>` is built, and deducing from `<trip>` is refused for the unbound reference
of `<stop>`.
-/
theorem shunning_built_not_matched :
    parse ⟨0⟩ shunningText none = .ok shunning ∧
      (∃ automaton : Automaton ℚ (WithBot ℚ), shunning.buildRaw "trip" 1 = .ok automaton) ∧
      (shunning.deduce "trip" ["home"] [] literally : Except _ (Deduction (WithBot ℚ))) =
        .error (.unusable (.unbound "stop" "station")) := by
  have herrors : (parseLenient (P := ℚ) ⟨0⟩ shunningText none).2 = [] := by decide +kernel
  obtain ⟨automaton, hbuild, -⟩ := exists_of_toOption_map_eq_some
    (by decide +kernel : ((shunning.buildRaw "trip" 1 :
      Except _ (Automaton ℚ (WithBot ℚ))).map fun _ => ()).toOption = some ())
  refine ⟨parse_eq_ok_iff.mpr (Prod.ext rfl herrors), ⟨automaton, hbuild⟩, ?_⟩
  exact eq_error_of_map_eq_error (by decide +kernel)

end SpeechGrammar.Scope
