import SpeechGrammar.Proofs.ExactProbability
import SpeechGrammar.Proofs.Grammar.Renaming
import SpeechGrammar.Proofs.Printing.Document

/-!
# Reading what was printed

A grammar that was read from a text, printed, and read again under the same
parent is the same grammar, up to its identity.  Two things may come between:
the printer writes no escapes, so words and tags must not need any, and the
text of a weight must read back as the weight.
-/

namespace SpeechGrammar

open Expansion (Everywhere IsPartwise)
open Source (HasPlainTexts AllWeights Legible)

variable {P : Type} [BranchWeight P]

namespace Source

omit [BranchWeight P] in
theorem HasPlainTexts.of_partwise {change : Expansion P → Expansion P}
    (hchange : IsPartwise change) (part : Expansion P) (hplain : HasPlainTexts (change part)) :
    HasPlainTexts part := by
  cases part with
  | literal text => rwa [hchange.literal] at hplain
  | tagged body tags => rwa [hchange.tagged] at hplain
  | _ => trivial

omit [BranchWeight P] in
theorem AllWeights.of_partwise {good : P → Prop} {change : Expansion P → Expansion P}
    (hchange : IsPartwise change) (part : Expansion P) (hweights : AllWeights good (change part)) :
    AllWeights good part := by
  cases part with
  | alternation branches =>
      obtain ⟨share, heq⟩ := hchange.alternation branches
      rw [heq] at hweights
      exact List.forall_mem_map.mp hweights
  | _ => trivial

omit [BranchWeight P] in
theorem AllWeights.mp {good better : P → Prop} {part : Expansion P}
    (himp : AllWeights (fun weight => good weight → better weight) part)
    (hweights : AllWeights good part) : AllWeights better part := by
  cases part with
  | alternation branches =>
      exact fun branch hbranch weight hweight =>
        himp branch hbranch weight hweight (hweights branch hbranch weight hweight)
  | _ => trivial

end Source

namespace Scope

variable {scope : Scope P}

def finish (scope : Scope P) (body : Expansion P) : Expansion P :=
  (body.mapReferences scope.bindReference).withProbabilities shareOf

/-- Once it is bound a rule has its name and its flag, and its body is finished. -/
theorem getElem?_rules_finish (scope : Scope P) (index : Nat) :
    ∃ (unresolved : Rule P → List String) (isRecursive : Bool),
      scope.resolve.normalize.grammar.rules[index]? = scope.grammar.rules[index]?.map fun rule =>
        { rule with
          body := scope.finish rule.body, unresolved := unresolved rule, isRecursive } := by
  refine ⟨fun rule => (scope.bindRule rule).unresolved,
    { scope.grammar with
      rules := scope.grammar.rules.map scope.bindRule }.cyclicRules.contains index, ?_⟩
  simp only [normalize, Grammar.normalize, resolve, Grammar.markRecursive, List.getElem?_map,
    List.getElem?_mapIdx, Option.map_map]
  rfl

/-- What is printed of a scope's grammar is known before its references are bound. -/
theorem print_normalize_resolve (scope : Scope P) :
    scope.resolve.normalize.grammar.print = scope.grammar.print := by
  have hbody : ∀ body : Expansion P, (scope.finish body).print = body.print := by
    intro body
    rw [finish, Expansion.print_partwise (Expansion.isPartwise_withProbabilities shareOf)
      (fun link => rfl), Expansion.print_partwise
        (Expansion.isPartwise_mapReferences scope.bindReference) (fun link => rfl)]
  have hrules : Grammar.printRules scope.resolve.normalize.grammar.rules =
      Grammar.printRules scope.grammar.rules := by
    refine Grammar.printRules_congr (List.ext_getElem? fun index => ?_)
    obtain ⟨unresolved, isRecursive, hrule⟩ := scope.getElem?_rules_finish index
    rw [List.getElem?_map, List.getElem?_map, hrule, Option.map_map]
    refine congrArg (Option.map · scope.grammar.rules[index]?) (funext fun rule => ?_)
    change Rule.print _ = _
    rw [Rule.print_eq, Rule.print_eq, hbody]
  rw [Grammar.print_eq, Grammar.print_eq, hrules]
  rfl

/-- What holds everywhere in a scope's own bodies held before its references were bound. -/
theorem bodies_of_finish {good : Expansion P → Prop}
    (hback : ∀ {change : Expansion P → Expansion P}, IsPartwise change →
      ∀ part, good (change part) → good part)
    (hbodies : scope.resolve.normalize.grammar.Bodies (Everywhere good)) :
    scope.grammar.Bodies (Everywhere good) := by
  intro rule hrule
  obtain ⟨index, hindex⟩ := List.mem_iff_getElem?.mp hrule
  obtain ⟨unresolved, isRecursive, hfinish⟩ := scope.getElem?_rules_finish index
  rw [hindex] at hfinish
  have hfinished := hbodies _ (List.mem_of_getElem? hfinish)
  have hbind := hfinished.of_partwise (Expansion.isPartwise_withProbabilities shareOf)
    (hback (Expansion.isPartwise_withProbabilities shareOf))
  exact hbind.of_partwise (Expansion.isPartwise_mapReferences scope.bindReference)
    (hback (Expansion.isPartwise_mapReferences scope.bindReference))

theorem exists_isFromText_of_parse {id : GrammarId} {text : String} {parent? : Option (Scope P)}
    (hparse : parse id text parent? = .ok scope) :
    ∃ grammar : Grammar P, grammar.IsFromText ∧ grammar.id = id ∧
      scope = (⟨grammar, (child id parent?).parents⟩ : Scope P).resolve.normalize := by
  obtain ⟨rfl, herrors⟩ := Prod.mk.inj (parse_eq_ok_iff.mp hparse)
  exact ⟨_, Draft.isFromText_ofText rfl rfl rfl herrors, Draft.id_ofText _ _, rfl⟩

/-- The text of a grammar as it is read gives the grammar again, bound in its scope. -/
theorem parse_text {grammar : Grammar P} (hgrammar : grammar.IsFromText)
    (hlegible : grammar.Bodies Legible) (id : GrammarId) (parent? : Option (Scope P)) :
    parse id grammar.text parent? =
      .ok (⟨{ grammar with id }, (child id parent?).parents⟩ : Scope P).resolve.normalize := by
  have hdraft : Draft.ofText (child id parent?).grammar grammar.text.toList =
      ⟨{ grammar with id }, []⟩ := by
    rw [Grammar.text, String.toList_ofList]
    exact Draft.ofText_print hgrammar hlegible id
  rw [parse_eq_ok_iff, parseLenient, hdraft]

/--
Reading what was printed of a grammar that was read gives a copy of the grammar: the same name,
imports and rules in the same order, each with the same name, flags, unresolved names and body,
where references to the grammar's own rules mean those of the copy.  The weights must be finite
and read back as what they are, as the texts of finite numbers do; words must be bare, or hold a
blank and nothing to escape, as must tags.
-/
theorem parse_printed_eq_copy {id : GrammarId} {text : String} {parent? : Option (Scope P)}
    (hparse : parse id text parent? = .ok scope)
    (hfresh : ∀ parent ∈ parent?, parent.Fresh id) {other : GrammarId}
    (hother : ∀ parent ∈ parent?, parent.Fresh other)
    (htexts : scope.grammar.Bodies (Everywhere HasPlainTexts))
    (hfinite : scope.grammar.Bodies
      (Everywhere (AllWeights fun weight => BranchWeight.isFinite weight = true)))
    (hreads : scope.grammar.Bodies (Everywhere (AllWeights fun weight =>
      BranchWeight.isFinite weight = true → BranchWeight.ReadsBack weight))) :
    parse other scope.grammar.text parent? = .ok (scope.copy other) := by
  obtain ⟨grammar, hgrammar, rfl, rfl⟩ := exists_isFromText_of_parse hparse
  have hlegible : grammar.Bodies Legible := by
    intro rule hrule
    have hplain := bodies_of_finish Source.HasPlainTexts.of_partwise htexts rule hrule
    have hfinite := bodies_of_finish Source.AllWeights.of_partwise hfinite rule hrule
    have hreads := bodies_of_finish Source.AllWeights.of_partwise hreads rule hrule
    refine (((hgrammar.rules rule hrule).written.and hplain).and (hfinite.and hreads)).imp ?_
    rintro part ⟨⟨hwritten, hplain⟩, hfinite, hreads⟩
    exact ⟨hwritten, hplain, hreads.mp hfinite⟩
  have hparents : ∀ {id : GrammarId}, (∀ parent ∈ parent?, parent.Fresh id) →
      ∀ parent ∈ (child grammar.id parent?).parents, parent.id ≠ id := by
    intro id hfresh
    cases parent? with
    | none => exact fun _ hparent => nomatch hparent
    | some parent => exact hfresh parent rfl
  have htext : (⟨grammar, (child grammar.id parent?).parents⟩ :
      Scope P).resolve.normalize.grammar.text = grammar.text :=
    congrArg String.ofList (print_normalize_resolve _)
  rw [htext, parse_text hgrammar hlegible, ← normalize_copy,
    ← resolve_withId (hparents hfresh) (hparents hother)]
  rfl

def places : Scope ℚ := (parseLenient ⟨0⟩ "grammar places; public <home> = my house;" none).1

def travelText : String :=
  "grammar travel; import <places.*>;\n" ++
    "public <trip> = /0.25/ to \"new york\" \x7b goal : far \x7d | ((stay)|<home>? <trip>)+; // end"

def travel : Scope ℚ := (parseLenient ⟨1⟩ travelText (some places)).1

/-- The text of `travel` as it is printed; reading it gives a copy of `travel`. -/
theorem travel_printed :
    travel.grammar.text =
        "#JSGF V1.0;\ngrammar travel;\nimport <places.*>;\n" ++
          "public <trip> = (/0.250000000000/ (to \"new york\" \x7bgoal:far\x7d) | " ++
          "(stay | ([<home>] <trip>))+);\n" ∧
      parse ⟨2⟩ travel.grammar.text (some places) = .ok (travel.copy ⟨2⟩) := by
  obtain ⟨herrors, htext, htexts, hfinite, hreads⟩ :
      (parseLenient (P := ℚ) ⟨1⟩ travelText (some places)).2 = [] ∧
        travel.grammar.text =
          "#JSGF V1.0;\ngrammar travel;\nimport <places.*>;\n" ++
            "public <trip> = (/0.250000000000/ (to \"new york\" \x7bgoal:far\x7d) | " ++
            "(stay | ([<home>] <trip>))+);\n" ∧
        (∀ rule ∈ travel.grammar.rules, rule.body.Everywhere HasPlainTexts) ∧
        (∀ rule ∈ travel.grammar.rules, rule.body.Everywhere (AllWeights fun weight =>
          BranchWeight.isFinite weight = true)) ∧
        ∀ rule ∈ travel.grammar.rules, rule.body.Everywhere (AllWeights fun weight =>
          BranchWeight.isFinite weight = true → BranchWeight.ReadsBack weight) := by
    decide +kernel
  have hids : places.chain.map (·.id) = [⟨0⟩] := by decide +kernel
  have hfresh : ∀ id : GrammarId, id ≠ ⟨0⟩ → ∀ parent ∈ some places, parent.Fresh id := by
    intro id hid parent hparent grammar hgrammar
    rw [← Option.some.inj hparent] at hgrammar
    have hmem : grammar.id ∈ places.chain.map (·.id) := List.mem_map_of_mem hgrammar
    rw [hids, List.mem_singleton] at hmem
    rw [hmem]
    exact hid.symm
  have hparse : parse ⟨1⟩ travelText (some places) = .ok travel :=
    parse_eq_ok_iff.mpr (Prod.ext rfl herrors)
  exact ⟨htext, parse_printed_eq_copy hparse (hfresh ⟨1⟩ (by decide)) (hfresh ⟨2⟩ (by decide))
    htexts hfinite hreads⟩

end Scope

end SpeechGrammar
