import SpeechGrammar.Proofs.Grammar.Integrity
import SpeechGrammar.Proofs.ExactProbability
import SpeechGrammar.Proofs.Source.Recovery

/-!
# Lenient readings never go back

The rules of a grammar that is read leniently and the errors that are reported
are those that come of the text, in the same order.  So if no semicolon had been
read before any failure, the errors are in the order of the text and no rule
comes from what had been read of a rule before its failure.  A semicolon in a
quoted word is enough to break both.
-/

namespace SpeechGrammar

open Source (Event Failure IsClear SyntaxError events eventsFrom failed? ruleStarts)

variable {P : Type}

namespace Draft

/-- A rule is kept if its name is not taken, and otherwise an error is. -/
theorem define_eq {draft : Draft P} (hindexed : draft.grammar.Indexed) (rule : Rule P)
    (duplicate : SyntaxError) :
    draft.define rule duplicate =
      if rule.name ∈ draft.grammar.ruleNames then
        { draft with errors := draft.errors ++ [duplicate] }
      else { draft with grammar := draft.grammar.push rule } := by
  rw [define]
  split
  · rename_i grammar hadd
    obtain ⟨hfree, rfl⟩ := hindexed.add?_eq_some_iff.mp hadd
    exact (if_neg hfree).symm
  · rename_i hnone
    refine (if_pos ?_).symm
    by_contra hfree
    cases hnone.symm.trans (hindexed.add?_eq_some_iff.mpr ⟨hfree, rfl⟩)

variable {text : List Char}

/-- What a statement adds to a draft is what comes of it. -/
structure Gains (text : List Char) (before after : Draft P) (events : List Event) : Prop where
  ruleNames : after.grammar.ruleNames = before.grammar.ruleNames ++ events.filterMap Event.rule?
  errors : after.errors =
    before.errors ++ (events.filterMap Event.failure?).map (Failure.locate text)

theorem Gains.trans {first second third : Draft P} {these those : List Event}
    (hthese : Gains text first second these) (hthose : Gains text second third those) :
    Gains text first third (these ++ those) := by
  constructor
  · rw [hthose.ruleNames, hthese.ruleNames, List.filterMap_append, List.append_assoc]
  · rw [hthose.errors, hthese.errors, List.filterMap_append, List.map_append, List.append_assoc]

theorem gains_error (draft : Draft P) (failure : Failure) :
    Gains text draft { draft with errors := draft.errors ++ [failure.locate text] }
      [.error failure] :=
  ⟨(List.append_nil _).symm, rfl⟩

theorem gains_define {draft : Draft P} (hindexed : draft.grammar.Indexed) (remaining : Nat)
    (head : Source.Head) (body : Expansion P) (defect? : Option SyntaxError) :
    Gains text draft
      (draft.define ⟨head.name, head.isPublic, body, [], defect?, false⟩
        (Failure.locate text ⟨remaining, .duplicateRule head.name⟩))
      [.ofHead draft.grammar.ruleNames remaining head] := by
  rw [define_eq hindexed, Event.ofHead]
  dsimp only
  split
  · exact gains_error draft _
  · exact ⟨Grammar.ruleNames_push _ _, (List.append_nil _).symm⟩

theorem gains_take (text : List Char) {draft : Draft P} (hindexed : draft.grammar.Indexed)
    (statement : Source.Statement P) :
    Gains text draft (draft.take text statement)
      (statement.events draft.grammar.ruleNames) := by
  match statement with
  | .malformed failure => exact gains_error draft failure
  | .definition remaining head (.ok body) => exact gains_define hindexed remaining head body none
  | .definition remaining head (.error failure) =>
      exact (gains_define hindexed remaining head .void (some (failure.locate text))).trans
        (gains_error _ failure)

theorem gains_foldl (text : List Char) {draft : Draft P} (hindexed : draft.grammar.Indexed)
    (list : List (Source.Statement P)) :
    Gains text draft (list.foldl (Draft.take text) draft)
      (eventsFrom draft.grammar.ruleNames list) := by
  induction list generalizing draft with
  | nil => exact ⟨(List.append_nil _).symm, (List.append_nil _).symm⟩
  | cons statement list ih =>
      have hfirst := gains_take text hindexed statement
      rw [List.foldl_cons, eventsFrom, ← hfirst.ruleNames]
      exact hfirst.trans
        (ih (holds_take (fun {_ _ _} hindexed => hindexed.add?) hindexed text statement))

/-- What is read of a text is what comes of it. -/
theorem gains_ofText [BranchWeight P] {empty : Grammar P} (hrules : empty.rules = [])
    (hbyName : empty.byName = ∅) :
    Gains text ⟨empty, []⟩ (ofText empty text) (events P text) := by
  rw [ofText, events]
  cases (Source.document text : Except Failure (Source.Document P)) with
  | error failure => exact gains_error ⟨empty, []⟩ failure
  | ok document =>
      have hnames : empty.ruleNames = [] := by rw [Grammar.ruleNames, hrules, List.map_nil]
      have hindexed : ({ empty with
          name? := document.header.name?, imports := document.header.imports } :
            Grammar P).Indexed := Grammar.indexed_of_rules_eq_nil hrules hbyName
      have hgains := @gains_foldl P text ⟨_, []⟩ hindexed document.statements
      change Gains _ _ _ (eventsFrom empty.ruleNames _) at hgains
      rw [hnames] at hgains
      exact ⟨hgains.ruleNames, hgains.errors⟩

end Draft

namespace Scope

variable [BranchWeight P]

/-- The rules and errors of a lenient reading are what comes of the text, in this order. -/
theorem parseLenient_eq_events (id : GrammarId) (text : String) (parent? : Option (Scope P)) :
    (parseLenient id text parent?).1.grammar.ruleNames =
        (events P text.toList).filterMap Event.rule? ∧
      (parseLenient id text parent?).2 =
        ((events P text.toList).filterMap Event.failure?).map (Failure.locate text.toList) := by
  have hgains : Draft.Gains text.toList ⟨(child id parent?).grammar, []⟩
      (Draft.ofText (child id parent?).grammar text.toList) (events P text.toList) :=
    Draft.gains_ofText rfl rfl
  refine ⟨?_, hgains.errors⟩
  rw [parseLenient, ruleNames_normalize, ruleNames_resolve]
  exact hgains.ruleNames

/--
If no semicolon had been read before the failure of any rule, counted from where a semicolon is
then looked for, a lenient reading never goes back: what comes of it, the rules and the errors,
is in the order of the text, and no rule starts within what had been read of a rule before its
failure.
-/
theorem parseLenient_inOrder (id : GrammarId) (text : String) (parent? : Option (Scope P))
    (hclear : ∀ start ∈ ruleStarts P text.toList, IsClear P start) :
    ((parseLenient id text parent?).1.grammar.ruleNames =
        (events P text.toList).filterMap Event.rule? ∧
      (parseLenient id text parent?).2 =
        ((events P text.toList).filterMap Event.failure?).map (Failure.locate text.toList)) ∧
    (events P text.toList).Pairwise Event.AtOrBefore ∧
    (parseLenient id text parent?).2.Pairwise SyntaxError.AtOrBefore ∧
    ∀ start ∈ ruleStarts P text.toList, ∀ failed ∈ failed? P start, ∀ name remaining,
      .rule name remaining ∈ events P text.toList →
        start.length ≤ remaining ∨ remaining ≤ failed.1.remaining := by
  have hread := parseLenient_eq_events id text parent?
  have horder := Source.pairwise_events hclear
  refine ⟨hread, horder, ?_, fun start hstart failed hfailed name remaining hevent =>
    Source.le_or_le_of_failed? hstart (hclear start hstart) hfailed hevent⟩
  rw [hread.2, List.pairwise_map, List.pairwise_filterMap]
  refine horder.imp fun hforward failure hfailure other hother => ?_
  obtain rfl := Event.failure?_eq_some_iff.mp hfailure
  obtain rfl := Event.failure?_eq_some_iff.mp hother
  exact Source.Failure.locate_atOrBefore hforward

def mendedText : String := "public <a> = x ); public <b> = y;\n<NULL> = z; public <b> = w;"

/--
Reading `mendedText` keeps two rules and reports three errors, all of them in the order of the text.
-/
theorem mended_inOrder :
    (∀ start ∈ ruleStarts ℚ mendedText.toList, IsClear ℚ start) ∧
      ((parseLenient (P := ℚ) ⟨0⟩ mendedText none).1.grammar.ruleNames = ["a", "b"] ∧
        (parseLenient (P := ℚ) ⟨0⟩ mendedText none).2 =
          [⟨1, 16, .strayParenthesis⟩, ⟨2, 7, .reservedName "NULL"⟩,
            ⟨2, 13, .duplicateRule "b"⟩]) ∧
      (events ℚ mendedText.toList).Pairwise Event.AtOrBefore ∧
      (parseLenient (P := ℚ) ⟨0⟩ mendedText none).2.Pairwise SyntaxError.AtOrBefore := by
  have hevents : (∀ start ∈ ruleStarts ℚ mendedText.toList, IsClear ℚ start) ∧
      (events ℚ mendedText.toList).filterMap Event.rule? = ["a", "b"] ∧
      ((events ℚ mendedText.toList).filterMap Event.failure?).map
          (Failure.locate mendedText.toList) =
        [⟨1, 16, .strayParenthesis⟩, ⟨2, 7, .reservedName "NULL"⟩,
          ⟨2, 13, .duplicateRule "b"⟩] := by
    decide +kernel
  obtain ⟨hclear, hrules, herrors⟩ := hevents
  obtain ⟨⟨hnames, hread⟩, hevents, horder, -⟩ := parseLenient_inOrder ⟨0⟩ mendedText none hclear
  exact ⟨hclear, ⟨hnames.trans hrules, hread.trans herrors⟩, hevents, horder⟩

def quotedRuleText : String := "public <a> = \"x; public <b> = y;\" ); public <c> = z;"

/--
Reading `quotedRuleText` adds `<b>` from inside the quoted word and reports the error at column 35
before the one at column 33.
-/
theorem quotedRule_goesBack :
    (parseLenient (P := ℚ) ⟨0⟩ quotedRuleText none).1.grammar.ruleNames = ["a", "b", "c"] ∧
    (parseLenient (P := ℚ) ⟨0⟩ quotedRuleText none).2 =
      [⟨1, 35, .strayParenthesis⟩, ⟨1, 33, .expectedCharacter '<' (some '"')⟩] ∧
    ¬(parseLenient (P := ℚ) ⟨0⟩ quotedRuleText none).2.Pairwise SyntaxError.AtOrBefore ∧
    ¬(events ℚ quotedRuleText.toList).Pairwise Event.AtOrBefore ∧
    ∃ start ∈ ruleStarts ℚ quotedRuleText.toList, ∃ failed ∈ failed? ℚ start, ∃ remaining,
      .rule "b" remaining ∈ events ℚ quotedRuleText.toList ∧
        failed.1.remaining < remaining ∧ remaining < start.length := by
  obtain ⟨hnames, hread⟩ := parseLenient_eq_events (P := ℚ) ⟨0⟩ quotedRuleText none
  have hevents : events ℚ quotedRuleText.toList =
      [.rule "a" 52, .error ⟨18, .strayParenthesis⟩, .rule "b" 35,
        .error ⟨20, .expectedCharacter '<' (some '"')⟩, .rule "c" 15] := by
    decide +kernel
  have hfailed : quotedRuleText.toList ∈ ruleStarts ℚ quotedRuleText.toList ∧
      (failed? ℚ quotedRuleText.toList).map Prod.fst = some ⟨18, .strayParenthesis⟩ := by
    decide +kernel
  obtain ⟨hstart, hfailed⟩ := hfailed
  obtain ⟨failed, hfound, hplace⟩ := Option.map_eq_some_iff.mp hfailed
  have herrors : (parseLenient (P := ℚ) ⟨0⟩ quotedRuleText none).2 =
      [⟨1, 35, .strayParenthesis⟩, ⟨1, 33, .expectedCharacter '<' (some '"')⟩] := by
    rw [hread, hevents]
    decide +kernel
  rw [hnames, hevents, herrors]
  refine ⟨rfl, rfl, by decide, by decide, _, hstart, failed, hfound, 35, by decide, ?_, by decide⟩
  rw [hplace]
  decide

end Scope

end SpeechGrammar
