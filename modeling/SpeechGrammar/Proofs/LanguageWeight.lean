import SpeechGrammar.Proofs.Automaton.Scaling
import SpeechGrammar.Proofs.Grammar.Linking
import SpeechGrammar.Proofs.Unfolding.Routes
import SpeechGrammar.Proofs.Unfolding.WellFormed

/-!
# The language weight only scales

How a rule is unfolded does not depend on the language weight, and wiring an
unfolding uses it only to scale the logarithms of probabilities.  So automata
built with a language weight are the ones built with one, scaled, and their
scores are scaled with them.
-/

namespace SpeechGrammar

variable {P W : Type} [ExactBranchWeight P] [ExactWeight W] [ExactScaling P W]

def Piece.scaled (languageWeight : P) (piece : Piece W) : Piece W :=
  { piece with
    transitions := piece.transitions.map (·.mapWeight (Logarithm.scale languageWeight)) }

namespace Unfolding

omit [ExactBranchWeight P] [ExactWeight W] [ExactScaling P W] in
theorem mapWeight_weighted (change : W → W) (tags : TagSet) (source target : Nat) (weight : W) :
    (weighted tags source target weight).mapWeight change =
      weighted tags source target (change weight) :=
  rfl

theorem mapWeight_epsilon (languageWeight : P) (tags : TagSet) (source target : Nat) :
    (epsilon tags source target : Transition W).mapWeight (Logarithm.scale languageWeight) =
      epsilon tags source target := by
  rw [epsilon, weighted, Transition.mapWeight, ExactLogarithm.scale_zero]

theorem wireLoop_scaled (languageWeight : P) {body unit : Nat → Piece W}
    (hbody : ∀ next, body next = (unit next).scaled languageWeight) (tags : TagSet)
    (count last next : Nat) :
    wireLoop (P := P) body tags count last next =
      (wireLoop (P := P) unit tags count last next).scaled languageWeight := by
  induction count generalizing last next with
  | zero => rfl
  | succ count ih =>
      rw [wireLoop, wireLoop, hbody, ih]
      split <;> simp [Piece.scaled, mapWeight_epsilon]

mutual

/-- An unfolding is wired as with the language weight one, and scaled. -/
theorem wire_scaled (languageWeight : P) (opened : List Doors) (tags : TagSet) (next : Nat)
    (unfolding : Unfolding P) :
    (unfolding.wire languageWeight opened tags next : Piece W) =
      (unfolding.wire 1 opened tags next).scaled languageWeight := by
  match unfolding with
  | .word text =>
      rw [wire, wire]
      simp [Piece.scaled, Transition.mapWeight, ExactLogarithm.scale_zero]
  | .sequence [] =>
      rw [wire, wire]
      simp [Piece.scaled, mapWeight_epsilon]
  | .sequence (item :: items) =>
      rw [wire, wire, wire_scaled languageWeight opened tags next item, wireItems_scaled]
      simp [Piece.scaled]
  | .choice branches =>
      rw [wire, wire, wireBranches_scaled]
      rfl
  | .copies least items =>
      rw [wire, wire, wireCopies_scaled]
      simp [Piece.scaled, mapWeight_epsilon]
  | .loop least body =>
      rw [wire, wire, wireLoop_scaled languageWeight
        fun next => wire_scaled languageWeight opened tags next body]
      split <;> simp [Piece.scaled, mapWeight_epsilon]
  | .tagged body extra => exact wire_scaled languageWeight opened _ next body
  | .rule _ body =>
      rw [wire, wire, wire_scaled languageWeight _ tags _ body]
      simp [Piece.scaled, mapWeight_epsilon]
  | .recursion _ _ exact =>
      rw [wire, wire]
      split <;> simp [Piece.scaled, mapWeight_epsilon]
  | .fault _ => rfl

theorem wireItems_scaled (languageWeight : P) (opened : List Doors) (tags : TagSet)
    (last next : Nat) (items : List (Unfolding P)) :
    (wireItems languageWeight opened tags last next items : Piece W) =
      (wireItems 1 opened tags last next items).scaled languageWeight := by
  match items with
  | [] => rfl
  | item :: items =>
      rw [wireItems, wireItems, wire_scaled languageWeight opened tags next item, wireItems_scaled]
      simp [Piece.scaled, mapWeight_epsilon]

theorem wireBranches_scaled (languageWeight : P) (opened : List Doors) (tags : TagSet)
    (first last next : Nat) (branches : List (P × Unfolding P)) :
    (wireBranches languageWeight opened tags first last next branches : Piece W) =
      (wireBranches 1 opened tags first last next branches).scaled languageWeight := by
  match branches with
  | [] => rfl
  | (probability, body) :: branches =>
      rw [wireBranches, wireBranches, wire_scaled languageWeight opened tags next body,
        wireBranches_scaled]
      simp [Piece.scaled, mapWeight_epsilon, mapWeight_weighted, ExactScaling.scale_one]

theorem wireCopies_scaled (languageWeight : P) (opened : List Doors) (tags : TagSet)
    (bypass required last next : Nat) (items : List (Unfolding P)) :
    (wireCopies languageWeight opened tags bypass required last next items : Piece W) =
      (wireCopies 1 opened tags bypass required last next items).scaled languageWeight := by
  match items with
  | [] => rfl
  | item :: items =>
      rw [wireCopies, wireCopies, wire_scaled languageWeight opened tags next item,
        wireCopies_scaled]
      split <;> simp [Piece.scaled, mapWeight_epsilon]

end

theorem automaton_scaled (name : String) (languageWeight : P) (unfolding : Unfolding P) :
    (unfolding.automaton name languageWeight : Automaton P W) =
      (unfolding.automaton name 1).scaled languageWeight := by
  rw [automaton, automaton, wire_scaled]
  rfl

end Unfolding

namespace Scope

open Automaton (close_scaled score?_scaled text_scaled)

variable {scope : Scope P} {rule : String} {languageWeight : P}

/-- A rule is built, or refused, as with the language weight one, and scaled. -/
theorem buildRaw_scaled (hfinite : BranchWeight.isFinite languageWeight = true)
    (hpositive : 0 < languageWeight) :
    (scope.buildRaw rule languageWeight : Except (Refusal P) (Automaton P W)) =
      (scope.buildRaw rule 1).map (·.scaled languageWeight) := by
  have hunit : BranchWeight.isFinite (1 : P) = true := ExactScaling.isFinite_one W
  rw [buildRaw, buildRaw, unfoldPublic_eq_map rule hfinite hpositive,
    unfoldPublic_eq_map rule hunit zero_lt_one]
  cases scope.grammar.public rule with
  | error refusal => rfl
  | ok found =>
      dsimp only [Except.map, bind, Except.bind]
      split
      · rfl
      · exact congrArg Except.ok (Unfolding.automaton_scaled _ languageWeight _)

omit [ExactWeight W] [ExactScaling P W] in
theorem usable_of_buildRaw_eq_ok [LogWeight W] [Logarithm P W] {automaton : Automaton P W}
    (hbuild : scope.buildRaw rule languageWeight = .ok automaton) :
    BranchWeight.isFinite languageWeight = true ∧ 0 < languageWeight ∧
      automaton.languageWeight = languageWeight := by
  rw [buildRaw, unfoldPublic] at hbuild
  split at hbuild
  · rename_i hlanguage
    obtain ⟨hfinite, hpositive⟩ := Bool.and_eq_true_iff.mp hlanguage
    refine ⟨hfinite, of_decide_eq_true hpositive, ?_⟩
    cases hpublic : scope.grammar.public rule with
    | error refusal =>
        rw [hpublic] at hbuild
        cases hbuild
    | ok found =>
        rw [hpublic] at hbuild
        dsimp only [bind, Except.bind, pure, Except.pure] at hbuild
        split at hbuild
        · cases hbuild
        · obtain rfl := Except.ok.inj hbuild
          rfl
  · cases hbuild

/--
The language weight only scales.  The automata built of a rule with a language
weight, closed and not, are those built with the language weight one, with each
log weight multiplied; so scores are multiplied, and texts are the same.
-/
theorem languageWeight_scales (hscope : scope.Prepared) {automaton : Automaton P W}
    (hbuild : scope.buildRaw rule languageWeight = .ok automaton) :
    ∃ unit : Automaton P W, scope.buildRaw rule 1 = .ok unit ∧
      automaton = unit.scaled languageWeight ∧
      automaton.close = unit.close.scaled languageWeight ∧
      (∀ tokens, automaton.score? tokens =
        (unit.score? tokens).map (Logarithm.scale languageWeight)) ∧
      (∀ tokens, automaton.close.score? tokens =
        (unit.close.score? tokens).map (Logarithm.scale languageWeight)) ∧
      automaton.text = unit.text ∧ automaton.close.text = unit.close.text := by
  obtain ⟨hfinite, hpositive, -⟩ := usable_of_buildRaw_eq_ok hbuild
  rw [buildRaw_scaled hfinite hpositive] at hbuild
  cases hunit : (scope.buildRaw rule 1 : Except (Refusal P) (Automaton P W)) with
  | error refusal =>
      rw [hunit] at hbuild
      cases hbuild
  | ok unit =>
      rw [hunit] at hbuild
      obtain rfl := Except.ok.inj hbuild
      have hwf := wellFormed_of_buildRaw_eq_ok hscope hunit
      have hone : unit.languageWeight = 1 := (usable_of_buildRaw_eq_ok hunit).2.2
      refine ⟨unit, rfl, rfl, close_scaled hpositive unit, score?_scaled hwf hpositive, ?_,
        text_scaled hpositive hone, ?_⟩
      · rw [close_scaled hpositive]
        exact score?_scaled hwf.close hpositive
      · rw [close_scaled hpositive]
        exact text_scaled hpositive hone

def answeringText : String :=
  "public <answer> = /3/ yes [please] | /1/ no <thanks>+; <thanks> = thanks;"

def answering : Scope ℚ := (parseLenient ⟨0⟩ answeringText none).1

/--
With the language weight 2 the scores of `<answer>` are twice those with the language weight 1, and
the texts of the automata are equal.
-/
theorem answering_scales : ∃ doubled unit : Automaton ℚ (WithBot ℚ),
    answering.buildRaw "answer" 2 = .ok doubled ∧ answering.buildRaw "answer" 1 = .ok unit ∧
      (∀ tokens, doubled.close.score? tokens =
        (unit.close.score? tokens).map (Logarithm.scale (2 : ℚ))) ∧
      doubled.close.text = unit.close.text := by
  have herrors : (parseLenient (P := ℚ) ⟨0⟩ answeringText none).2 = [] := by decide +kernel
  have hparse : parse ⟨0⟩ answeringText none = .ok answering :=
    parse_eq_ok_iff.mpr (Prod.ext rfl herrors)
  have hscope : answering.Prepared := prepared_of_parse (by simp) hparse
  obtain ⟨doubled, hbuild, -⟩ := exists_of_toOption_map_eq_some
    (by decide +kernel : ((answering.buildRaw "answer" 2 :
      Except _ (Automaton ℚ (WithBot ℚ))).map fun _ => ()).toOption = some ())
  obtain ⟨unit, hunit, -, -, -, hscore, -, htext⟩ := languageWeight_scales hscope hbuild
  exact ⟨doubled, unit, hbuild, hunit, hscore, htext⟩

end Scope

end SpeechGrammar
