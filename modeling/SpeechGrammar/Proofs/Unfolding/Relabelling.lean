import SpeechGrammar.Automaton.Wiring
import SpeechGrammar.Proofs.Expansion.Everywhere
import SpeechGrammar.Proofs.Grammar.Relabelling
import SpeechGrammar.Proofs.Unfolding.Exact
import SpeechGrammar.Proofs.Unfolding.Parts

/-!
# Unfolding relabelled scopes

Where rules are followed as in another scope but for a change of targets, they
are unfolded alike: only the targets of unfolded rules are changed.  What is
reported of an unfolding, and how it is wired, does not depend on those, so the
automata are the same.
-/

namespace SpeechGrammar

variable {P W : Type}

namespace Unfolding

mutual

def relabel (change : Target → Target) : Unfolding P → Unfolding P
  | .word text => .word text
  | .sequence items => .sequence (relabelItems change items)
  | .choice branches => .choice (relabelBranches change branches)
  | .copies least items => .copies least (relabelItems change items)
  | .loop least body => .loop least (body.relabel change)
  | .tagged body tags => .tagged (body.relabel change) tags
  | .rule target body => .rule (change target) (body.relabel change)
  | .recursion depth name exact => .recursion depth name exact
  | .fault reason => .fault reason

def relabelItems (change : Target → Target) : List (Unfolding P) → List (Unfolding P)
  | [] => []
  | item :: items => item.relabel change :: relabelItems change items

def relabelBranches (change : Target → Target) :
    List (P × Unfolding P) → List (P × Unfolding P)
  | [] => []
  | (probability, body) :: branches =>
      (probability, body.relabel change) :: relabelBranches change branches

end

theorem relabelItems_eq_map (change : Target → Target) (items : List (Unfolding P)) :
    relabelItems change items = items.map (·.relabel change) := by
  induction items with
  | nil => rfl
  | cons item items ih => rw [relabelItems, ih, List.map_cons]

mutual

theorem report_relabel (change : Target → Target) (unfolding : Unfolding P) :
    (unfolding.relabel change).report = unfolding.report := by
  match unfolding with
  | .word _ => rfl
  | .sequence items => exact reportOfItems_relabel change items
  | .choice branches => exact reportOfBranches_relabel change branches
  | .copies _ items => exact reportOfItems_relabel change items
  | .loop least body =>
      exact congrArg (Report.times (max least 1)) (report_relabel change body)
  | .tagged body _ => exact report_relabel change body
  | .rule _ body => exact report_relabel change body
  | .recursion _ _ _ => rfl
  | .fault _ => rfl

theorem reportOfItems_relabel (change : Target → Target) (items : List (Unfolding P)) :
    reportOfItems (relabelItems change items) = reportOfItems items := by
  match items with
  | [] => rfl
  | item :: items =>
      rw [relabelItems, reportOfItems, reportOfItems, report_relabel change item,
        reportOfItems_relabel change items]

theorem reportOfBranches_relabel (change : Target → Target)
    (branches : List (P × Unfolding P)) :
    reportOfBranches (relabelBranches change branches) = reportOfBranches branches := by
  match branches with
  | [] => rfl
  | (_, body) :: branches =>
      rw [relabelBranches, reportOfBranches, reportOfBranches, report_relabel change body,
        reportOfBranches_relabel change branches]

end

section Wiring

variable [BranchWeight P] [LogWeight W] [Logarithm P W]

mutual

/-- How an unfolding is wired does not depend on targets. -/
theorem wire_relabel (change : Target → Target) (languageWeight : P) (opened : List Doors)
    (tags : TagSet) (next : Nat) (unfolding : Unfolding P) :
    ((unfolding.relabel change).wire languageWeight opened tags next : Piece W) =
      unfolding.wire languageWeight opened tags next := by
  match unfolding with
  | .word _ => rfl
  | .sequence [] => rfl
  | .sequence (item :: items) =>
      rw [relabel, relabelItems, wire, wire,
        wire_relabel change languageWeight opened tags next item,
        wireItems_relabel change languageWeight opened tags _ _ items]
  | .choice branches =>
      rw [relabel, wire, wire,
        wireBranches_relabel change languageWeight opened tags _ _ _ branches]
  | .copies least items =>
      rw [relabel, wire, wire, wireCopies_relabel change languageWeight opened tags _ _ _ _ items]
  | .loop least body =>
      have hbody : (fun next => (body.relabel change).wire languageWeight opened tags next) =
          fun next => (body.wire languageWeight opened tags next : Piece W) :=
        funext fun next => wire_relabel change languageWeight opened tags next body
      rw [relabel, wire, wire, hbody]
  | .tagged body extra => exact wire_relabel change languageWeight opened _ next body
  | .rule _ body =>
      rw [relabel, wire, wire, wire_relabel change languageWeight _ tags _ body]
  | .recursion _ _ _ => rfl
  | .fault _ => rfl

theorem wireItems_relabel (change : Target → Target) (languageWeight : P) (opened : List Doors)
    (tags : TagSet) (last next : Nat) (items : List (Unfolding P)) :
    (wireItems languageWeight opened tags last next (relabelItems change items) : Piece W) =
      wireItems languageWeight opened tags last next items := by
  match items with
  | [] => rfl
  | item :: items =>
      rw [relabelItems, wireItems, wireItems,
        wire_relabel change languageWeight opened tags next item,
        wireItems_relabel change languageWeight opened tags _ _ items]

theorem wireBranches_relabel (change : Target → Target) (languageWeight : P)
    (opened : List Doors) (tags : TagSet) (first last next : Nat)
    (branches : List (P × Unfolding P)) :
    (wireBranches languageWeight opened tags first last next (relabelBranches change branches) :
      Piece W) = wireBranches languageWeight opened tags first last next branches := by
  match branches with
  | [] => rfl
  | (_, body) :: branches =>
      rw [relabelBranches, wireBranches, wireBranches,
        wire_relabel change languageWeight opened tags next body,
        wireBranches_relabel change languageWeight opened tags _ _ _ branches]

theorem wireCopies_relabel (change : Target → Target) (languageWeight : P) (opened : List Doors)
    (tags : TagSet) (bypass required last next : Nat) (items : List (Unfolding P)) :
    (wireCopies languageWeight opened tags bypass required last next (relabelItems change items) :
      Piece W) = wireCopies languageWeight opened tags bypass required last next items := by
  match items with
  | [] => rfl
  | item :: items =>
      rw [relabelItems, wireCopies, wireCopies,
        wire_relabel change languageWeight opened tags next item,
        wireCopies_relabel change languageWeight opened tags _ _ _ _ items]

end

theorem automaton_relabel (change : Target → Target) (name : String) (languageWeight : P)
    (unfolding : Unfolding P) :
    ((unfolding.relabel change).automaton name languageWeight : Automaton P W) =
      unfolding.automaton name languageWeight := by
  rw [automaton, automaton, wire_relabel]

end Wiring

theorem copiesOf_relabel (change : Target → Target) (count : Nat)
    (early last : Unit → Unfolding P) :
    copiesOf count (fun _ => (early ()).relabel change) (fun _ => (last ()).relabel change) =
      (copiesOf count early last).map (·.relabel change) := by
  match count with
  | 0 => rfl
  | 1 => rfl
  | count + 2 =>
      rw [copiesOf, copiesOf, report_relabel]
      split
      · rfl
      · rw [List.map_append, List.map_replicate, List.map_singleton]

end Unfolding

/-! ## Unfolding -/

def OpenRule.relabel (change : Target → Target) (rule : OpenRule) : OpenRule :=
  { rule with target := change rule.target }

section Unfold

variable [BranchWeight P] {change : Target → Target}

/-- An expansion with relabelled references is unfolded alike if its references are. -/
theorem Expansion.unfold_relabel {follow others : List OpenRule → Nat → Reference → Unfolding P}
    {opened : List OpenRule}
    (hfollow : ∀ floor link, others (opened.map (OpenRule.relabel change)) floor
      (link.relabel change) = (follow opened floor link).relabel change)
    (floor : Nat) (expansion : Expansion P) :
    (expansion.mapReferences (Reference.relabel change)).unfold others
      (opened.map (OpenRule.relabel change)) floor =
        (expansion.unfold follow opened floor).relabel change := by
  induction expansion using Expansion.structural generalizing floor with
  | literal text => rfl
  | reference link => exact hfollow floor link
  | sequence items ih =>
      rw [mapReferences, unfold, unfold, Unfolding.relabel]
      refine congrArg Unfolding.sequence ?_
      induction items with
      | nil => rfl
      | cons item items ihItems =>
          obtain ⟨ihItem, ihRest⟩ := List.forall_mem_cons.mp ih
          have hend : (mapReferencesOfItems (Reference.relabel change) items).isEmpty =
              items.isEmpty := by
            rw [mapReferencesOfItems_eq_map, List.isEmpty_map]
          rw [mapReferencesOfItems, unfoldItems, unfoldItems, Unfolding.relabelItems, hend,
            List.length_map, ihItem, ihItems ihRest]
  | alternation branches ih =>
      rw [mapReferences, unfold, unfold, Unfolding.relabel]
      refine congrArg Unfolding.choice ?_
      induction branches with
      | nil => rfl
      | cons branch branches ihBranches =>
          obtain ⟨ihBranch, ihRest⟩ := List.forall_mem_cons.mp ih
          rw [mapReferencesOfBranches, unfoldBranches, unfoldBranches, ihBranch, ihBranches ihRest]
          split
          · rfl
          · rfl
  | repetition body least most? ih =>
      cases most? with
      | none =>
          rw [mapReferences, unfold, unfold, List.length_map, ih, Unfolding.relabel]
      | some most =>
          rw [mapReferences, unfold, unfold, List.length_map, ih, ih, Unfolding.relabel,
            Unfolding.relabelItems_eq_map, ← Unfolding.copiesOf_relabel]
  | optional body ih =>
      rw [mapReferences, unfold, unfold, ih]
      rfl
  | tagged body tags ih =>
      rw [mapReferences, unfold, unfold, ih, Unfolding.relabel]

namespace Scope

theorem unboundIn_relabel (change : Target → Target) (opened : List OpenRule) (link : Reference) :
    unboundIn (opened.map (OpenRule.relabel change)) (link.relabel change) =
      unboundIn opened link := by
  rw [unboundIn, unboundIn, List.getLast?_map, Option.map_map]
  rfl

variable {scope other : Scope P}

/-- In a relabelled scope references are unfolded alike. -/
theorem Relabels.unfoldReference_eq (hrelabels : Relabels change scope other) (room : Nat)
    (opened : List OpenRule) (floor : Nat) (link : Reference) :
    other.unfoldReference room (opened.map (OpenRule.relabel change)) floor
      (link.relabel change) = (scope.unfoldReference room opened floor link).relabel change := by
  induction room using Nat.strongRecOn generalizing opened floor link with
  | ind room ih =>
      have hbound : (link.relabel change).target? = link.target?.map change := rfl
      unfold unfoldReference
      rw [hbound]
      cases link.target? with
      | none => exact congrArg Unfolding.fault (unboundIn_relabel change opened link)
      | some target =>
          have hsame : (fun rule : OpenRule => rule.target == change target) ∘
              OpenRule.relabel change = fun rule => rule.target == target := by
            funext rule
            rw [Bool.eq_iff_iff, beq_iff_eq, Function.comp_apply, beq_iff_eq]
            exact hrelabels.injective.eq_iff
          rw [Option.map_some]
          dsimp only
          rw [List.findIdx?_map, List.find?_map, hsame, hrelabels.follow?_eq, unboundIn_relabel]
          cases hfound : opened.find? (·.target == target) with
          | some rule =>
              have hmem := List.mem_of_find?_eq_some hfound
              have htarget := List.find?_some hfound
              have hopen : (opened.findIdx? (·.target == target)).isSome = true :=
                List.findIdx?_isSome.trans (List.any_eq_true.mpr ⟨rule, hmem, htarget⟩)
              obtain ⟨depth, hdepth⟩ := Option.isSome_iff_exists.mp hopen
              rw [hdepth]
              rfl
          | none =>
              have hclosed : opened.findIdx? (·.target == target) = none := by
                rw [List.findIdx?_eq_none_iff]
                exact fun rule hrule => by simpa using List.find?_eq_none.mp hfound rule hrule
              rw [hclosed]
              dsimp only [Option.map_none]
              cases scope.follow? target with
              | none => rfl
              | some rule =>
                  cases room with
                  | zero => rfl
                  | succ room =>
                      dsimp only [Option.map_some]
                      rw [Rule.unusable?_relabel]
                      cases rule.unusable? with
                      | some reason => rfl
                      | none =>
                          have hfollow := ih room (Nat.lt_succ_self room)
                            (opened ++ [⟨target, rule.name⟩])
                          have hbody := Expansion.unfold_relabel hfollow floor rule.body
                          rw [List.map_append] at hbody
                          exact congrArg (Unfolding.rule (change target)) hbody

theorem Relabels.unfoldPublic_eq (hrelabels : Relabels change scope other) (name : String)
    (languageWeight : P) :
    other.unfoldPublic name languageWeight =
      (scope.unfoldPublic name languageWeight).map (Unfolding.relabel change) := by
  rw [unfoldPublic, unfoldPublic]
  split
  · rw [hrelabels.public_eq, hrelabels.ruleCount_eq]
    cases scope.grammar.public name with
    | error refusal => rfl
    | ok found =>
        exact congrArg Except.ok
          (hrelabels.unfoldReference_eq scope.ruleCount [] 0 ⟨found.2.name, some found.1⟩)
  · rfl

/-- The automata of a relabelled scope are the same. -/
theorem Relabels.buildRaw_eq [LogWeight W] [Logarithm P W] (hrelabels : Relabels change scope other)
    (name : String) (languageWeight : P) :
    (other.buildRaw name languageWeight : Except (Refusal P) (Automaton P W)) =
      scope.buildRaw name languageWeight := by
  have hname : other.automatonName name = scope.automatonName name := by
    rw [automatonName, automatonName, hrelabels.name?_eq]
  rw [buildRaw, buildRaw, hrelabels.unfoldPublic_eq, hname]
  cases scope.unfoldPublic name languageWeight with
  | error refusal => rfl
  | ok unfolding =>
      dsimp only [bind, Except.bind, Except.map]
      rw [Unfolding.report_relabel, Unfolding.automaton_relabel]

end Scope

end Unfold

end SpeechGrammar
