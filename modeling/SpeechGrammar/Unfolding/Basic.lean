import SpeechGrammar.Grammar.Basic

/-!
# Unfolding a rule

Unfolding replaces every reference of a rule by the rule it is bound to, down
to references to rules that are being unfolded already.  Those become returns
to the open rule.  A return is exact when nothing but the end of the open rule
can follow it; any other return makes an automaton accept more than the
grammar, and is reported.

A rule that cannot be used does not stop the unfolding.  It leaves a fault in
its place, and the first fault from left to right is what makes building fail.
-/

namespace SpeechGrammar

/-- A rule unfolded, as the pieces an automaton is wired from. -/
inductive Unfolding (P : Type) where
  | word (text : String)
  | sequence (items : List (Unfolding P))
  /-- The branches that can be taken, with their probabilities. -/
  | choice (branches : List (P × Unfolding P))
  /-- Copies in a row, of which those from place `least` on may be left out. -/
  | copies (least : Nat) (items : List (Unfolding P))
  /-- A piece repeated at least `least` times and without end. -/
  | loop (least : Nat) (body : Unfolding P)
  | tagged (body : Unfolding P) (tags : List Tag)
  | rule (target : Target) (body : Unfolding P)
  /-- A return to the open rule at a depth, counted from the outermost one. -/
  | recursion (depth : Nat) (name : String) (exact : Bool)
  | fault (reason : Unusable)
  deriving Inhabited

structure OpenRule where
  target : Target
  name : String
  deriving DecidableEq, Repr

/-- What happens while a rule is unfolded: returns that are not exact, up to the first fault. -/
structure Report where
  /-- The names of the open rules returned to, in order. -/
  inexact : List String := []
  fault? : Option Unusable := none
  deriving DecidableEq, Repr

namespace Report

/-- One report after another; nothing happens behind a fault. -/
def andThen (first second : Report) : Report :=
  match first.fault? with
  | some _ => first
  | none => ⟨first.inexact ++ second.inexact, second.fault?⟩

def times : Nat → Report → Report
  | 0, _ => {}
  | count + 1, report =>
      match report.fault? with
      | some _ => report
      | none => { inexact := report.inexact ++ (times count report).inexact }

end Report

namespace Unfolding

variable {P : Type}

mutual

/-- What happens in an unfolding, from left to right. -/
def report : Unfolding P → Report
  | .word _ => {}
  | .sequence items => reportOfItems items
  | .choice branches => reportOfBranches branches
  | .copies _ items => reportOfItems items
  | .loop least body => (body.report).times (max least 1)
  | .tagged body _ => body.report
  | .rule _ body => body.report
  | .recursion _ name exact => if exact then {} else { inexact := [name] }
  | .fault reason => { fault? := some reason }

def reportOfItems : List (Unfolding P) → Report
  | [] => {}
  | item :: items => item.report.andThen (reportOfItems items)

def reportOfBranches : List (P × Unfolding P) → Report
  | [] => {}
  | (_, body) :: branches => body.report.andThen (reportOfBranches branches)

end

/--
A number of copies in a row, where the last may differ from those before it.
Behind a fault in the first copy no others are met.
-/
def copiesOf (count : Nat) (early last : Unit → Unfolding P) : List (Unfolding P) :=
  match count with
  | 0 => []
  | 1 => [last ()]
  | count + 2 =>
      let copy := early ()
      if copy.report.fault?.isSome then [copy]
      else List.replicate (count + 1) copy ++ [last ()]

end Unfolding

namespace Expansion

variable {P : Type} [BranchWeight P]

mutual

/--
Unfold an expansion inside some open rules, outermost first.  At the end of
the expansion the open rules from depth `floor` on are at their end too.
-/
def unfold (follow : List OpenRule → Nat → Reference → Unfolding P)
    (opened : List OpenRule) (floor : Nat) : Expansion P → Unfolding P
  | .literal text => .word text
  | .reference link => follow opened floor link
  | .sequence items => .sequence (unfoldItems follow opened floor items)
  | .alternation branches => .choice (unfoldBranches follow opened floor branches)
  | .repetition body least (some most) =>
      .copies least (Unfolding.copiesOf (max most least)
        (fun _ => body.unfold follow opened opened.length)
        (fun _ => body.unfold follow opened floor))
  | .repetition body least none => .loop least (body.unfold follow opened opened.length)
  | .optional body => .copies 0 [body.unfold follow opened floor]
  | .tagged body tags => .tagged (body.unfold follow opened floor) tags

/-- Unfold the items of a sequence; only at its last item the end of the sequence is near. -/
def unfoldItems (follow : List OpenRule → Nat → Reference → Unfolding P)
    (opened : List OpenRule) (floor : Nat) : List (Expansion P) → List (Unfolding P)
  | [] => []
  | item :: items =>
      item.unfold follow opened (if items.isEmpty then floor else opened.length) ::
        unfoldItems follow opened floor items

def unfoldBranches (follow : List OpenRule → Nat → Reference → Unfolding P)
    (opened : List OpenRule) (floor : Nat) :
    List (Branch P (Expansion P)) → List (P × Unfolding P)
  | [] => []
  | ⟨_, probability, body⟩ :: branches =>
      if BranchWeight.isPositive probability then
        (probability, body.unfold follow opened floor) ::
          unfoldBranches follow opened floor branches
      else
        unfoldBranches follow opened floor branches

end

end Expansion

namespace Scope

variable {P : Type} [BranchWeight P]

/-- The fault of a reference that means no rule, blamed on the innermost open rule. -/
def unboundIn (opened : List OpenRule) (link : Reference) : Unusable :=
  .unbound ((opened.getLast?.map (·.name)).getD "") link.name

/--
Unfold a reference.  `room` is how many rules of the scope are not open.  A
rule that is not open takes up room, so where no room is left every rule of
the scope is open and the reference means none of them.
-/
def unfoldReference (scope : Scope P) :
    Nat → List OpenRule → Nat → Reference → Unfolding P
  | room, opened, floor, link =>
      match link.target? with
      | none => .fault (unboundIn opened link)
      | some target =>
          match opened.findIdx? (·.target == target), opened.find? (·.target == target) with
          | some depth, some rule => .recursion depth rule.name (decide (floor ≤ depth))
          | _, _ =>
              match scope.follow? target, room with
              | none, _ => .fault (unboundIn opened link)
              | some _, 0 => .fault (unboundIn opened link)
              | some rule, room + 1 =>
                  match rule.unusable? with
                  | some reason => .fault reason
                  | none =>
                      .rule target
                        (rule.body.unfold (scope.unfoldReference room)
                          (opened ++ [⟨target, rule.name⟩]) floor)

def unfoldPublic (scope : Scope P) (name : String) (languageWeight : P) :
    Except (Refusal P) (Unfolding P) := do
  if BranchWeight.isFinite languageWeight && BranchWeight.isPositive languageWeight then
    let (target, rule) ← scope.grammar.public name
    return scope.unfoldReference scope.ruleCount [] 0 ⟨rule.name, some target⟩
  else
    .error (.languageWeight languageWeight)

/-- The open rules returned to inexactly while a public rule is unfolded. -/
def overApproximated (scope : Scope P) (name : String) (languageWeight : P) : List String :=
  match scope.unfoldPublic name languageWeight with
  | .ok unfolding => unfolding.report.inexact
  | .error _ => []

end Scope

end SpeechGrammar
