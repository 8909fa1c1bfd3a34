import SpeechGrammar.Automaton.Basic
import SpeechGrammar.Unfolding.Basic

/-!
# Wiring automata

An unfolding is wired into states and transitions piece by piece.  Every piece
gets a first and a last state, states are numbered as they come up, and pieces
are joined by epsilon transitions.  A return to an open rule leads back to
that rule's first state; if it is not exact, that rule's last state leads on
behind the return.
-/

namespace SpeechGrammar

/-- A wired piece: where it starts and ends, the next free state, and its transitions. -/
structure Piece (W : Type) where
  first : Nat
  last : Nat
  next : Nat
  transitions : List (Transition W)

/-- The first and the last state of an open rule. -/
structure Doors where
  entry : Nat
  exit : Nat
  deriving DecidableEq, Repr

namespace Unfolding

variable {P W : Type} [BranchWeight P] [LogWeight W] [Logarithm P W]

def weighted (tags : TagSet) (source target : Nat) (weight : W) : Transition W :=
  ⟨source, target, none, weight, tags⟩

def epsilon (tags : TagSet) (source target : Nat) : Transition W :=
  weighted tags source target 0

mutual

/-- Wire a piece, numbering its states from `next` on. -/
def wire (languageWeight : P) (opened : List Doors) (tags : TagSet) (next : Nat) :
    Unfolding P → Piece W
  | .word text => ⟨next, next + 1, next + 2, [⟨next, next + 1, some text, 0, tags⟩]⟩
  | .sequence [] => ⟨next, next + 1, next + 2, [epsilon tags next (next + 1)]⟩
  | .sequence (item :: items) =>
      let head : Piece W := item.wire languageWeight opened tags next
      let tail := wireItems languageWeight opened tags head.last head.next items
      ⟨head.first, tail.last, tail.next, head.transitions ++ tail.transitions⟩
  | .choice branches =>
      let wired := wireBranches languageWeight opened tags next (next + 1) (next + 2) branches
      ⟨next, next + 1, wired.next, wired.transitions⟩
  | .copies least items =>
      let wired := wireCopies languageWeight opened tags (next + 1) least next (next + 2) items
      ⟨next, next + 1, wired.next,
        wired.transitions ++ [epsilon tags wired.last (next + 1)]⟩
  | .loop least body =>
      let wired := wireLoop (fun next => body.wire languageWeight opened tags next) tags
        (max least 1) next (next + 2)
      ⟨next, next + 1, wired.next,
        wired.transitions ++ epsilon tags wired.last (next + 1) ::
          (if least = 0 then [epsilon tags next (next + 1)] else [])⟩
  | .tagged body extra => body.wire languageWeight opened (tags.insertAll extra) next
  | .rule _ body =>
      let inner : Piece W :=
        body.wire languageWeight (opened ++ [⟨next, next + 1⟩]) tags (next + 2)
      ⟨next, next + 1, inner.next,
        inner.transitions ++ [epsilon tags next inner.first, epsilon tags inner.last (next + 1)]⟩
  | .recursion depth _ exact =>
      let doors := opened.getD depth ⟨next, next + 1⟩
      ⟨next, next + 1, next + 2,
        epsilon tags next doors.entry ::
          (if exact then [] else [epsilon tags doors.exit (next + 1)])⟩
  | .fault _ => ⟨next, next + 1, next + 2, []⟩

/-- Wire the later items of a sequence behind a state. -/
def wireItems (languageWeight : P) (opened : List Doors) (tags : TagSet) (last next : Nat) :
    List (Unfolding P) → Piece W
  | [] => ⟨last, last, next, []⟩
  | item :: items =>
      let head : Piece W := item.wire languageWeight opened tags next
      let tail := wireItems languageWeight opened tags head.last head.next items
      ⟨last, tail.last, tail.next,
        head.transitions ++ epsilon tags last head.first :: tail.transitions⟩

/-- Wire the branches of a choice between two states. -/
def wireBranches (languageWeight : P) (opened : List Doors) (tags : TagSet)
    (first last next : Nat) : List (P × Unfolding P) → Piece W
  | [] => ⟨first, last, next, []⟩
  | (probability, body) :: branches =>
      let head : Piece W := body.wire languageWeight opened tags next
      let tail := wireBranches languageWeight opened tags first last head.next branches
      ⟨first, last, tail.next,
        head.transitions ++
          weighted tags first head.first
            (Logarithm.scale languageWeight (Logarithm.ln probability)) ::
          epsilon tags head.last last :: tail.transitions⟩

/-- Wire copies in a row behind a state; `required` of them may not be left out. -/
def wireCopies (languageWeight : P) (opened : List Doors) (tags : TagSet) (bypass : Nat)
    (required last next : Nat) : List (Unfolding P) → Piece W
  | [] => ⟨last, last, next, []⟩
  | item :: items =>
      let head : Piece W := item.wire languageWeight opened tags next
      let tail := wireCopies languageWeight opened tags bypass (required - 1) head.last head.next
        items
      ⟨last, tail.last, tail.next,
        head.transitions ++ epsilon tags last head.first ::
          ((if required = 0 then [epsilon tags last bypass] else []) ++ tail.transitions)⟩

/-- Wire a number of copies in a row behind a state, the last of which may follow itself. -/
def wireLoop (body : Nat → Piece W) (tags : TagSet) : Nat → Nat → Nat → Piece W
  | 0, last, next => ⟨last, last, next, []⟩
  | count + 1, last, next =>
      let head := body next
      let tail := wireLoop body tags count head.last head.next
      ⟨last, tail.last, tail.next,
        head.transitions ++ epsilon tags last head.first ::
          ((if count = 0 then [epsilon tags head.last head.first] else []) ++ tail.transitions)⟩

end

/-- The automaton of an unfolded rule, from its first state to its last. -/
def automaton (name : String) (languageWeight : P) (unfolding : Unfolding P) : Automaton P W :=
  let piece : Piece W := unfolding.wire languageWeight [] .empty 0
  { name
    stateCount := piece.next
    start := piece.first
    finals := .singleton piece.last
    transitions := piece.transitions
    languageWeight }

end Unfolding

namespace Scope

variable {P W : Type} [BranchWeight P] [LogWeight W] [Logarithm P W]

def automatonName (scope : Scope P) (rule : String) : String :=
  match scope.grammar.name? with
  | some name => name ++ "." ++ rule
  | none => rule

/-- The automaton of a public rule as it is wired, epsilon transitions and all. -/
def buildRaw (scope : Scope P) (rule : String) (languageWeight : P) :
    Except (Refusal P) (Automaton P W) := do
  let unfolding ← scope.unfoldPublic rule languageWeight
  match unfolding.report.fault? with
  | some reason => .error (.unusable reason)
  | none => return unfolding.automaton (scope.automatonName rule) languageWeight

end Scope

end SpeechGrammar
