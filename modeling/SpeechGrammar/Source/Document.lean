import SpeechGrammar.Source.Body

/-!
# Reading a whole grammar text

A text starts with a header, whose parts may all be missing, and goes on with
rule definitions.  A definition that cannot be read is reported and reading
goes on behind the next semicolon: after a bad head counted from the start of
the definition, after a bad body counted from the start of the body.
-/

namespace SpeechGrammar.Source

structure Header where
  name? : Option String := none
  imports : List String := []
  deriving DecidableEq, Repr

def skipMark (text : List Char) : Except Failure (List Char) :=
  match dropStart? "#JSGF".toList text with
  | none => .ok text
  | some rest =>
      match Text.cutFirst? ';' rest with
      | some (_, after) => .ok after
      | none => failAt text (.expectedHeaderEnd (some '#'))

def nameDeclaration (text : List Char) : Except Failure (Taken (Option String)) :=
  match keyword? "grammar".toList text with
  | none => .ok (none, text)
  | some rest => do
      let (name, rest) ← grammarName (skipBlanks rest)
      let rest ← character ';' (skipBlanks rest)
      return (some (String.ofList name), rest)

def importDeclarations : Nat → List Char → Except Failure (Taken (List String))
  | 0, text => .ok ([], text)
  | allowance + 1, text =>
      let text := skipBlanks text
      match keyword? "import".toList text with
      | none => .ok ([], text)
      | some rest => do
          let (name, rest) ← bracketedName (skipBlanks rest)
          let rest ← character ';' (skipBlanks rest)
          let (others, rest) ← importDeclarations allowance rest
          return (String.ofList name :: others, rest)

def header (text : List Char) : Except Failure (Taken Header) := do
  let text ← skipMark (skipBlanks text)
  let (name?, text) ← nameDeclaration (skipBlanks text)
  let (imports, text) ← importDeclarations (text.length + 1) text
  return (⟨name?, imports⟩, text)

structure Head where
  isPublic : Bool
  name : String
  deriving DecidableEq, Repr

def head (text : List Char) : Except Failure (Taken Head) := do
  let after? := keyword? "public".toList text
  let (name, text) ← bracketedName (skipBlanks (after?.getD text))
  let name := String.ofList name
  if name = "NULL" ∨ name = "VOID" then
    failAt text (.reservedName name)
  else
    let text ← character '=' (skipBlanks text)
    return (⟨after?.isSome, name⟩, text)

inductive Statement (P : Type) where
  /-- A definition with a good head; `remaining` characters are left at its start. -/
  | definition (remaining : Nat) (head : Head) (body : Except Failure (Expansion P))
  /-- A definition whose head cannot be read. -/
  | malformed (failure : Failure)

/-- The text behind the next semicolon. -/
def recover (text : List Char) : List Char :=
  match Text.cutFirst? ';' text with
  | some (_, after) => after
  | none => []

variable {P : Type} [BranchWeight P]

/-- Read rule definitions to the end of the text, no more than an allowance. -/
def statements : Nat → List Char → List (Statement P)
  | 0, _ => []
  | allowance + 1, text =>
      let text := skipBlanks text
      if text.isEmpty then
        []
      else
        match head text with
        | .error failure => .malformed failure :: statements allowance (recover text)
        | .ok (found, rest) =>
            match body rest with
            | .ok (expansion, after) =>
                .definition text.length found (.ok expansion) :: statements allowance after
            | .error failure =>
                .definition text.length found (.error failure) ::
                  statements allowance (recover rest)

structure Document (P : Type) where
  header : Header
  statements : List (Statement P)

/-- Read a grammar text.  Only its header can make this fail. -/
def document (text : List Char) : Except Failure (Document P) := do
  let (header, rest) ← header text
  return ⟨header, statements (rest.length + 1) rest⟩

/-- Behind the next semicolon there is less text than before. -/
theorem length_recover_lt {text : List Char} (h : text ≠ []) :
    (recover text).length < text.length := by
  rw [recover]
  split
  · rename_i before after found
    obtain ⟨joined, _⟩ := Text.eq_append_of_cutFirst? found
    rw [joined]
    simp
    omega
  · simpa [List.length_pos_iff] using h

end SpeechGrammar.Source
