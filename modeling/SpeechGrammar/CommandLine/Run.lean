import SpeechGrammar.Automaton.Closure
import SpeechGrammar.Automaton.Wiring
import SpeechGrammar.CommandLine.Options
import SpeechGrammar.Deduction.Basic
import SpeechGrammar.Grammar.Parsing
import SpeechGrammar.Grammar.Basic
import SpeechGrammar.Weight.Single

/-!
# Running commands

A command is run on the contents of the files it names, so that running it is
a function: of the files for the command that writes an automaton, of the
files and the lines of input for the command that matches utterances.
-/

namespace SpeechGrammar.CommandLine

/-- Why a file or a line of input cannot be used. -/
inductive FileError where
  | notFound
  | notText
  | other (message : String)
  deriving DecidableEq, Repr

def FileError.message : FileError → String
  | .notFound => "No such file or directory (os error 2)"
  | .notText => "stream did not contain valid UTF-8"
  | .other message => message

/-- Why a command fails. -/
inductive Failure where
  | file (error : FileError)
  | source (error : Source.SyntaxError)
  | noPublicRules (path : String)
  | tags (error : Assignment.ListError)
  | refused (refusal : Refusal Float32)

def Failure.message : Failure → String
  | .file error => error.message
  | .source error => error.message
  | .noPublicRules path => path ++ " has no public rules"
  | .tags error => error.message
  | .refused refusal => refusal.message

/-- What is found when a file is read. -/
abbrev Files := String → Except FileError ByteArray

/-- The text that bytes encode. -/
def decode (bytes : ByteArray) : Except FileError String :=
  match String.fromUTF8? bytes with
  | some text => .ok text
  | none => .error .notText

def readText (files : Files) (path : String) : Except Failure String :=
  (files path >>= decode).mapError .file

def readGrammar (files : Files) (path : String) : Except Failure (Scope Float32) := do
  let text ← readText files path
  (Scope.parse ⟨0⟩ text none).mapError .source

def joinPath (directory name : String) : String :=
  if name.startsWith "/" then name
  else if directory.endsWith "/" then directory ++ name
  else directory ++ "/" ++ name

/-- The file that holds a vocabulary. -/
def dictionaryPath (directory name : String) : String := joinPath directory (name ++ ".dict")

def Command.inputs : Command → List String
  | .build command => [command.file]
  | .deduce command =>
      match command.vocabulary? with
      | some (directory, name) => [command.file, dictionaryPath directory name]
      | none => [command.file]

/-- The rule to build: the one asked for, or the first public one. -/
def chooseRule (command : BuildCommand) (scope : Scope Float32) : Except Failure String :=
  match command.rule?, scope.grammar.firstPublic? with
  | some rule, _ => .ok rule
  | none, some rule => .ok rule.name
  | none, none => .error (.noPublicRules command.file)

/-- The text of the automaton that a command asks for. -/
def BuildCommand.run (command : BuildCommand) (files : Files) : Except Failure String := do
  let scope ← readGrammar files command.file
  let rule ← chooseRule command scope
  let weight : Float32 := BranchWeight.ofNumeral command.languageWeight
  let automaton : Automaton Float32 SingleLog ← (scope.buildRaw rule weight).mapError .refused
  return (if command.keepRaw then automaton else automaton.close).text

/-- What utterances are matched against. -/
structure Session where
  scope : Scope Float32
  rule : String
  assignments : List Assignment

def Session.deduce (session : Session) (utterance : String) :
    Except Failure (Deduction SingleLog) :=
  (session.scope.deduceText session.rule utterance session.assignments).mapError .refused

def withVocabulary (files : Files) (scope : Scope Float32) :
    Option (String × String) → Except Failure (Scope Float32)
  | none => .ok scope
  | some (directory, name) => do
      let dictionary ← readText files (dictionaryPath directory name)
      return { scope with grammar := (Vocabulary.load scope.grammar dictionary).1 }

def assignmentsIn : Option String → Except Failure (List Assignment)
  | none => .ok []
  | some text => (Assignment.parseList text).mapError .tags

/-- Prepare for matching; a rule that cannot be used is found out at once. -/
def DeduceCommand.start (command : DeduceCommand) (files : Files) : Except Failure Session := do
  let scope ← readGrammar files command.file
  let scope ← withVocabulary files scope command.vocabulary?
  let assignments ← assignmentsIn command.tags?
  let session : Session := ⟨scope, command.rule, assignments⟩
  let _ ← session.deduce ""
  return session

/-- What is printed before a line of input is read. -/
def prompt : String := "> "

def showDeduction (deduction : Deduction SingleLog) : List String :=
  let count := deduction.derivations.length
  ("Found " ++ toString count ++ " derivation" ++ (if count = 1 then "" else "s")) ::
    deduction.derivations.map (·.toJson.text) ++ [""]

/-- What is printed for a line of input. -/
def Session.answer (session : Session) (line : ByteArray) : Except Failure String := do
  let text ← (decode line).mapError .file
  let deduction ← session.deduce text
  return String.join ((showDeduction deduction).map (· ++ "\n"))

/-- What is printed for lines of input, and the failure that ends it early, if one does. -/
def Session.transcript (session : Session) : List ByteArray → String × Option Failure
  | [] => (prompt, none)
  | line :: lines =>
      match session.answer line with
      | .error failure => (prompt, some failure)
      | .ok shown =>
          let (later, failure?) := session.transcript lines
          (prompt ++ shown ++ later, failure?)

/-- The lines in some bytes, each with its line feed; bytes behind the last one count as a line. -/
def splitLines (bytes : List UInt8) : List (List UInt8) :=
  bytes.foldr
    (fun byte lines =>
      match byte == 10, lines with
      | false, line :: others => (byte :: line) :: others
      | _, _ => [byte] :: lines) []

/-- What a run of the program leaves behind. -/
structure Outcome where
  code : Nat
  printed : String := ""
  errors : String := ""
  /-- The file that is written, and its content. -/
  written? : Option (String × String) := none
  deriving Repr

def Outcome.ofFailure (printed : String) (failure : Failure) : Outcome :=
  { code := 1, printed, errors := "error: " ++ failure.message ++ "\n" }

def Command.run (files : Files) (input : List UInt8) : Command → Outcome
  | .build command =>
      match command.run files, command.output? with
      | .error failure, _ => .ofFailure "" failure
      | .ok text, none => { code := 0, printed := text }
      | .ok text, some path => { code := 0, written? := some (path, text) }
  | .deduce command =>
      match command.start files with
      | .error failure => .ofFailure "" failure
      | .ok session =>
          match session.transcript ((splitLines input).map fun line => ⟨line.toArray⟩) with
          | (printed, none) => { code := 0, printed }
          | (printed, some failure) => .ofFailure printed failure

end SpeechGrammar.CommandLine
