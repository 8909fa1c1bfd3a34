import SpeechGrammar.Decimal.Numeral

/-!
# Command line arguments

There are two commands, each with one file and some options.  An option is
written with two dashes and its name or with one dash and its letter; its
value follows behind an equals sign, as the next argument, or directly behind
the letter.  Two dashes alone end the options.  Every option may be given once.
-/

namespace SpeechGrammar.CommandLine

structure OptionKind where
  name : String
  letter? : Option Char := none
  takesValue : Bool := true
  deriving DecidableEq, Repr

structure Arguments where
  options : List (String × String) := []
  others : List String := []
  deriving Repr

namespace Arguments

def withOption (arguments : Arguments) (kind : OptionKind) (value : String) : Arguments :=
  { arguments with options := (kind.name, value) :: arguments.options }

def withOther (arguments : Arguments) (other : String) : Arguments :=
  { arguments with others := other :: arguments.others }

def value? (arguments : Arguments) (name : String) : Option String :=
  (arguments.options.find? (·.1 == name)).map (·.2)

def areDistinct (arguments : Arguments) : Bool :=
  (arguments.options.map (·.1)).Nodup

end Arguments

/-- What an argument looks like. -/
inductive Shape where
  | other
  | endOfOptions
  /-- A name behind two dashes, and the value behind an equals sign. -/
  | named (name : String) (value? : Option String)
  /-- A letter behind one dash, and the value right behind it. -/
  | lettered (letter : Char) (value? : Option String)
  deriving DecidableEq, Repr

/-- The text before the first equals sign, and the text behind it if there is one. -/
def cutAtEquals : List Char → List Char × Option (List Char)
  | [] => ([], none)
  | '=' :: rest => ([], some rest)
  | char :: rest =>
      let (before, after?) := cutAtEquals rest
      (char :: before, after?)

/-- Tell options from other arguments. -/
def shapeOf (argument : String) : Shape :=
  match argument.toList with
  | ['-', '-'] => .endOfOptions
  | '-' :: '-' :: rest =>
      let (name, value?) := cutAtEquals rest
      .named (String.ofList name) (value?.map String.ofList)
  | ['-', letter] => .lettered letter none
  | '-' :: letter :: '=' :: value => .lettered letter (some (String.ofList value))
  | '-' :: letter :: value => .lettered letter (some (String.ofList value))
  | _ => .other

/-- The option that an argument gives, with the value it holds itself. -/
def kindOf? (kinds : List OptionKind) : Shape → Option (OptionKind × Option String)
  | .named name value? => (kinds.find? (·.name == name)).map fun kind => (kind, value?)
  | .lettered letter value? =>
      (kinds.find? (·.letter? == some letter)).map fun kind => (kind, value?)
  | _ => none

/-- Sort arguments into options and others, if every option is known and has its value. -/
def scan? (kinds : List OptionKind) : List String → Option Arguments
  | [] => some {}
  | argument :: rest =>
      match shapeOf argument with
      | .endOfOptions => some { others := rest }
      | .other => (scan? kinds rest).map (·.withOther argument)
      | shape =>
          match kindOf? kinds shape with
          | none => none
          | some (kind, some value) =>
              if kind.takesValue then (scan? kinds rest).map (·.withOption kind value) else none
          | some (kind, none) =>
              if kind.takesValue then
                match rest with
                | [] => none
                | value :: rest =>
                    if shapeOf value = .other then
                      (scan? kinds rest).map (·.withOption kind value)
                    else
                      none
              else
                (scan? kinds rest).map (·.withOption kind "")

structure BuildCommand where
  file : String
  rule? : Option String := none
  keepRaw : Bool := false
  languageWeight : Numeral := .finite false 1 0
  output? : Option String := none
  deriving DecidableEq, Repr

structure DeduceCommand where
  file : String
  rule : String
  tags? : Option String := none
  /-- The directory and the name of a vocabulary. -/
  vocabulary? : Option (String × String) := none
  deriving DecidableEq, Repr

inductive Command where
  | build (command : BuildCommand)
  | deduce (command : DeduceCommand)
  deriving DecidableEq, Repr

def path? (text : String) : Option String := if text.isEmpty then none else some text

/-- The only other argument, as a path. -/
def onlyFile? (arguments : Arguments) : Option String :=
  match arguments.others with
  | [file] => path? file
  | _ => none

/-- A value that need not be given, but must be right if it is. -/
def optionally? {α : Type} (read? : String → Option α) : Option String → Option (Option α)
  | none => some none
  | some text => (read? text).map some

def buildOptions : List OptionKind :=
  [⟨"rule", some 'r', true⟩, ⟨"raw", none, false⟩, ⟨"lw", none, true⟩,
    ⟨"output", some 'o', true⟩]

def deduceOptions : List OptionKind :=
  [⟨"rule", some 'r', true⟩, ⟨"tags", none, true⟩, ⟨"vocab", none, true⟩,
    ⟨"source", none, true⟩]

def buildCommand? (rest : List String) : Option Command := do
  let arguments ← scan? buildOptions rest
  guard arguments.areDistinct
  let file ← onlyFile? arguments
  let weight? ← optionally? (fun text => Numeral.ofText? text.toList) (arguments.value? "lw")
  let output? ← optionally? path? (arguments.value? "output")
  return .build
    { file
      rule? := arguments.value? "rule"
      keepRaw := (arguments.value? "raw").isSome
      languageWeight := weight?.getD (.finite false 1 0)
      output? }

/-- The directory and the name of a vocabulary, which are given together or not at all. -/
def vocabulary? : Option String → Option String → Option (Option (String × String))
  | none, none => some none
  | some directory, some name => some (some (directory, name))
  | _, _ => none

def deduceCommand? (rest : List String) : Option Command := do
  let arguments ← scan? deduceOptions rest
  guard arguments.areDistinct
  let file ← onlyFile? arguments
  let rule ← arguments.value? "rule"
  let directory? ← optionally? path? (arguments.value? "vocab")
  let vocabulary? ← vocabulary? directory? (arguments.value? "source")
  return .deduce { file, rule, tags? := arguments.value? "tags", vocabulary? }

def command? : List String → Option Command
  | "fsg" :: rest => buildCommand? rest
  | "deduce" :: rest => deduceCommand? rest
  | _ => none

end SpeechGrammar.CommandLine
