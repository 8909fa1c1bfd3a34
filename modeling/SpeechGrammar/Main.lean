import SpeechGrammar.CommandLine.Run

/-!
# The program

The program reads its arguments and files, runs the command asked for, and
prints what comes of it.  Lines of input are answered one by one.
-/

namespace SpeechGrammar.CommandLine

def readFile (path : String) : IO (Except FileError ByteArray) := do
  try
    return .ok (← IO.FS.readBinFile path)
  catch error =>
    match error with
    | .noFileOrDirectory .. => return .error .notFound
    | error => return .error (.other (toString error))

def readFiles (paths : List String) : IO Files := do
  let found ← paths.mapM fun path => do return (path, ← readFile path)
  return fun path => (found.lookup path).getD (.error .notFound)

def report (failure : Failure) : IO UInt32 := do
  IO.eprint (Outcome.ofFailure "" failure).errors
  return 1

partial def readLine (input : IO.FS.Stream) (line : ByteArray) : IO ByteArray := do
  let byte ← input.read 1
  let line := line ++ byte
  if byte.isEmpty || byte.data.contains 10 then
    return line
  else
    readLine input line

/-- Answer lines of input until there are no more. -/
partial def converse (session : Session) : IO UInt32 := do
  let output ← IO.getStdout
  output.putStr prompt
  output.flush
  let line ← readLine (← IO.getStdin) .empty
  if line.isEmpty then
    return 0
  match session.answer line with
  | .error failure => report failure
  | .ok shown =>
      output.putStr shown
      converse session

def write (text : String) : Option String → IO UInt32
  | none => do
      IO.print text
      return 0
  | some path => do
      try
        IO.FS.writeFile path text
        return 0
      catch error =>
        match error with
        | .noFileOrDirectory .. => report (.file .notFound)
        | error => report (.file (.other (toString error)))

def execute (command : Command) : IO UInt32 := do
  let files ← readFiles command.inputs
  match command with
  | .build build =>
      match build.run files with
      | .error failure => report failure
      | .ok text => write text build.output?
  | .deduce deduce =>
      match deduce.start files with
      | .error failure => report failure
      | .ok session => converse session

def usage : String :=
  "usage: fsg FILE [-r RULE] [--raw] [--lw WEIGHT] [-o OUTPUT]\n" ++
    "       deduce FILE -r RULE [--tags JSON] [--vocab DIRECTORY --source NAME]\n"

end SpeechGrammar.CommandLine

open SpeechGrammar.CommandLine in
def main (arguments : List String) : IO UInt32 :=
  match command? arguments with
  | none => do
      IO.eprint usage
      return 2
  | some command => execute command
