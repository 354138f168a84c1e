import Recase.Command.Arguments

/-!
# The program

The command line: reads the arguments, runs the command on the machine's file system and prints what
it leaves.
-/

namespace Recase

/-- The fault behind an error of the machine. -/
def FileFault.ofError : IO.Error → FileFault
  | .noFileOrDirectory .. => .noSuchEntry
  | .alreadyExists .. => .alreadyExists
  | .inappropriateType _ 20 _ => .notADirectory
  | .inappropriateType _ 21 _ => .isADirectory
  | e => .other (toString e)

/-- Runs the action and catches its error. -/
def attempt {α : Type} (action : IO α) : IO (Except FileFault α) := do
  try
    return .ok (← action)
  catch e =>
    return .error (.ofError e)

instance : FileSystem IO where
  pathExists p := do
    match ← attempt (IO.FS.Handle.mk p.toString .read) with
    | .error .noSuchEntry | .error .notADirectory => return false
    | _ => return true
  readText p := do
    match ← attempt (IO.FS.readBinFile p.toString) with
    | .error fault => return .error fault
    | .ok bytes =>
      match String.fromUTF8? bytes with
      | some text => return .ok text
      | none => return .error .notUtf8
  makeDirs p := attempt (IO.FS.createDirAll p.toString)
  writeText p text := attempt (IO.FS.writeFile p.toString text)

/-- How the program is called. -/
def usage : String :=
  "Usage: prisma-camel [--check | --stdout] [-v | -q] <SCHEMA> [OUTPUT]\n" ++
    "       prisma-camel completions <bash|elvish|fish|powershell|zsh>"

/-- What is said when an argument list is not run. -/
def Refusal.message : Refusal → String
  | missingArgument => "a required argument was not given"
  | conflict => "an argument cannot be used with those before it"
  | unknownArgument => "an argument is unknown"
  | unexpectedValue => "a flag takes no value"
  | invalidValue => "a value is not valid"
  | unknownSubcommand => "a subcommand is unknown"
  | helpWanted => usage
  | versionWanted => "prisma-camel 0.1.0"

/-- The words that a shell can offer. -/
def completionWords : List String := Flag.all.map ("--" ++ ·.longName)

/-- Runs the program and gives its exit code. -/
def runProgram (args : List String) : IO Nat := do
  match Invocation.parse args with
  | .error refusal =>
    if refusal.exitCode = 0 then IO.println refusal.message
    else IO.eprintln s!"error: {refusal.message}\n\n{usage}"
    return refusal.exitCode
  | .ok (.completions _) =>
    completionWords.forM fun word => IO.println word
    return 0
  | .ok (.recase command) =>
    let outcome ← command.run
    IO.print outcome.stdout
    IO.eprint outcome.stderr
    return outcome.exitCode

end Recase

def main (args : List String) : IO UInt32 := do
  return (← Recase.runProgram args).toUInt32
