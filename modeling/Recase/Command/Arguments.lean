import Recase.Command

/-!
# Arguments

The argument list of the program is read from left to right, and the first fault refuses it.

* `Argument` — the form of one argument, before it is known which flags there are;
* `Given` — what was given so far;
* `Invocation.parse` — a command, a request for shell completions, or a `Refusal`.

A word is checked only when the next one or a known flag is taken, or at the end of the list: a flag
that is unknown, or a word too many, is reported before an empty word.
-/

namespace Recase

/-- Why an argument list is not run. -/
inductive Refusal where
  | missingArgument
  /-- Flags that exclude each other, a flag given twice, or a word too many. -/
  | conflict
  | unknownArgument
  /-- A value for a flag that takes none. -/
  | unexpectedValue
  /-- An empty path, or a shell that is not known. -/
  | invalidValue
  | unknownSubcommand
  /-- Not a fault: the help text was asked for. -/
  | helpWanted
  /-- Not a fault: the version was asked for. -/
  | versionWanted
  deriving DecidableEq, Repr

def Refusal.exitCode : Refusal → Nat
  | helpWanted | versionWanted => 0
  | _ => 2

/-! ### Forms of arguments -/

/-- One argument by its form. -/
inductive Argument where
  /-- Two dashes: only words follow. -/
  | escape
  /-- `--name` or `--name=value`. -/
  | long (name : Text) (value? : Option Text)
  /-- One dash and the letters of several flags. -/
  | short (letters : Text)
  | word (text : Text)
  deriving DecidableEq, Repr

def Argument.ofText : Text → Argument
  | ['-', '-'] => .escape
  | '-' :: '-' :: cs =>
    .long (cs.takeWhile (· != '='))
      (match cs.dropWhile (· != '=') with
        | [] => none
        | _ :: value => some value)
  | '-' :: c :: cs => .short (c :: cs)
  | cs => .word cs

/-- The flags of the program. -/
inductive Flag where
  | check
  | stdout
  | verbose
  | quiet
  | help
  | version
  deriving DecidableEq, Repr

namespace Flag

def all : List Flag := [check, stdout, verbose, quiet, help, version]

def longName : Flag → String
  | check => "check"
  | stdout => "stdout"
  | verbose => "verbose"
  | quiet => "quiet"
  | help => "help"
  | version => "version"

def letter? : Flag → Option Char
  | check | stdout => none
  | verbose => some 'v'
  | quiet => some 'q'
  | help => some 'h'
  | version => some 'V'

def ofLongName? (name : Text) : Option Flag := all.find? (·.longName.toList = name)

def ofLetter? (c : Char) : Option Flag := all.find? (·.letter? = some c)

end Flag

/-! ### Commands -/

/-- The flags and the words given so far. -/
structure Given where
  flags : List Flag := []
  words : List Text := []
  deriving DecidableEq, Repr

namespace Given

/-- A path is not empty. -/
def checkWords (g : Given) : Except Refusal Unit :=
  if g.words.any List.isEmpty then .error .invalidValue else .ok ()

def addFlag (g : Given) (flag : Flag) : Except Refusal Given := do
  g.checkWords
  match flag with
  | .help => throw .helpWanted
  | .version => throw .versionWanted
  | flag => if flag ∈ g.flags then throw .conflict else return { g with flags := flag :: g.flags }

def addLetters (g : Given) : Text → Except Refusal Given
  | [] => .ok g
  | c :: cs =>
    match Flag.ofLetter? c with
    | some flag => do (← g.addFlag flag).addLetters cs
    | none => .error .unknownArgument

/-- A schema and a target are taken, and no third word. -/
def addWord (g : Given) (word : Text) : Except Refusal Given := do
  if 2 ≤ g.words.length then throw .conflict
  g.checkWords
  return { g with words := g.words ++ [word] }

def addArgument (g : Given) : Argument → Except Refusal Given
  | .escape => .ok g
  | .long name value? =>
    match Flag.ofLongName? name with
    | none => .error .unknownArgument
    | some flag => if value?.isSome then .error .unexpectedValue else g.addFlag flag
  | .short letters => g.addLetters letters
  | .word text => g.addWord text

/-- Takes the arguments in turn; after two dashes every one is a word. -/
def addArguments (g : Given) (escaped : Bool) : List Text → Except Refusal Given
  | [] => .ok g
  | arg :: args =>
    if escaped then do (← g.addWord arg).addArguments true args
    else do
      let argument := Argument.ofText arg
      (← g.addArgument argument).addArguments (argument = .escape) args

/-- The command that was given.  Flags that exclude each other are reported before a missing
schema. -/
def toCommand (g : Given) : Except Refusal Command := do
  g.checkWords
  let given (flag : Flag) : Bool := g.flags.contains flag
  if given .check && given .stdout || given .verbose && given .quiet then throw .conflict
  match g.words with
  | [] => throw .missingArgument
  | schema :: rest =>
    return {
      schema := ⟨schema⟩
      output? := rest.head?.map Path.mk
      check := given .check
      stdout := given .stdout
      verbose := given .verbose
      quiet := given .quiet }

end Given

/-! ### Shell completions -/

/-- The shells for which completions can be made. -/
inductive Shell where
  | bash
  | elvish
  | fish
  | powershell
  | zsh
  deriving DecidableEq, Repr

namespace Shell

def name : Shell → String
  | bash => "bash"
  | elvish => "elvish"
  | fish => "fish"
  | powershell => "powershell"
  | zsh => "zsh"

def ofName? (s : Text) : Option Shell :=
  [bash, elvish, fish, powershell, zsh].find? (·.name.toList = s)

/-- The shell with the given name, if one was given. -/
def ofWord (word? : Option Text) : Except Refusal Shell :=
  match word? with
  | none => .error .missingArgument
  | some word =>
    match ofName? word with
    | some shell => .ok shell
    | none => .error .invalidValue

/-- The help text was asked for, after a word that is no shell or after none. -/
def refuseHelp (word? : Option Text) : Refusal :=
  if word?.any fun word => (ofName? word).isNone then .invalidValue else .helpWanted

/-- Reads the arguments of a request for completions: one shell, and no flag but that for help. -/
def parse (word? : Option Text) (escaped : Bool) : List Text → Except Refusal Shell
  | [] => ofWord word?
  | arg :: args =>
    match if escaped then .word arg else Argument.ofText arg with
    | .escape => parse word? true args
    | .word word => if word?.isSome then .error .unknownArgument else parse (some word) escaped args
    | .long name value? =>
      if name != Flag.help.longName.toList then .error .unknownArgument
      else if value?.isSome then .error .unexpectedValue
      else .error (refuseHelp word?)
    | .short letters =>
      if letters.head? = Flag.help.letter? then .error (refuseHelp word?)
      else .error .unknownArgument

end Shell

/-! ### Invocations -/

/-- What an argument list asks for. -/
inductive Invocation where
  | recase (command : Command)
  | completions (shell : Shell)
  deriving DecidableEq, Repr

namespace Invocation

/-- The words that are subcommands if they come first. -/
def subcommands : List Text := ["completions".toList, "help".toList]

/-- The answer to a request for help on the given subcommands; subcommands have none of their own. -/
def helpOn : List Text → Refusal
  | [] => .helpWanted
  | [name] => if name ∈ subcommands then .helpWanted else .unknownSubcommand
  | _ :: _ :: _ => .unknownSubcommand

/-- Reads an argument list. -/
def parse (args : List String) : Except Refusal Invocation :=
  match args with
  | "completions" :: rest => (Shell.parse none false (rest.map String.toList)).map .completions
  | "help" :: rest => .error (helpOn (rest.map String.toList))
  | args => do
    let given ← Given.addArguments {} false (args.map String.toList)
    return .recase (← given.toCommand)

end Invocation

end Recase
