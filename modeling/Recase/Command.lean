import Recase.Report

/-!
# The command

A command names a schema file, and says where the result goes and how much is reported.  Running it
gives an exit code and the texts on the two output streams.
-/

namespace Recase

/-- A command to recase a schema file. -/
structure Command where
  schema : Path
  /-- The file that the result is written to; the schema's own file if it is missing. -/
  output? : Option Path := none
  /-- Whether the schema is only checked. -/
  check : Bool := false
  /-- Whether the result is printed instead of written. -/
  stdout : Bool := false
  verbose : Bool := false
  quiet : Bool := false
  deriving DecidableEq, Repr

namespace Command

def mode (c : Command) : Mode :=
  if c.check then .check else if c.stdout then .stdout else .write

def target (c : Command) : Path := c.output?.getD c.schema

end Command

/-- What a command leaves on the terminal. -/
structure Outcome where
  exitCode : Nat
  stdout : String
  stderr : String
  deriving DecidableEq, Repr

namespace Outcome

/-- An error is shown on the error stream, quiet or not. -/
def ofError (e : SchemaError) : Outcome := ⟨1, "", e.render⟩

/-- The texts of the lines, one after the other. -/
def print (lines : List ReportLine) : String := String.join (lines.map ReportLine.text)

/-- The recased schema is printed alone; otherwise the report is, unless the command is quiet.  A
check fails if the schema would change. -/
def ofReport (c : Command) (r : Report) : Outcome :=
  let exitCode := if c.check && r.recasing.changed then 1 else 0
  if c.stdout then ⟨exitCode, String.ofList r.recasing.output, ""⟩
  else if c.quiet then ⟨exitCode, "", ""⟩
  else ⟨exitCode, print (r.lines.filter (!·.isWarning)), print (r.lines.filter (·.isWarning))⟩

end Outcome

namespace Command

/-- What the command says about the result of its run. -/
def outcome (c : Command) : Except SchemaError Report → Outcome
  | .ok report => .ofReport c report
  | .error e => .ofError e

/-- Runs the command. -/
def run {m : Type → Type} [Monad m] [FileSystem m] (c : Command) : m Outcome := do
  return c.outcome (← recaseAt c.schema c.target c.mode c.verbose)

end Command

end Recase
