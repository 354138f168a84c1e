import Recase.SchemaFile

/-!
# Reports

What is said about the recasing of a file.  A report is a list of lines that name their role; how a
role looks on the terminal is `ReportLine.text`, and warnings go to the error stream.
-/

namespace Recase

/-- What is done with the recased schema. -/
inductive Mode where
  /-- It is written to a file. -/
  | write
  /-- It is compared with the schema as it is. -/
  | check
  /-- It is printed. -/
  | stdout
  deriving DecidableEq, Repr

/-- One line of a report. -/
inductive ReportLine where
  | heading (name : String)
  | entry (key value : String)
  | item (text : String)
  | warning (text : String)
  | plain (text : String)
  | blank
  deriving DecidableEq, Repr

namespace ReportLine

/-- The line on the terminal, with its line feed. -/
def text : ReportLine → String
  | heading name => s!"{name}:\n"
  | entry key value => s!"{key}: {value}\n"
  | item text => s!"  - {text}\n"
  | warning text => s!"warning: {text}\n"
  | plain text => s!"{text}\n"
  | blank => "\n"

def isWarning : ReportLine → Bool
  | warning _ => true
  | _ => false

end ReportLine

/-- What was done with a schema file. -/
structure Report where
  schema : Path
  /-- The file that the recased schema is written to. -/
  target : Path
  mode : Mode
  /-- Whether every change is listed. -/
  verbose : Bool
  recasing : Recasing
  /-- What became of the target, if it was to be written. -/
  written : Option WriteOutcome
  deriving DecidableEq, Repr

namespace Report

/-- The number of changes, in words. -/
def changeCount (r : Report) : String :=
  match r.recasing.changes.length with
  | 1 => "1 change"
  | n => s!"{n} changes"

/-- The changes, if they are listed and there are any. -/
def changeLines (r : Report) : List ReportLine :=
  if r.verbose && !r.recasing.changes.isEmpty then
    .heading "Changes" :: r.recasing.changes.map fun c => .item c.describe
  else []

/-- The result. -/
def resultLines (r : Report) : List ReportLine :=
  match r.mode with
  | .check =>
    if r.recasing.changed then
      [.warning s!"{r.schema} is not camelCase ({r.changeCount})",
        .plain "Run `prisma-camel <schema>` to fix."]
    else [.plain s!"✓ {r.schema} is already camelCase"]
  | .write =>
    if r.written = some .written then
      [.plain s!"✓ Converted {r.schema} ({r.changeCount}), wrote {r.target}"]
    else [.plain s!"{r.target} is already up to date"]
  | .stdout => []

/-- The lines of the report. -/
def lines (r : Report) : List ReportLine :=
  .entry "Schema" (toString r.schema) :: r.changeLines ++ .blank :: r.resultLines

end Report

/-- Recases a schema file and, in the mode for it, writes the result to the target. -/
def SchemaFile.recase {m : Type → Type} [Monad m] [FileSystem m] (file : SchemaFile) (target : Path)
    (mode : Mode) (verbose : Bool) : m (Except SchemaError Report) := do
  let recasing := file.recasing
  let report (written : Option WriteOutcome) : Report :=
    { schema := file.path, target, mode, verbose, recasing, written }
  match mode with
  | .write => return (← save target recasing.output).map fun outcome => report (some outcome)
  | .check | .stdout => return .ok (report none)

/-- Reads the schema at a path and recases it. -/
def recaseAt {m : Type → Type} [Monad m] [FileSystem m] (schema target : Path) (mode : Mode)
    (verbose : Bool) : m (Except SchemaError Report) := do
  match ← SchemaFile.load schema with
  | .error e => return .error e
  | .ok file => file.recase target mode verbose

/-! ### On a directory tree -/

/-- Only in the mode for it is anything written. -/
theorem SchemaFile.run_recase_of_ne_write (file : SchemaFile) (target : Path) {mode : Mode}
    (verbose : Bool) (h : mode ≠ .write) (t : FileTree) :
    (file.recase target mode verbose : StateM FileTree _).run t =
      pure (.ok ⟨file.path, target, mode, verbose, file.recasing, none⟩, t) := by
  cases mode with
  | write => exact absurd rfl h
  | check => rfl
  | stdout => rfl

theorem SchemaFile.run_recase_write (file : SchemaFile) (target : Path) (verbose : Bool)
    {t t' : FileTree} {r : Except SchemaError WriteOutcome}
    (h : (save target file.recasing.output : StateM FileTree _).run t = pure (r, t')) :
    (file.recase target .write verbose : StateM FileTree _).run t =
      pure (r.map fun outcome =>
        ⟨file.path, target, .write, verbose, file.recasing, some outcome⟩, t') := by
  simp [recase, h]

end Recase
