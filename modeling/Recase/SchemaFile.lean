import Recase.Recasing
import Recase.File.System
import Recase.Text.Fold

/-!
# Schema files

A schema that was read from a file, and the three ways in which reading and writing schemas fails.
-/

namespace Recase

/-- Why a schema cannot be read or written. -/
inductive SchemaError where
  | notFound (path : Path)
  | unreadable (path : Path) (fault : FileFault)
  | unwritable (path : Path) (fault : FileFault)
  deriving DecidableEq, Repr

namespace SchemaError

def message : SchemaError → String
  | notFound path => s!"file not found: '{path}'"
  | unreadable path _ => s!"failed to read '{path}'"
  | unwritable path _ => s!"failed to write '{path}'"

/-- The name under which the error is documented. -/
def code : SchemaError → String
  | notFound _ => "prisma_camel::not_found"
  | unreadable _ _ => "prisma_camel::read_error"
  | unwritable _ _ => "prisma_camel::write_error"

/-- What to do about the error. -/
def help? : SchemaError → Option String
  | notFound _ => some "pass the path to an existing schema file, e.g. 'prisma/schema.prisma'"
  | unreadable _ _ => none
  | unwritable _ _ => some "check that the output directory is writable"

/-- The fault of the file system behind the error. -/
def fault? : SchemaError → Option FileFault
  | notFound _ => none
  | unreadable _ fault | unwritable _ fault => some fault

/-- The columns of a line of the message, its margin apart. -/
def messageWidth : Nat := 74

/-- The message in lines, a cross before the first and a bar before the others. -/
def messageLines (e : SchemaError) : List String :=
  match Text.fold messageWidth e.message.toList with
  | [] => []
  | first :: rest =>
    s!"  × {String.ofList first}" :: rest.map fun line => s!"  │ {String.ofList line}"

/-- The error as it is shown to the user. -/
def render (e : SchemaError) : String :=
  s!"{e.code}\n\n" ++ String.join (e.messageLines.map (· ++ "\n")) ++
    (e.fault?.map fun fault => s!"  ╰─▶ {fault.message}\n").getD "" ++
    (e.help?.map fun help => s!"  help: {help}\n").getD "" ++ "\n"

end SchemaError

/-- A schema and the file that it was read from. -/
structure SchemaFile where
  path : Path
  content : String
  deriving DecidableEq, Repr

namespace SchemaFile

/-- What the schema becomes. -/
def recasing (file : SchemaFile) : Recasing := recase file.content.toList

variable {m : Type → Type} [Monad m] [FileSystem m]

/-- Reads the schema at the path. -/
def load (path : Path) : m (Except SchemaError SchemaFile) := do
  if ← FileSystem.pathExists path then
    match ← FileSystem.readText path with
    | .ok content => return .ok ⟨path, content⟩
    | .error fault => return .error (.unreadable path fault)
  else return .error (.notFound path)

/-- Writes a schema to the path. -/
def save (path : Path) (schema : Text) : m (Except SchemaError WriteOutcome) := do
  return (← updateFile path (String.ofList schema)).mapError (.unwritable path)

/-! ### On a directory tree -/

theorem run_load (path : Path) (t : FileTree) :
    (load path : StateM FileTree _).run t =
      pure (if t.pathExists path then
          match t.readText path with
          | .ok content => .ok ⟨path, content⟩
          | .error fault => .error (.unreadable path fault)
        else .error (.notFound path), t) := by
  by_cases h : t.pathExists path
  · cases hr : t.readText path <;> simp [load, h, hr]
  · simp [load, h]

theorem run_save (path : Path) (schema : Text) {t t' : FileTree}
    {r : Except FileFault WriteOutcome}
    (h : (updateFile path (String.ofList schema) : StateM FileTree _).run t = pure (r, t')) :
    (save path schema : StateM FileTree _).run t = pure (r.mapError (.unwritable path), t') := by
  simp [save, h]

end SchemaFile

end Recase
