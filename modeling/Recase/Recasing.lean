import Recase.Block
import Recase.Line
import Recase.Renaming

/-!
# Recasing a schema

A schema is recased in one pass over its lines.  What happens to a line depends on the line and on
the context that the lines before it leave behind; `recaseLine` is one step, `recaseLines` the
pass, and `recase` joins the lines and numbers the edits.

A renamed field gets an attribute that keeps the name of its column, unless it has one already or is
a relation.  A renamed model gets one that keeps the name of its table, on a line of its own before
the closing brace, unless such a line came earlier in the block.
-/

namespace Recase

/-! ### Contexts -/

/-- What is known about the model whose lines are being read. -/
structure ModelState where
  /-- The name in the heading, if it was renamed. -/
  oldName? : Option Text := none
  /-- Whether a line of the model names its table. -/
  tableNamed : Bool := false
  deriving DecidableEq, Repr

/-- Where a line stands. -/
inductive Context where
  | topLevel
  | model (state : ModelState)
  | enum
  | type
  | generator
  | datasource
  deriving DecidableEq, Repr

namespace Context

/-- The context after the heading of a block, with the block's name if it was renamed. -/
def enter (b : Block) (oldName? : Option Text) : Context :=
  match b with
  | .topLevel => topLevel
  | .model => model { oldName? }
  | .enum => enum
  | .type => type
  | .generator => generator
  | .datasource => datasource

/-- The block that the context belongs to. -/
def block : Context → Block
  | topLevel => .topLevel
  | model _ => .model
  | enum => .enum
  | type => .type
  | generator => .generator
  | datasource => .datasource

/-- The model that the context belongs to. -/
def modelState? : Context → Option ModelState
  | model state => some state
  | _ => none

end Context

/-! ### One line -/

/-- A line without the carriage return at its end, and the carriage return. -/
def splitReturn (raw : Text) : Text × Text :=
  if raw.getLast? = some '\r' then (raw.dropLast, ['\r']) else (raw, [])

/-- What a line becomes. -/
structure RecasedLine where
  /-- A line put above it. -/
  above : Option Text
  line : Text
  edits : List Edit
  /-- The context of the next line. -/
  next : Context
  deriving DecidableEq, Repr

namespace RecasedLine

/-- The line as it was. -/
def keep (raw : Text) (next : Context) : RecasedLine := ⟨none, raw, [], next⟩

/-- The lines of the result. -/
def lines (r : RecasedLine) : List Text := r.above.toList ++ [r.line]

end RecasedLine

/-- The heading of a block: a name in snake_case is renamed. -/
def recaseHeading (b : Block) (line eol : Text) : RecasedLine :=
  match b.headingKind?, Heading.parse? line with
  | some kind, some heading =>
    if Name.isSnake heading.name then
      let edit : Edit := ⟨kind, heading.name⟩
      ⟨none, heading.lead ++ edit.result ++ heading.trail ++ eol, [edit],
        .enter b (some heading.name)⟩
    else .keep (line ++ eol) (.enter b none)
  | _, _ => .keep (line ++ eol) (.enter b none)

/-- The closing brace of a block: a model that was renamed and does not name its table gets a line
that does. -/
def recaseClosing (ctx : Context) (line eol : Text) : RecasedLine :=
  match ctx with
  | .model { oldName? := some name, tableNamed := false } =>
    let edit : Edit := ⟨.modelMap, name⟩
    ⟨some (line.indent ++ [' ', ' '] ++ edit.result ++ eol), line ++ eol, [edit], .topLevel⟩
  | _ => .keep (line ++ eol) .topLevel

/-- A field whose name is renamed. -/
def recaseField (field : FieldDecl) (eol : Text) (next : Context) : RecasedLine :=
  let edit : Edit := ⟨.field, field.name⟩
  let tail := FieldTail.recase field.tail
  if tail.namesColumn || tail.isRelation then
    ⟨none, field.indent ++ edit.result ++ tail.text ++ eol, edit :: tail.edits, next⟩
  else
    ⟨none, field.indent ++ edit.result ++ tail.textNamingColumn field.name ++ eol,
      edit :: tail.edits ++ [⟨.fieldMap, field.name⟩], next⟩

/-- A line of a model. -/
def recaseModelLine (state : ModelState) (line eol : Text) : RecasedLine :=
  if namesTable line then .keep (line ++ eol) (.model { state with tableNamed := true })
  else if listsFields line then
    let list := FieldList.recase line
    ⟨none, list.text ++ eol, list.edits, .model state⟩
  else match FieldDecl.parse? line with
    | none => .keep (line ++ eol) (.model state)
    | some field =>
      if Name.isSnake field.name then recaseField field eol (.model state)
      else
        let tail := FieldTail.recase field.tail
        ⟨none, field.indent ++ field.name ++ tail.text ++ eol, tail.edits, .model state⟩

/-- A line of a composite type: only fields in snake_case are touched. -/
def recaseTypeLine (line eol : Text) : RecasedLine :=
  match FieldDecl.parse? line with
  | none => .keep (line ++ eol) .type
  | some field =>
    if Name.isSnake field.name then recaseField field eol .type else .keep (line ++ eol) .type

/-- What a line becomes in a context.  A brace on its own closes whatever block is open; a heading
is one only at the top level. -/
def recaseLine (ctx : Context) (raw : Text) : RecasedLine :=
  let (line, eol) := splitReturn raw
  if line.trim = ['}'] then recaseClosing ctx line eol
  else match ctx with
    | .topLevel =>
      match Block.ofHeading? line.trim with
      | some b => recaseHeading b line eol
      | none => .keep raw ctx
    | .model state => recaseModelLine state line eol
    | .type => recaseTypeLine line eol
    | .enum | .generator | .datasource => .keep raw ctx

/-! ### All lines -/

/-- What the lines become, one after the other. -/
def recaseLines (ctx : Context) : List Text → List RecasedLine
  | [] => []
  | line :: lines => recaseLine ctx line :: recaseLines (recaseLine ctx line).next lines

/-- The context that the lines leave behind. -/
def contextAfter (ctx : Context) (lines : List Text) : Context :=
  lines.foldl (fun ctx line => (recaseLine ctx line).next) ctx

/-- A schema and what it becomes, with the changes in the order in which they were made. -/
structure Recasing where
  input : Text
  output : Text
  changes : List Change
  deriving DecidableEq, Repr

/-- Whether the text changed. -/
def Recasing.changed (c : Recasing) : Bool := c.output != c.input

/-- The edits of the lines, numbered from `first`. -/
def numberEdits (first : Nat) : List RecasedLine → List Change
  | [] => []
  | r :: rs => r.edits.map (⟨first, ·⟩) ++ numberEdits (first + 1) rs

/-- The schema in camelCase. -/
def recase (schema : Text) : Recasing :=
  let recased := recaseLines .topLevel (schema.split '\n')
  { input := schema
    output := Text.join '\n' (recased.flatMap RecasedLine.lines)
    changes := numberEdits 1 recased }

/-! ### Lines one after the other -/

@[simp] theorem length_recaseLines (ctx : Context) (lines : List Text) :
    (recaseLines ctx lines).length = lines.length := by
  induction lines generalizing ctx with
  | nil => rfl
  | cons line lines ih => simp [recaseLines, ih]

theorem recaseLines_append (ctx : Context) (as bs : List Text) :
    recaseLines ctx (as ++ bs) = recaseLines ctx as ++ recaseLines (contextAfter ctx as) bs := by
  induction as generalizing ctx with
  | nil => rfl
  | cons a as ih => simp [recaseLines, contextAfter, ih]

theorem numberEdits_append (first : Nat) (rs ss : List RecasedLine) :
    numberEdits first (rs ++ ss) = numberEdits first rs ++ numberEdits (first + rs.length) ss := by
  induction rs generalizing first with
  | nil => rfl
  | cons r rs ih => simp [numberEdits, ih, Nat.add_comm, Nat.add_left_comm]

end Recase
