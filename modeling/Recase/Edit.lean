import Recase.Name

/-!
# Edits

Recasing a schema makes two kinds of edits: a name is written in another casing, or an attribute
is added that keeps the database's name.  Kind and name determine the new text (`Edit.result`), so
the log needs no more than these two and the number of the line.
-/

namespace Recase

/-- What was edited. -/
inductive EditKind where
  /-- The name of a model, in its heading. -/
  | model
  /-- The name of an enum, in its heading. -/
  | enum
  /-- The name of a composite type, in its heading. -/
  | type
  /-- The name of a field, where it is declared. -/
  | field
  /-- A name in the place of a field's type. -/
  | typeReference
  /-- Any other name in a field's tail, or a name in a list of fields. -/
  | fieldReference
  /-- An attribute added to a field, with the name of its column. -/
  | fieldMap
  /-- An attribute added to a model, with the name of its table. -/
  | modelMap
  deriving DecidableEq, Repr

namespace EditKind

/-- The words for the kind in messages. -/
def label : EditKind → String
  | model => "model"
  | enum => "enum"
  | type => "type"
  | field => "field"
  | typeReference => "type reference"
  | fieldReference => "field reference"
  | fieldMap => "field map"
  | modelMap => "model map"

/-- The casing that a renamed name of this kind gets; none if nothing is renamed. -/
def casing? : EditKind → Option Casing
  | model | typeReference => some .pascal
  | enum | type | field | fieldReference => some .camel
  | fieldMap | modelMap => none

end EditKind

/-- The attribute that gives a field's column its name. -/
def fieldMapAttribute (name : Text) : Text := "@map(\"".toList ++ name ++ "\")".toList

/-- The attribute that gives a model's table its name. -/
def modelMapAttribute (name : Text) : Text := "@@map(\"".toList ++ name ++ "\")".toList

/-- An edit of the given kind at the given name. -/
structure Edit where
  kind : EditKind
  name : Text
  deriving DecidableEq, Repr

/-- The text that the edit puts in: the recased name, or the added attribute. -/
def Edit.result (e : Edit) : Text :=
  match e.kind with
  | .model | .typeReference => Name.pascal e.name
  | .enum | .type | .field | .fieldReference => Name.camel e.name
  | .fieldMap => fieldMapAttribute e.name
  | .modelMap => modelMapAttribute e.name

/-- An edit with the number of its line, counted from one. -/
structure Change where
  line : Nat
  edit : Edit
  deriving DecidableEq, Repr

/-- The change in one line of prose. -/
def Change.describe (c : Change) : String :=
  let result := String.ofList c.edit.result
  match c.edit.kind with
  | .fieldMap | .modelMap => s!"line {c.line}: added {result}"
  | kind => s!"line {c.line}: {kind.label} {String.ofList c.edit.name} -> {result}"

theorem Edit.result_eq_apply {e : Edit} {casing : Casing} (h : e.kind.casing? = some casing) :
    e.result = casing.apply e.name := by
  obtain ⟨kind, name⟩ := e
  cases kind <;> cases h <;> rfl

end Recase
