import Recase.Text.Blank
import Recase.Token

/-!
# Shapes of lines

Three shapes of a line matter for recasing.  Each reader cuts the line into pieces that together are
the line again.

* `Heading` — `keyword name {` with an optional comment;
* `FieldDecl` — an indented name, then a blank and the rest of the field;
* `blockAttribute?` — the name of an attribute with `@@`.
-/

namespace Recase

/-- The name at the start of a text and what follows it. -/
def leadingName? : Text → Option (Text × Text)
  | [] => none
  | c :: cs =>
    if Name.isStart c then some (c :: cs.takeWhile Name.isPart, cs.dropWhile Name.isPart) else none

/-! ### Headings -/

/-- The line that opens a block, cut at the block's name. -/
structure Heading where
  /-- Indentation, keyword and the blanks after it. -/
  lead : Text
  name : Text
  /-- What follows the name: the brace and a comment, each of which may be missing. -/
  trail : Text
  deriving DecidableEq, Repr

namespace Heading

/-- What may follow the name of a heading: blanks, a brace or none, blanks, a comment or nothing. -/
def isTrail (s : Text) : Bool :=
  let rest := match s.trimStart with
    | '{' :: cs => Text.trimStart cs
    | cs => cs
  rest.isEmpty || rest.beginsWith ['/', '/']

def text (h : Heading) : Text := h.lead ++ h.name ++ h.trail

/-- Reads a heading.  The keyword is any word: which block it opens is `Block.ofHeading?`. -/
def parse? (line : Text) : Option Heading :=
  let keyword := line.trimStart.takeWhile (!isBlank ·)
  let rest : Text := line.trimStart.dropWhile (!isBlank ·)
  match leadingName? rest.trimStart with
  | some (name, trail) =>
    if isTrail trail then some ⟨line.indent ++ keyword ++ rest.indent, name, trail⟩ else none
  | none => none

end Heading

/-! ### Fields -/

/-- The line that declares a field, cut at the field's name. -/
structure FieldDecl where
  indent : Text
  name : Text
  /-- The type and the attributes, with the blanks before them. -/
  tail : Text
  deriving DecidableEq, Repr

namespace FieldDecl

def text (f : FieldDecl) : Text := f.indent ++ f.name ++ f.tail

/-- Reads a field: the line is indented, and a blank follows the name. -/
def parse? (line : Text) : Option FieldDecl :=
  if line.indent.isEmpty then none
  else match leadingName? line.trimStart with
    | some (name, tail) =>
      if tail.head?.any isBlank then some ⟨line.indent, name, tail⟩ else none
    | none => none

end FieldDecl

/-! ### Attributes of a block -/

/-- The name of the attribute `@@name` at the start of the line. -/
def blockAttribute? (line : Text) : Option Text :=
  match tokenize line.trimStart with
  | .mark '@' :: .mark '@' :: .name name :: _ => some name
  | _ => none

/-- Whether the line names the table of its model. -/
def namesTable (line : Text) : Bool := blockAttribute? line = some "map".toList

/-- The attributes of a block whose brackets hold names of fields. -/
def listingAttributes : List Text :=
  ["index".toList, "unique".toList, "id".toList, "fulltext".toList]

/-- Whether the line lists fields of its model. -/
def listsFields (line : Text) : Bool := (blockAttribute? line).any listingAttributes.contains

/-! ### The pieces are the line -/

theorem append_of_leadingName? {s name rest : Text} (h : leadingName? s = some (name, rest)) :
    name ++ rest = s := by
  unfold leadingName? at h
  split at h
  · cases h
  · split at h
    · cases h
      simp [List.takeWhile_append_dropWhile]
    · cases h

theorem Heading.text_of_parse? {line : Text} {h : Heading} (hp : parse? line = some h) :
    h.text = line := by
  simp only [parse?] at hp
  split at hp
  · next name trail hn =>
    split at hp
    · cases hp
      have := append_of_leadingName? hn
      simp only [text, List.append_assoc, this, Text.indent_append_trimStart,
        List.takeWhile_append_dropWhile]
    · cases hp
  · cases hp

theorem FieldDecl.text_of_parse? {line : Text} {f : FieldDecl} (hp : parse? line = some f) :
    f.text = line := by
  simp only [parse?] at hp
  split at hp
  · cases hp
  · split at hp
    · next name tail hn =>
      split at hp
      · cases hp
        have := append_of_leadingName? hn
        simp only [text, List.append_assoc, this, Text.indent_append_trimStart]
      · cases hp
    · cases hp

end Recase
