import Recase.Edit
import Recase.Text.Blank

/-!
# Blocks

A schema is a sequence of blocks, each opened by a heading that begins with the block's keyword.
Between blocks a line stands at the top level.
-/

namespace Recase

/-- What a line of a schema stands in. -/
inductive Block where
  | topLevel
  | model
  | enum
  | type
  | generator
  | datasource
  deriving DecidableEq, Repr

namespace Block

/-- The word that opens the block. -/
def keyword? : Block → Option String
  | topLevel => none
  | model => some "model"
  | enum => some "enum"
  | type => some "type"
  | generator => some "generator"
  | datasource => some "datasource"

/-- The words for the block in messages. -/
def label (b : Block) : String := b.keyword?.getD "top level"

/-- The kind of edit that renames the block in its heading; generators and data sources keep their
names. -/
def headingKind? : Block → Option EditKind
  | model => some .model
  | enum => some .enum
  | type => some .type
  | topLevel | generator | datasource => none

/-- The casing of the block's name. -/
def casing? (b : Block) : Option Casing := b.headingKind?.bind EditKind.casing?

/-- Whether the line begins with the block's keyword and a blank. -/
def opens (b : Block) (line : Text) : Bool :=
  b.keyword?.any fun keyword =>
    line.beginsWith keyword.toList && (line.drop keyword.length).head?.any isBlank

/-- The block that the line opens. -/
def ofHeading? (line : Text) : Option Block :=
  [model, enum, type, generator, datasource].find? (·.opens line)

end Block

end Recase
