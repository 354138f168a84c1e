import Recase.Edit
import Recase.Token

/-!
# Renaming in a line

Which names of a line are renamed depends on the tokens before them.  A rule looks at these, nearest
first, and at the name, and gives the kind of edit or none; `renameTokens` applies a rule along a
list of tokens.  There are two rules.

* `FieldTail.rule` — after a field's name: the first name is the field's type, every later one
  refers to a field;
* `FieldList.rule` — in the attribute of a block: the names inside brackets refer to fields.

Names of attributes, which follow `@` or a dot, are never renamed, and neither are the texts of
strings and comments.
-/

namespace Recase

/-- A token after renaming, with the edit that was made to it. -/
structure Renamed where
  token : Token
  edit? : Option Edit
  deriving DecidableEq, Repr

/-- Renames the names for which the rule gives a kind.  `before` holds the tokens to the left,
nearest first. -/
def renameTokens (rule : List Token → Text → Option EditKind) :
    (before : List Token) → List Token → List Renamed
  | _, [] => []
  | before, .name name :: ts =>
    (match rule before name with
      | some kind => ⟨.name (Edit.result ⟨kind, name⟩), some ⟨kind, name⟩⟩
      | none => ⟨.name name, none⟩) :: renameTokens rule (.name name :: before) ts
  | before, t :: ts => ⟨t, none⟩ :: renameTokens rule (t :: before) ts

/-- Whether a name after these tokens is the name of an attribute. -/
def isAttributePosition : (before : List Token) → Bool
  | .mark '@' :: _ | .mark '.' :: _ => true
  | _ => false

/-- A piece of a line after renaming, and the edits made in it. -/
structure RecasedText where
  tokens : List Token
  edits : List Edit
  deriving DecidableEq, Repr

namespace RecasedText

/-- The text after renaming, under the given rule. -/
def ofText (rule : List Token → Text → Option EditKind) (s : Text) : RecasedText :=
  let renamed := renameTokens rule [] (tokenize s)
  ⟨renamed.map (·.token), renamed.filterMap (·.edit?)⟩

def text (r : RecasedText) : Text := Token.concat r.tokens

end RecasedText

/-! ### The tail of a field -/

namespace FieldTail

/-- In the tail of a field the first name is the type and the others are references. -/
def rule (before : List Token) (name : Text) : Option EditKind :=
  if !Name.isSnake name || isAttributePosition before then none
  else if before.any Token.isName then some .fieldReference
  else some .typeReference

/-- The tail of a field after renaming. -/
def recase (tail : Text) : RecasedText := RecasedText.ofText rule tail

/-- Whether a name after these tokens is that of an attribute of the field: its mark is not the
second of `@@`. -/
def isFieldAttributePosition : (before : List Token) → Bool
  | .mark '@' :: .mark '@' :: _ => false
  | before => isAttributePosition before

/-- Whether an attribute `map` of the field is among the tokens. -/
def namesColumn : (before : List Token) → List Token → Bool
  | _, [] => false
  | before, t :: ts =>
    (t == .name "map".toList && isFieldAttributePosition before) || namesColumn (t :: before) ts

/-- The type of the field: the first name, unless it is that of an attribute. -/
def typeName? : (before : List Token) → List Token → Option Text
  | _, [] => none
  | before, .name name :: _ => if isAttributePosition before then none else some name
  | before, t :: ts => typeName? (t :: before) ts

/-- The types of fields that have a column of their own. -/
def scalarTypes : List Text :=
  ["String".toList, "Boolean".toList, "Int".toList, "BigInt".toList, "Float".toList,
    "Decimal".toList, "DateTime".toList, "Json".toList, "Bytes".toList, "Unsupported".toList]

/-- Whether the type is a model or a composite type: it begins with a capital and is not scalar. -/
def isRelationType (type : Text) : Bool :=
  type.head?.any Char.isUpper && !scalarTypes.contains type

end FieldTail

namespace RecasedText

/-- Whether the field names its column. -/
def namesColumn (r : RecasedText) : Bool := FieldTail.namesColumn [] r.tokens

/-- Whether the field has no column of its own. -/
def isRelation (r : RecasedText) : Bool :=
  (FieldTail.typeName? [] r.tokens).any FieldTail.isRelationType

/-- The tokens before the comment. -/
def body (r : RecasedText) : List Token := r.tokens.takeWhile (!·.isComment)

/-- The comment at the end. -/
def comment? (r : RecasedText) : Option Token := r.tokens.find? (·.isComment)

/-- The text with an attribute that names the column, after the last token and before the
comment. -/
def textNamingColumn (r : RecasedText) (column : Text) : Text :=
  Text.trimEnd (Token.concat r.body) ++ ' ' :: fieldMapAttribute column ++
    match r.comment? with
    | some comment => ' ' :: comment.text.trimEnd
    | none => []

end RecasedText

/-! ### Lists of fields -/

namespace FieldList

/-- The number of brackets open after the token, if `depth` are open before it.  A bracket closed
without having been opened counts nothing. -/
def depthAfter (t : Token) (depth : Nat) : Nat :=
  if t = .mark '[' then depth + 1 else if t = .mark ']' then depth - 1 else depth

/-- The number of brackets open after the tokens, which are given nearest first. -/
def depth (before : List Token) : Nat := before.foldr depthAfter 0

/-- In the attribute of a block the names inside brackets are references. -/
def rule (before : List Token) (name : Text) : Option EditKind :=
  if Name.isSnake name && 0 < depth before && !isAttributePosition before then some .fieldReference
  else none

/-- The line after renaming. -/
def recase (line : Text) : RecasedText := RecasedText.ofText rule line

end FieldList

end Recase
