import Recase.Text.Basic
import Recase.Text.Uppercase

/-!
# Names and their casings

A name in a schema is an ASCII identifier.  Database columns and tables are usually written in
snake_case, client code in camelCase (fields, enums) or PascalCase (models).

* `Name.isSnake` — lower case segments joined by single underscores, at least two of them;
* `Name.camel` — an underscore before a lower case letter is dropped and the letter raised;
* `Name.pascal` — the same, with the first character raised too;
* `Casing` — the choice between the two.
-/

namespace Recase

namespace Name

/-- A name begins with an ASCII letter or an underscore. -/
def isStart (c : Char) : Bool := c.isAlpha || c == '_'

/-- A name goes on with ASCII letters, digits and underscores. -/
def isPart (c : Char) : Bool := c.isAlphanum || c == '_'

/-- The characters of a snake_case segment: ASCII lower case letters and digits. -/
def isSnakeChar (c : Char) : Bool := c.isLower || c.isDigit

/-- A segment after the first: not empty, and of snake_case characters only. -/
def isSegment (s : Text) : Bool := !s.isEmpty && s.all isSnakeChar

/-- The first segment begins with a letter. -/
def isFirstSegment (s : Text) : Bool := s.head?.any Char.isLower && s.all isSnakeChar

/-- Whether the name is in snake_case: `user_id` is, `user`, `userId`, `_id` and `a__b` are not. -/
def isSnake (s : Text) : Bool :=
  match s.split '_' with
  | first :: rest => isFirstSegment first && !rest.isEmpty && rest.all isSegment
  | [] => false

/-- The name with every underscore that stands before a lower case letter folded into the capital.
Underscores before anything else are kept. -/
def camel : Text → Text
  | [] => []
  | '_' :: c :: cs => if c.isLower then c.toUpper :: camel cs else '_' :: camel (c :: cs)
  | c :: cs => c :: camel cs

/-- The camelCase name with its first character in upper case. -/
def pascal (s : Text) : Text :=
  match camel s with
  | [] => []
  | c :: cs => uppercase c ++ cs

theorem isPart_of_isStart {c : Char} (h : isStart c) : isPart c := by
  simp only [isStart, isPart, Char.isAlphanum, Bool.or_eq_true] at h ⊢
  exact h.imp_left Or.inl

end Name

/-- How a name is written in client code. -/
inductive Casing where
  | camel
  | pascal
  deriving DecidableEq, Repr

/-- The name in the given casing. -/
def Casing.apply : Casing → Text → Text
  | .camel => Name.camel
  | .pascal => Name.pascal

end Recase
