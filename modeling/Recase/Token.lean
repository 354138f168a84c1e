import Recase.Name
import Recase.Text.Blank

/-!
# Tokens

A line of a schema is a sequence of tokens.  Nothing is skipped: the texts of the tokens put one
after the other are the line (`Token.concat_tokenize`), so a line is edited by editing its tokens.

* `Token.first` — the token at the start of a text that is not empty, and what follows it;
* `tokenize` — the tokens of a text.
-/

namespace Recase

/-- One lexical piece of a line. -/
inductive Token where
  /-- A name. -/
  | name (text : Text)
  /-- A string literal with its quotes; without the closing one if it is not closed. -/
  | literal (text : Text)
  /-- A comment, from `//` to the end. -/
  | comment (text : Text)
  /-- A run of blanks. -/
  | blanks (text : Text)
  /-- A digit and the name characters after it. -/
  | number (text : Text)
  /-- Any other character. -/
  | mark (c : Char)
  deriving DecidableEq, Repr

namespace Token

/-- The characters that the token covers. -/
def text : Token → Text
  | name s | literal s | comment s | blanks s | number s => s
  | mark c => [c]

def isName : Token → Bool
  | name _ => true
  | _ => false

def isComment : Token → Bool
  | comment _ => true
  | _ => false

/-- The text that the tokens cover together. -/
def concat (ts : List Token) : Text := ts.flatMap text

/-- A string literal after its opening quote, up to and with the first quote that no backslash
escapes, and what follows.  Without such a quote the literal takes everything. -/
def closeString : Text → Text × Text
  | [] => ([], [])
  | '"' :: cs => (['"'], cs)
  | '\\' :: c :: cs => ('\\' :: c :: (closeString cs).1, (closeString cs).2)
  | c :: cs => (c :: (closeString cs).1, (closeString cs).2)

/-- The token that begins with `c` in the text `c :: cs`, and the text after it. -/
def first (c : Char) (cs : Text) : Token × Text :=
  if c = '"' then (literal (c :: (closeString cs).1), (closeString cs).2)
  else if c = '/' ∧ cs.head? = some '/' then (comment (c :: cs), [])
  else if isBlank c then (blanks (c :: cs.takeWhile isBlank), cs.dropWhile isBlank)
  else if Name.isStart c then (name (c :: cs.takeWhile Name.isPart), cs.dropWhile Name.isPart)
  else if c.isDigit then (number (c :: cs.takeWhile Name.isPart), cs.dropWhile Name.isPart)
  else (mark c, cs)

/-! ### Nothing is lost -/

theorem closeString_append (cs : Text) : (closeString cs).1 ++ (closeString cs).2 = cs := by
  fun_induction closeString cs <;> simp_all

theorem first_append (c : Char) (cs : Text) : (first c cs).1.text ++ (first c cs).2 = c :: cs := by
  unfold first
  repeat' split
  all_goals simp [text, closeString_append, List.takeWhile_append_dropWhile]

theorem length_closeString_le (cs : Text) : (closeString cs).2.length ≤ cs.length := by
  have := congrArg List.length (closeString_append cs)
  simp only [List.length_append] at this
  omega

theorem length_first_le (c : Char) (cs : Text) : (first c cs).2.length ≤ cs.length := by
  unfold first
  repeat' split
  all_goals simp [length_closeString_le, (List.dropWhile_sublist _).length_le]

end Token

/-- The tokens of a text, from left to right. -/
def tokenize : Text → List Token
  | [] => []
  | c :: cs => (Token.first c cs).1 :: tokenize (Token.first c cs).2
termination_by s => s.length
decreasing_by exact Nat.lt_succ_of_le (Token.length_first_le c cs)

namespace Token

@[simp] theorem concat_nil : concat [] = [] := rfl

@[simp] theorem concat_cons (t : Token) (ts : List Token) : concat (t :: ts) = t.text ++ concat ts :=
  List.flatMap_cons ..

@[simp] theorem concat_append (ts us : List Token) : concat (ts ++ us) = concat ts ++ concat us :=
  List.flatMap_append ..

@[simp] theorem concat_tokenize (s : Text) : concat (tokenize s) = s := by
  fun_induction tokenize s with
  | case1 => rfl
  | case2 c cs ih => rw [concat_cons, ih, first_append]

end Token

end Recase
