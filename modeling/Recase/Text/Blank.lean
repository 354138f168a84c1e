import Recase.Text.Basic

/-!
# Blanks

The white space of a schema is that of Unicode, not the four characters of `Char.isWhitespace`:
a no-break space or an ideographic space separates words as well.
-/

namespace Recase

/-- The characters with the Unicode property White_Space, as ranges of code points. -/
def blankRanges : List (Nat × Nat) :=
  [(0x09, 0x0D), (0x20, 0x20), (0x85, 0x85), (0xA0, 0xA0), (0x1680, 0x1680), (0x2000, 0x200A),
    (0x2028, 0x2029), (0x202F, 0x202F), (0x205F, 0x205F), (0x3000, 0x3000)]

/-- Whether the character is white space. -/
def isBlank (c : Char) : Bool := blankRanges.any fun r => r.1 ≤ c.toNat && c.toNat ≤ r.2

namespace Text

/-- The blanks that the text begins with. -/
def indent (s : Text) : Text := s.takeWhile isBlank

/-- The text from its first character that is no blank. -/
def trimStart (s : Text) : Text := s.dropWhile isBlank

/-- The text up to its last character that is no blank. -/
def trimEnd (s : Text) : Text := (s.reverse.dropWhile isBlank).reverse

/-- The text without the blanks at its two ends. -/
def trim (s : Text) : Text := s.trimStart.trimEnd

@[simp] theorem indent_append_trimStart (s : Text) : s.indent ++ s.trimStart = s :=
  List.takeWhile_append_dropWhile

end Text

end Recase
