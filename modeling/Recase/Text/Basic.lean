/-!
# Texts

A text is the list of its characters, so that everything the library does to schemas is recursion
on lists.  Two operations are needed throughout: cutting a text at a separator (lines at the line
feed, names at the underscore, paths at the slash) and putting the pieces together again.  They are
those of lists, and so are their laws (`List.intercalate_splitOn`, `List.splitOn_intercalate`).
-/

namespace Recase

/-- A text, as the list of its characters. -/
abbrev Text := List Char

namespace Text

/-- The pieces of a text between the occurrences of `sep`.  An empty text is one empty piece. -/
abbrev split (sep : Char) (s : Text) : List Text := s.splitOn sep

/-- The pieces one after the other, with `sep` between neighbours. -/
abbrev join (sep : Char) (pieces : List Text) : Text := [sep].intercalate pieces

/-- Whether the text begins with the given one. -/
def beginsWith (s start : Text) : Bool := start.isPrefixOf s

/-- The number of bytes of the text in UTF-8. -/
def byteSize (s : Text) : Nat := s.foldr (fun c n => c.utf8Size + n) 0

end Text

end Recase
