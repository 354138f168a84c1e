import Recase.Text.Basic

/-!
# Folded lines

A message is shown in lines of a limited width.  Each of its own lines is cut into pieces wherever
it may be broken, and a piece that is wider than a line is cut once more; the pieces then fill the
lines, as many on each as fit.  Spaces at the end of a line are not shown.

* `Text.mayBreak` — where a line may be broken: the rules of Unicode line breaking for the ASCII
  characters, with every other character taken for a letter, and a hyphen only inside a word;
* `Text.pieces`, `Text.slices`, `Text.fill` — the three steps, none of which loses a character;
* `Text.fold` — the lines that are shown;
* `Text.exists_rows_fold` — they are the lines of the text, cut so that they fit.
-/

namespace Recase

/-! ### Where a line may be broken -/

/-- What a character is to the characters beside it when a line is broken. -/
inductive BreakRole where
  | letter
  | digit
  /-- A sign before or after a number. -/
  | sign
  | quote
  | opening
  /-- A closing bracket or parenthesis, which may belong to the word after it. -/
  | closing
  | closingBrace
  | slash
  /-- A mark inside a number or at the end of a clause. -/
  | separator
  /-- A mark at the end of a sentence. -/
  | stop
  /-- A hyphen, a bar or white space other than the space: it stays with what is before it. -/
  | trailing
  deriving DecidableEq, Repr

namespace BreakRole

def of (c : Char) : BreakRole :=
  if c.isDigit then digit
  else if c ∈ ['$', '+', '\\', '%'] then sign
  else if c ∈ ['\'', '"'] then quote
  else if c ∈ ['(', '[', '{'] then opening
  else if c ∈ [')', ']'] then closing
  else if c = '}' then closingBrace
  else if c = '/' then slash
  else if c ∈ [',', '.', ':', ';'] then separator
  else if c ∈ ['!', '?'] then stop
  else if c ∈ ['-', '|', '\t', '\x0b', '\x0c', '\r'] then trailing
  else letter

/-- Whether the character closes what is before it, spaces between them or not. -/
def closes : BreakRole → Bool
  | closing | closingBrace | slash | separator | stop => true
  | _ => false

/-- Whether two neighbours stay on one line. -/
def sticks : BreakRole → BreakRole → Bool
  | opening, _ | quote, _ | _, quote | _, trailing => true
  | sign, sign => false
  | letter, letter | letter, digit | letter, sign | letter, opening => true
  | digit, letter | digit, digit | digit, sign | digit, opening => true
  | sign, letter | sign, digit | sign, opening => true
  | separator, letter | separator, digit | slash, digit => true
  | closing, letter | closing, digit | closing, sign | closingBrace, sign => true
  | _, r => r.closes

/-- Whether two characters with spaces between them stay on one line. -/
def sticksAcross : BreakRole → BreakRole → Bool
  | opening, _ | quote, opening => true
  | _, r => r.closes

end BreakRole

/-- Whether the character is a letter or a digit for the hyphen beside it. -/
def isWordChar (c : Char) : Bool := c.isAlphanum || 0x80 ≤ c.toNat

namespace Text

/-- Whether a line may be broken before a character.  `before` is the line up to it, last character
first. -/
def mayBreak (before : Text) (c : Char) : Bool :=
  match before with
  | [] => false
  | '-' :: before => before.head?.any isWordChar && isWordChar c
  | ' ' :: before =>
    c ≠ ' ' && match before.dropWhile (· = ' ') with
      | [] => !(BreakRole.of c).closes
      | b :: _ => !(BreakRole.of b).sticksAcross (.of c)
  | b :: _ => c ≠ ' ' && !(BreakRole.of b).sticks (.of c)

/-- The line cut wherever it may be broken.  `before` is what was before it, last character first. -/
def pieces (before : Text) : Text → List Text
  | [] => [[]]
  | c :: cs =>
    let rest := (pieces (c :: before) cs).modifyHead (c :: ·)
    if mayBreak before c then [] :: rest else rest

/-! ### Filling lines -/

/-- The text without the spaces at its end. -/
def dropEndSpaces (s : Text) : Text := (s.reverse.dropWhile (· = ' ')).reverse

/-- A piece cut into slices that are no wider than a line, the spaces at its end apart. -/
def slices (width : Nat) (piece : Text) : List Text :=
  if width = 0 ∨ piece.dropEndSpaces.length ≤ width then [piece]
  else piece.take width :: slices width (piece.drop width)
termination_by piece.length
decreasing_by
  have h := List.length_reverse ▸ (List.dropWhile_sublist (l := piece.reverse) (· = ' ')).length_le
  simp only [dropEndSpaces, List.length_reverse] at *
  simp only [List.length_drop]
  omega

/-- Puts the pieces on lines, as many on each as fit.  `line` is what the first line already holds. -/
def fill (width : Nat) (line : Text) : List Text → List Text
  | [] => [line]
  | piece :: pieces =>
    if line.length + piece.dropEndSpaces.length ≤ width then fill width (line ++ piece) pieces
    else line :: fill width piece pieces

/-- The lines in which the text is shown. -/
def fold (width : Nat) (s : Text) : List Text :=
  (s.split '\n').flatMap fun line =>
    (fill width [] ((pieces [] line).flatMap (slices width))).map dropEndSpaces

/-! ### Nothing is lost -/

theorem pieces_ne_nil (before s : Text) : pieces before s ≠ [] := by
  induction s generalizing before with
  | nil => simp [pieces]
  | cons c cs ih =>
    rw [pieces]
    split <;> simp [List.modifyHead_eq_nil_iff, ih]

theorem flatten_modifyHead (c : Char) {ps : List Text} (h : ps ≠ []) :
    (ps.modifyHead (c :: ·)).flatten = c :: ps.flatten := by
  obtain ⟨p, ps, rfl⟩ := List.exists_cons_of_ne_nil h
  rfl

@[simp] theorem flatten_pieces (before s : Text) : (pieces before s).flatten = s := by
  induction s generalizing before with
  | nil => rfl
  | cons c cs ih =>
    have h := flatten_modifyHead c (pieces_ne_nil (c :: before) cs)
    rw [pieces]
    split <;> simp [h, ih]

@[simp] theorem flatten_slices (width : Nat) (piece : Text) :
    (slices width piece).flatten = piece := by
  fun_induction slices width piece with
  | case1 => simp
  | case2 piece h ih => simp [ih]

@[simp] theorem flatten_flatMap_slices (width : Nat) (ps : List Text) :
    (ps.flatMap (slices width)).flatten = ps.flatten := by
  induction ps with
  | nil => rfl
  | cons p ps ih => simp [ih]

@[simp] theorem flatten_fill (width : Nat) (line : Text) (ps : List Text) :
    (fill width line ps).flatten = line ++ ps.flatten := by
  induction ps generalizing line with
  | nil => simp [fill]
  | cons p ps ih =>
    rw [fill]
    split <;> simp [ih]

/-! ### Lines fit -/

theorem length_dropEndSpaces_le (s : Text) : s.dropEndSpaces.length ≤ s.length := by
  have h := (List.dropWhile_sublist (· = ' ') : List.Sublist _ s.reverse).length_le
  simpa [dropEndSpaces] using h

theorem length_dropEndSpaces_append_le (s t : Text) :
    (s ++ t).dropEndSpaces.length ≤ s.length + t.dropEndSpaces.length := by
  have h := length_dropEndSpaces_le s
  simp only [dropEndSpaces, List.length_reverse, List.reverse_append, List.dropWhile_append] at h ⊢
  split
  · omega
  · simp only [List.length_append, List.length_reverse]
    omega

theorem length_le_of_mem_slices {width : Nat} (hwidth : 0 < width) {piece slice : Text}
    (h : slice ∈ slices width piece) : slice.dropEndSpaces.length ≤ width := by
  fun_induction slices width piece with
  | case1 piece hfits =>
    rw [List.mem_singleton.1 h]
    omega
  | case2 piece hwide ih =>
    rcases List.mem_cons.1 h with rfl | h
    · exact Nat.le_trans (length_dropEndSpaces_le _) (List.length_take_le ..)
    · exact ih h

/-- A piece goes on a line only if it fits there, and else on a line of its own. -/
theorem length_le_of_mem_fill {width : Nat} {ps : List Text}
    (hps : ∀ p ∈ ps, p.dropEndSpaces.length ≤ width) {line : Text}
    (hline : line.dropEndSpaces.length ≤ width) :
    ∀ l ∈ fill width line ps, l.dropEndSpaces.length ≤ width := by
  induction ps generalizing line with
  | nil =>
    intro l hl
    rwa [List.mem_singleton.1 hl]
  | cons p ps ih =>
    obtain ⟨hp, hps⟩ := List.forall_mem_cons.1 hps
    rw [fill]
    split
    · next hfits => exact ih hps (Nat.le_trans (length_dropEndSpaces_append_le line p) hfits)
    · exact List.forall_mem_cons.2 ⟨hline, ih hps hp⟩

/-- **The lines that are shown are those of the text, cut where they do not fit.**  Nothing is lost but
spaces at the ends of lines. -/
theorem exists_rows_fold (width : Nat) (s : Text) : ∃ rows : List (List Text),
    rows.map List.flatten = s.split '\n' ∧ fold width s = rows.flatten.map dropEndSpaces ∧
      (0 < width → ∀ line ∈ fold width s, line.length ≤ width) := by
  refine ⟨(s.split '\n').map fun line => fill width [] ((pieces [] line).flatMap (slices width)), ?_, ?_, ?_⟩
  · simp [List.map_map, Function.comp_def]
  · simp [fold, List.map_flatten, List.flatMap_def, List.map_map, Function.comp_def]
  · intro hwidth line hline
    obtain ⟨own, -, hline⟩ := List.mem_flatMap.1 hline
    obtain ⟨row, hrow, rfl⟩ := List.mem_map.1 hline
    refine length_le_of_mem_fill (fun slice hslice => ?_) (Nat.zero_le _) row hrow
    obtain ⟨piece, -, hslice⟩ := List.mem_flatMap.1 hslice
    exact length_le_of_mem_slices hwidth hslice

end Text

end Recase
