import Recase.Recasing
import Recase.Proofs.Lexing

/-!
# Reading lines back

The readers of `Recase.Line` look for the pieces of a line from left to right.  For each of them
there is a statement of what they find in terms of the pieces, so that a line that was put together
from pieces is read without running the reader.

* `splitReturn_append` — a line and its ending;
* `FieldDecl.parse?_eq_some_iff`, `Heading.parse?_eq_some_iff` — fields and headings;
* `blockAttribute?_eq_some_iff` — attributes of a block, by the tokens of the line;
* `ofHeading?_trim` — the block that a heading opens depends on its first word only;
* `FieldDecl.tokenize_text`, `Heading.tokenize_text` — the tokens of the two.
-/

namespace Recase

open Token

/-! ### Line endings -/

/-- The text `eol` is what `splitReturn` cuts off behind `line`. -/
def IsEnding (line eol : Text) : Prop := eol = ['\r'] ∨ eol = [] ∧ line.getLast? ≠ some '\r'

theorem splitReturn_append {line eol : Text} (h : IsEnding line eol) :
    splitReturn (line ++ eol) = (line, eol) := by
  rcases h with rfl | ⟨rfl, h⟩
  · simp [splitReturn]
  · simp [splitReturn, h]

theorem append_of_splitReturn {raw line eol : Text} (h : splitReturn raw = (line, eol)) :
    raw = line ++ eol ∧ IsEnding line eol := by
  unfold splitReturn at h
  split at h
  · next hlast =>
    cases h
    refine ⟨?_, Or.inl rfl⟩
    have hne : raw ≠ [] := by
      rintro rfl
      cases hlast
    rw [List.getLast?_eq_some_getLast hne, Option.some.injEq] at hlast
    rw [← hlast, List.dropLast_concat_getLast hne]
  · next hlast =>
    cases h
    exact ⟨(List.append_nil raw).symm, Or.inr ⟨rfl, hlast⟩⟩

/-! ### Names at the start of a text -/

theorem leadingName?_eq_some_iff {s name rest : Text} : leadingName? s = some (name, rest) ↔
    s = name ++ rest ∧ Name.isName name ∧ rest.head?.any Name.isPart = false := by
  constructor
  · intro h
    have happend := append_of_leadingName? h
    unfold leadingName? at h
    split at h
    · cases h
    next c cs =>
    split at h
    · next hc =>
      cases h
      refine ⟨happend.symm, Name.isName_cons.2 ⟨hc, fun d => List.mem_takeWhile_imp⟩, ?_⟩
      exact not_any_head?_dropWhile _ _
    · cases h
  · rintro ⟨rfl, hname, hrest⟩
    cases name with
    | nil => cases hname
    | cons c cs =>
      obtain ⟨hc, hcs⟩ := Name.isName_cons.1 hname
      obtain ⟨h1, h2⟩ := takeWhile_append_of_head? hcs hrest
      simp [leadingName?, hc, h1, h2]

theorem exists_head_of_isName {s : Text} (hs : Name.isName s) (r : Text) :
    ∃ c t, s ++ r = c :: t ∧ Name.isStart c := by
  cases s with
  | nil => cases hs
  | cons c cs => exact ⟨c, cs ++ r, rfl, (Name.isName_cons.1 hs).1⟩

theorem trimStart_append_name {indent name : Text} (hi : ∀ c ∈ indent, isBlank c)
    (hn : Name.isName name) (rest : Text) :
    Text.trimStart (indent ++ (name ++ rest)) = name ++ rest := by
  obtain ⟨c, t, h, hc⟩ := exists_head_of_isName hn rest
  rw [Text.trimStart_append_blanks hi, h,
    Text.trimStart_cons (Name.isBlank_of_isPart (Name.isPart_of_isStart hc))]

/-- Where a name begins, there is no blank. -/
theorem not_isBlank_head?_name_append {name : Text} (hn : Name.isName name) (rest : Text) :
    (name ++ rest).head?.any isBlank = false := by
  obtain ⟨c, t, h, hc⟩ := exists_head_of_isName hn rest
  simpa [h] using Name.isBlank_of_isPart (Name.isPart_of_isStart hc)

/-- Where a blank stands, no name goes on. -/
theorem not_isPart_head?_of_isBlank {s : Text} (h : s.head?.any isBlank) :
    s.head?.any Name.isPart = false := by
  cases s with
  | nil => rfl
  | cons c cs => simpa using Name.isPart_of_isBlank (by simpa using h)

theorem indent_append_name {indent name : Text} (hi : ∀ c ∈ indent, isBlank c)
    (hn : Name.isName name) (rest : Text) : Text.indent (indent ++ (name ++ rest)) = indent := by
  obtain ⟨c, t, h, hc⟩ := exists_head_of_isName hn rest
  refine Text.indent_append hi fun d hd => ?_
  rw [h] at hd
  cases hd
  exact Name.isBlank_of_isPart (Name.isPart_of_isStart hc)

/-- A line whose first character is not the brace does not close a block. -/
theorem trim_ne_brace {c : Char} {line t : Text} (h : line.trimStart = c :: t) (hc : c ≠ '}') :
    line.trim ≠ ['}'] := by
  rw [Text.trim_of_trimStart h]
  rintro heq
  exact hc (List.cons.inj heq).1

/-- The token that an indentation is, if there is one. -/
def indentTokens (indent : Text) : List Token := if indent = [] then [] else [.blanks indent]

theorem concat_indentTokens (indent : Text) : concat (indentTokens indent) = indent := by
  unfold indentTokens
  split <;> simp_all [text]

theorem tokenize_blanks_append {s r : Text} (hne : s ≠ []) (hs : ∀ c ∈ s, isBlank c)
    (hr : r.head?.any isBlank = false) : tokenize (s ++ r) = .blanks s :: tokenize r := by
  refine tokenize_text_append (t := .blanks s) ?_ ?_
  · simpa [isFormed, hne] using hs
  · simp [stops, hr]

theorem tokenize_name_append {s r : Text} (hs : Name.isName s)
    (hr : r.head?.any Name.isPart = false) : tokenize (s ++ r) = .name s :: tokenize r :=
  tokenize_text_append (t := .name s) hs (by simp [stops, hr])

/-- The indentation is a token of its own. -/
theorem tokenize_eq_append_trimStart (s : Text) :
    tokenize s = indentTokens s.indent ++ tokenize s.trimStart := by
  unfold indentTokens
  split
  · next h =>
    have : s.trimStart = s := by
      conv_rhs => rw [← Text.indent_append_trimStart s, h, List.nil_append]
    rw [this, List.nil_append]
  · next h =>
    conv_lhs => rw [← Text.indent_append_trimStart s]
    exact tokenize_blanks_append h (fun c => Text.isBlank_of_mem_indent)
      (not_any_head?_dropWhile _ _)

/-! ### Fields -/

namespace FieldDecl

theorem parse?_eq_some_iff {line : Text} {f : FieldDecl} : parse? line = some f ↔
    line = f.text ∧ f.indent ≠ [] ∧ (∀ c ∈ f.indent, isBlank c) ∧ Name.isName f.name ∧
      f.tail.head?.any isBlank := by
  constructor
  · intro hp
    refine ⟨(text_of_parse? hp).symm, ?_⟩
    unfold parse? at hp
    split at hp
    · cases hp
    next hi =>
    split at hp
    · next name tail hn =>
      split at hp
      · next htail =>
        cases hp
        obtain ⟨-, hname, -⟩ := leadingName?_eq_some_iff.1 hn
        refine ⟨?_, fun c => Text.isBlank_of_mem_indent, hname, htail⟩
        simpa using hi
      · cases hp
    · cases hp
  · rintro ⟨rfl, hi, hblank, hname, htail⟩
    obtain ⟨indent, name, tail⟩ := f
    have hread : leadingName? (name ++ tail) = some (name, tail) :=
      leadingName?_eq_some_iff.2 ⟨rfl, hname, not_isPart_head?_of_isBlank htail⟩
    simp only at hi hblank hname htail
    rw [text, List.append_assoc, parse?, trimStart_append_name hblank hname,
      indent_append_name hblank hname, hread]
    simp [hi, htail]

variable {line : Text} {f : FieldDecl}

theorem tokenize_text (h : parse? line = some f) :
    tokenize line = .blanks f.indent :: .name f.name :: tokenize f.tail := by
  obtain ⟨rfl, hi, hblank, hname, htail⟩ := parse?_eq_some_iff.1 h
  rw [text, List.append_assoc,
    tokenize_blanks_append hi hblank (not_isBlank_head?_name_append hname f.tail),
    tokenize_name_append hname (not_isPart_head?_of_isBlank htail)]

theorem trim_ne_brace_of_parse? (h : parse? line = some f) : line.trim ≠ ['}'] := by
  obtain ⟨rfl, -, hblank, hname, -⟩ := parse?_eq_some_iff.1 h
  obtain ⟨c, t, hc, hstart⟩ := exists_head_of_isName hname f.tail
  refine trim_ne_brace (c := c) (t := t) ?_ ?_
  · rw [text, List.append_assoc, trimStart_append_name hblank hname, hc]
  · rintro rfl
    cases hstart

theorem blockAttribute?_of_parse? (h : parse? line = some f) : blockAttribute? line = none := by
  have htokens := tokenize_text h
  rw [tokenize_eq_append_trimStart] at htokens
  unfold blockAttribute?
  split
  · next n ts hread =>
    rw [hread] at htokens
    unfold indentTokens at htokens
    split at htokens <;> simp at htokens
  · rfl

theorem namesTable_of_parse? (h : parse? line = some f) : namesTable line = false := by
  simp [namesTable, blockAttribute?_of_parse? h]

theorem listsFields_of_parse? (h : parse? line = some f) : listsFields line = false := by
  simp [listsFields, blockAttribute?_of_parse? h]

end FieldDecl

/-! ### Attributes of a block -/

/-- The line is one with an attribute of a block iff its tokens begin with those of the attribute, after
the indentation. -/
theorem blockAttribute?_eq_some_iff {line name : Text} : blockAttribute? line = some name ↔
    ∃ indent ts, (∀ c ∈ indent, isBlank c) ∧
      tokenize line = indentTokens indent ++ .mark '@' :: .mark '@' :: .name name :: ts := by
  constructor
  · intro h
    refine ⟨line.indent, ?_⟩
    unfold blockAttribute? at h
    split at h
    · next n ts hread =>
      cases h
      exact ⟨ts, fun c => Text.isBlank_of_mem_indent, by rw [tokenize_eq_append_trimStart, hread]⟩
    · cases h
  · rintro ⟨indent, ts, hblank, htokens⟩
    have hindent : line.indent = indent := by
      rw [← concat_tokenize line, htokens, concat_append, concat_indentTokens]
      refine Text.indent_append hblank fun c hc => ?_
      cases hc
      rfl
    rw [tokenize_eq_append_trimStart, hindent, List.append_cancel_left_eq] at htokens
    simp [blockAttribute?, htokens]

theorem trim_ne_brace_of_blockAttribute? {line name : Text} (h : blockAttribute? line = some name) :
    line.trim ≠ ['}'] := by
  unfold blockAttribute? at h
  split at h
  · next n ts hread =>
    refine trim_ne_brace (c := '@') (t := concat (.mark '@' :: .name n :: ts)) ?_ (by decide)
    rw [← concat_tokenize line.trimStart, hread]
    rfl
  · cases h

/-! ### Headings -/

/-- The pieces of a heading before its name: indentation, first word, blanks. -/
structure LeadPieces (lead indent word gap : Text) : Prop where
  lead_eq : lead = indent ++ (word ++ gap)
  indent_blank : ∀ c ∈ indent, isBlank c
  word_ne_nil : word ≠ []
  word_solid : ∀ c ∈ word, isBlank c = false
  gap_ne_nil : gap ≠ []
  gap_blank : ∀ c ∈ gap, isBlank c

namespace LeadPieces

variable {lead indent word gap : Text}

theorem trimStart_append (h : LeadPieces lead indent word gap) (r : Text) :
    Text.trimStart (lead ++ r) = word ++ (gap ++ r) := by
  obtain ⟨c, cs, hword⟩ := List.exists_cons_of_ne_nil h.word_ne_nil
  have hc := h.word_solid c (hword ▸ List.mem_cons_self ..)
  rw [h.lead_eq, List.append_assoc, List.append_assoc, Text.trimStart_append_blanks h.indent_blank,
    hword, List.cons_append, Text.trimStart_cons hc]

theorem indent_append (h : LeadPieces lead indent word gap) (r : Text) :
    Text.indent (lead ++ r) = indent := by
  rw [h.lead_eq, List.append_assoc, List.append_assoc]
  refine Text.indent_append h.indent_blank fun c hc => ?_
  obtain ⟨d, ds, hword⟩ := List.exists_cons_of_ne_nil h.word_ne_nil
  obtain rfl : d = c := by simpa [hword] using hc
  exact h.word_solid d (hword ▸ List.mem_cons_self ..)

/-- The first word ends where the blanks begin. -/
theorem takeWhile_append (h : LeadPieces lead indent word gap) (r : Text) :
    (word ++ (gap ++ r)).takeWhile (!isBlank ·) = word ∧
      (word ++ (gap ++ r)).dropWhile (!isBlank ·) = gap ++ r := by
  obtain ⟨c, cs, hgap⟩ := List.exists_cons_of_ne_nil h.gap_ne_nil
  have hc := h.gap_blank c (hgap ▸ List.mem_cons_self ..)
  refine takeWhile_append_of_head? ?_ ?_
  · simpa using h.word_solid
  · simp [hgap, hc]

end LeadPieces

/-- The pieces that are cut off before the second word of a line, if it has one. -/
theorem leadPieces_of_trimStart_ne_nil {line : Text}
    (h : Text.trimStart (line.trimStart.dropWhile (!isBlank ·)) ≠ []) :
    LeadPieces (line.indent ++ line.trimStart.takeWhile (!isBlank ·) ++
        Text.indent (line.trimStart.dropWhile (!isBlank ·)))
      line.indent (line.trimStart.takeWhile (!isBlank ·))
      (Text.indent (line.trimStart.dropWhile (!isBlank ·))) := by
  set rest : Text := line.trimStart.dropWhile (!isBlank ·) with hrest
  have hne : rest ≠ [] := by
    intro h0
    rw [h0] at h
    exact h rfl
  obtain ⟨c, cs, hc⟩ := List.exists_cons_of_ne_nil hne
  have hblank : isBlank c := by
    have := not_any_head?_dropWhile (!isBlank ·) line.trimStart
    rw [← hrest, hc] at this
    simpa using this
  refine ⟨by simp, fun d => Text.isBlank_of_mem_indent, fun h0 => ?_, fun d hd => ?_, ?_,
    fun d => Text.isBlank_of_mem_indent⟩
  · -- otherwise the line would begin, after its blanks, with a blank
    have hline : line.trimStart = c :: cs := by
      rw [← hc, hrest]
      conv_lhs => rw [← List.takeWhile_append_dropWhile (p := (!isBlank ·)) (l := line.trimStart), h0,
        List.nil_append]
    rw [Text.isBlank_of_trimStart hline] at hblank
    cases hblank
  · simpa using List.mem_takeWhile_imp hd
  · simp [hc, Text.indent, hblank]

namespace Heading

theorem parse?_eq_some_iff {line : Text} {h : Heading} : parse? line = some h ↔
    line = h.text ∧ (∃ indent word gap, LeadPieces h.lead indent word gap) ∧ Name.isName h.name ∧
      h.trail.head?.any Name.isPart = false ∧ isTrail h.trail := by
  constructor
  · intro hp
    refine ⟨(text_of_parse? hp).symm, ?_⟩
    simp only [parse?] at hp
    split at hp
    · next name trail hn =>
      split at hp
      · next htrail =>
        cases hp
        obtain ⟨hrest, hname, hstop⟩ := leadingName?_eq_some_iff.1 hn
        have hne : Text.trimStart (line.trimStart.dropWhile (!isBlank ·)) ≠ [] := by
          rw [hrest]
          exact List.append_ne_nil_of_left_ne_nil (Name.ne_nil_of_isName hname) trail
        exact ⟨⟨_, _, _, leadPieces_of_trimStart_ne_nil hne⟩, hname, hstop, htrail⟩
      · cases hp
    · cases hp
  · rintro ⟨rfl, ⟨indent, word, gap, hlead⟩, hname, hstop, htrail⟩
    obtain ⟨lead, name, trail⟩ := h
    simp only at hlead hname hstop htrail
    obtain ⟨h1, h2⟩ := hlead.takeWhile_append (name ++ trail)
    have hread : leadingName? (name ++ trail) = some (name, trail) :=
      leadingName?_eq_some_iff.2 ⟨rfl, hname, hstop⟩
    simp only [parse?, text, List.append_assoc]
    rw [hlead.trimStart_append, hlead.indent_append, h1, h2,
      trimStart_append_name hlead.gap_blank hname, indent_append_name hlead.gap_blank hname, hread]
    simp [htrail, hlead.lead_eq]

end Heading

/-! ### What a heading opens -/

namespace Block

/-- A line opens a block iff its first word is the block's keyword. -/
theorem opens_append {word gap : Text} (hw : ∀ c ∈ word, isBlank c = false)
    (hne : gap ≠ []) (hg : ∀ c ∈ gap, isBlank c) (r : Text) (b : Block) :
    b.opens (word ++ (gap ++ r)) ↔ b.keyword?.map String.toList = some word := by
  obtain ⟨c, cs, rfl⟩ := List.exists_cons_of_ne_nil hne
  have hc := hg c (List.mem_cons_self ..)
  -- the text up to its first blank
  have hspan : ∀ {s : Text} {d : Char} {t : Text}, (∀ x ∈ s, isBlank x = false) → isBlank d →
      (s ++ d :: t).takeWhile (!isBlank ·) = s := by
    intro s d t hs hd
    exact (takeWhile_append_of_head? (by simpa using hs) (by simp [hd])).1
  cases hk : b.keyword? with
  | none => simp [opens, hk]
  | some keyword =>
    have hsolid : ∀ x ∈ keyword.toList, isBlank x = false := by
      have : keyword.toList.all (!isBlank ·) := by cases b <;> cases hk <;> rfl
      simpa using this
    simp only [opens, hk, Option.any_some, Bool.and_eq_true, Option.map_some, Option.some.injEq]
    constructor
    · rintro ⟨hpre, hnext⟩
      obtain ⟨rest, hrest⟩ := List.isPrefixOf_iff_prefix.1 hpre
      rw [← hrest, ← String.length_toList, List.drop_left] at hnext
      cases rest with
      | nil => cases hnext
      | cons d ds =>
        have h1 := hspan (t := ds) hsolid (by simpa using hnext)
        rw [hrest, List.cons_append] at h1
        rw [← h1, hspan hw hc]
    · intro h
      rw [← String.length_toList, h]
      simp [Text.beginsWith, hc]

end Block

namespace LeadPieces

variable {lead indent word gap : Text}

/-- Trimming leaves the first word of a heading and the blanks after it. -/
theorem trim_append (h : LeadPieces lead indent word gap) {name : Text} (hname : Name.isName name)
    (trail : Text) : ∃ r, Text.trim (lead ++ (name ++ trail)) = word ++ (gap ++ r) := by
  refine ⟨name ++ trail.trimEnd, ?_⟩
  have htrim := Name.trimEnd_append hname (word ++ gap) trail
  rw [List.append_assoc, List.append_assoc] at htrim
  rw [Text.trim, h.trimStart_append, htrim]

/-- **The block that a heading opens depends on its first word only.** -/
theorem ofHeading?_trim (h : LeadPieces lead indent word gap) {name : Text}
    (hname : Name.isName name) (trail : Text) :
    Block.ofHeading? (Text.trim (lead ++ (name ++ trail))) =
      [Block.model, .enum, .type, .generator, .datasource].find?
        (fun b => b.keyword?.map String.toList == some word) := by
  obtain ⟨r, hr⟩ := h.trim_append hname trail
  unfold Block.ofHeading?
  congr 1
  funext b
  rw [hr, Bool.eq_iff_iff, Block.opens_append h.word_solid h.gap_ne_nil h.gap_blank]
  simp

theorem word_eq_keyword (h : LeadPieces lead indent word gap) {name : Text}
    (hname : Name.isName name) {trail : Text} {b : Block}
    (hb : Block.ofHeading? (Text.trim (lead ++ (name ++ trail))) = some b) :
    b.keyword?.map String.toList = some word := by
  rw [h.ofHeading?_trim hname] at hb
  simpa using List.find?_some hb

end LeadPieces

namespace Heading

variable {line : Text} {h : Heading} {b : Block}

theorem isName_keyword {word : Text} (hw : b.keyword?.map String.toList = some word) :
    Name.isName word := by
  cases b <;> cases hw <;> decide

/-- The tokens before the name of a heading. -/
theorem tokenize_text (hb : Block.ofHeading? line.trim = some b) (hp : parse? line = some h) :
    ∃ ts, concat ts = h.lead ∧ ∀ name, Name.isName name →
      tokenize (h.lead ++ (name ++ h.trail)) = ts ++ .name name :: tokenize h.trail := by
  obtain ⟨rfl, ⟨indent, word, gap, hlead⟩, hname, hstop, -⟩ := parse?_eq_some_iff.1 hp
  rw [text, List.append_assoc] at hb
  have hword := isName_keyword (hlead.word_eq_keyword hname hb)
  refine ⟨indentTokens indent ++ [.name word, .blanks gap], ?_, fun name hn => ?_⟩
  · simp [concat_indentTokens, Token.text, hlead.lead_eq]
  have hgap : (gap ++ (name ++ h.trail)).head?.any isBlank := by
    obtain ⟨c, cs, hgap⟩ := List.exists_cons_of_ne_nil hlead.gap_ne_nil
    simpa [hgap] using hlead.gap_blank c (hgap ▸ List.mem_cons_self ..)
  rw [tokenize_eq_append_trimStart, hlead.indent_append, hlead.trimStart_append,
    tokenize_name_append hword (not_isPart_head?_of_isBlank hgap),
    tokenize_blanks_append hlead.gap_ne_nil hlead.gap_blank (not_isBlank_head?_name_append hn h.trail),
    tokenize_name_append hn hstop]
  simp

end Heading

end Recase
