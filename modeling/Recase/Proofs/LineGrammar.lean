import Recase.Proofs.Lines

/-!
# The grammar of lines

Which lines are headings and which are fields, said without a reader.  A heading is told by its characters,
cut into pieces; a field is told by its tokens.

* `LeadPieces`, `TrailPieces` — what stands before and after the name of a heading;
* `Heading.isTrail_iff` — the reader goes as far as it can, and no other way to cut would get further;
* `Heading.parse?_grammar` — the lines that are read as headings, each with its pieces;
* `head?_isBlank_iff_tokenize` — a text begins with a blank iff its first token is one of blanks;
* `FieldDecl.parse?_tokens` — the reader of fields and the tokens of a line agree.
-/

namespace Recase

open Token

/-! ### Headings -/

/-- The pieces of a heading after its name: blanks, a brace or none, blanks, a comment or nothing. -/
structure TrailPieces (trail before brace after comment : Text) : Prop where
  trail_eq : trail = before ++ (brace ++ (after ++ comment))
  before_blank : ∀ c ∈ before, isBlank c
  brace_eq : brace = [] ∨ brace = ['{']
  after_blank : ∀ c ∈ after, isBlank c
  comment_eq : comment = [] ∨ ['/', '/'] <+: comment

namespace Heading

/-- Trimming stops where a comment begins. -/
theorem trimStart_comment {comment : Text} (h : comment = [] ∨ ['/', '/'] <+: comment) :
    comment.trimStart = comment := by
  rcases h with rfl | ⟨rest, rfl⟩
  · rfl
  · exact Text.trimStart_cons (by decide) _

/-- **The texts that may follow the name of a heading.** -/
theorem isTrail_iff {s : Text} :
    isTrail s ↔ ∃ before brace after comment, TrailPieces s before brace after comment := by
  have hcomment : ∀ r : Text, (r.isEmpty || r.beginsWith ['/', '/']) ↔ r = [] ∨ ['/', '/'] <+: r := by
    intro r
    simp [Text.beginsWith]
  unfold isTrail
  constructor
  · intro h
    split at h
    · next cs hcs =>
      refine ⟨s.indent, ['{'], Text.indent cs, Text.trimStart cs, ⟨?_, fun c => Text.isBlank_of_mem_indent,
        Or.inr rfl, fun c => Text.isBlank_of_mem_indent, (hcomment _).1 h⟩⟩
      rw [Text.indent_append_trimStart, List.singleton_append, ← hcs, Text.indent_append_trimStart]
    · refine ⟨s.indent, [], [], s.trimStart, ⟨?_, fun c => Text.isBlank_of_mem_indent, Or.inl rfl,
        by simp, (hcomment _).1 h⟩⟩
      simp
  · rintro ⟨before, brace, after, comment, rfl, hbefore, hbrace, hafter, hend⟩
    have hstop := trimStart_comment hend
    rw [Text.trimStart_append_blanks hbefore]
    rcases hbrace with rfl | rfl
    · -- without a brace the blanks before and after it are one run
      rw [List.nil_append, Text.trimStart_append_blanks hafter, hstop]
      split
      · next cs => rcases hend with h | ⟨rest, h⟩ <;> cases h
      · exact (hcomment comment).2 hend
    · rw [List.singleton_append, Text.trimStart_cons (by decide)]
      simp only
      rw [Text.trimStart_append_blanks hafter, hstop]
      exact (hcomment comment).2 hend

/-- **The lines that are read as headings.**  Before the name stand blanks, a word of anything but blanks and
blanks again; behind it, where the name cannot go on, blanks with or without a brace among them, and then a
comment or nothing.  The pieces that are read are the only ones that the line has. -/
theorem parse?_grammar (line : Text) (h : Heading) : parse? line = some h ↔
    line = h.lead ++ h.name ++ h.trail ∧
    (∃ indent word gap, LeadPieces h.lead indent word gap) ∧
    Name.isName h.name ∧
    h.trail.head?.any Name.isPart = false ∧
    ∃ before brace after comment, TrailPieces h.trail before brace after comment := by
  rw [parse?_eq_some_iff, isTrail_iff, text]

end Heading

/-! ### Fields -/

theorem head?_isBlank_iff_tokenize {s : Text} :
    s.head?.any isBlank ↔ ∃ gap ts, tokenize s = .blanks gap :: ts := by
  constructor
  · intro h
    cases s with
    | nil => cases h
    | cons c cs =>
      have hne : Text.indent (c :: cs) ≠ [] := by simpa [Text.indent] using h
      exact ⟨_, _, by rw [tokenize_eq_append_trimStart, indentTokens, if_neg hne]; rfl⟩
  · rintro ⟨gap, ts, hread⟩
    have hlexed := isLexed_tokenize s
    rw [hread] at hlexed
    obtain ⟨hne, hblank⟩ : gap ≠ [] ∧ ∀ c ∈ gap, isBlank c := by simpa [isFormed] using hlexed.1
    obtain ⟨c, cs, rfl⟩ := List.exists_cons_of_ne_nil hne
    rw [← concat_tokenize s, hread]
    exact hblank c (List.mem_cons_self ..)

namespace FieldDecl

/-- The tokens of a line determine the field on it. -/
theorem parse?_of_tokenize {line : Text} {f : FieldDecl}
    (hline : tokenize line = .blanks f.indent :: .name f.name :: tokenize f.tail)
    (htail : f.tail.head?.any isBlank) : parse? line = some f := by
  have hlexed := isLexed_tokenize line
  rw [hline] at hlexed
  obtain ⟨hindent, -, hname, -, -⟩ := hlexed
  obtain ⟨hne, hblank⟩ : f.indent ≠ [] ∧ ∀ c ∈ f.indent, isBlank c := by
    simpa [isFormed] using hindent
  have htext : line = f.text := by
    rw [← concat_tokenize line, hline]
    simp [Token.text, FieldDecl.text]
  exact parse?_eq_some_iff.2 ⟨htext, hne, hblank, hname, htail⟩

/-- **A line is read as a field iff its tokens are blanks, a name, and those of a rest that begins with
blanks.**  The pieces are the line, and a name in snake_case can be replaced by its camelCase in it. -/
theorem parse?_tokens (line : Text) (f : FieldDecl) :
    (parse? line = some f ↔
      tokenize line = .blanks f.indent :: .name f.name :: tokenize f.tail ∧
        ∃ gap ts, tokenize f.tail = .blanks gap :: ts) ∧
    (parse? line = some f → f.indent ++ f.name ++ f.tail = line ∧
      (Name.isSnake f.name → parse? (f.indent ++ Name.camel f.name ++ f.tail) =
        some ⟨f.indent, Name.camel f.name, f.tail⟩)) := by
  refine ⟨⟨fun h => ?_, fun ⟨hline, htail⟩ => ?_⟩, fun h => ⟨text_of_parse? h, fun hs => ?_⟩⟩
  · obtain ⟨-, -, -, -, htail⟩ := parse?_eq_some_iff.1 h
    exact ⟨tokenize_text h, head?_isBlank_iff_tokenize.1 htail⟩
  · exact parse?_of_tokenize hline (head?_isBlank_iff_tokenize.2 htail)
  · obtain ⟨-, hne, hblank, -, htail⟩ := parse?_eq_some_iff.1 h
    exact parse?_eq_some_iff.2 ⟨rfl, hne, hblank, Name.isName_camel hs, htail⟩

/-- A field that is indented and cut by blanks other than spaces. -/
def widelySpaced : FieldDecl := ⟨"\t ".toList, "log_1_id".toList, "\u3000Int?// id".toList⟩

theorem parse?_tokens_widelySpaced :
    parse? widelySpaced.text = some widelySpaced ∧
    tokenize widelySpaced.text =
      .blanks widelySpaced.indent :: .name widelySpaced.name :: tokenize widelySpaced.tail ∧
    parse? (widelySpaced.indent ++ "log_1Id".toList ++ widelySpaced.tail) =
      some { widelySpaced with name := "log_1Id".toList } := by
  have hparse : parse? widelySpaced.text = some widelySpaced := by decide +kernel
  have hcamel : Name.camel widelySpaced.name = "log_1Id".toList := by decide +kernel
  obtain ⟨hiff, hrest⟩ := parse?_tokens widelySpaced.text widelySpaced
  have hrenamed := (hrest hparse).2 (by decide +kernel)
  rw [hcamel] at hrenamed
  exact ⟨hparse, (hiff.1 hparse).1, hrenamed⟩

end FieldDecl

end Recase
