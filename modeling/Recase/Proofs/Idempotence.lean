import Recase.Proofs.ChangeLog

/-!
# The second pass

A schema that was recased stays as it is when it is recased again.  The second pass meets other lines
than the first, in other contexts: it does not see that a model was renamed, and it finds the
attributes that the first pass wrote.

* `Keeps ctx raw next` — the line stays as it is, and `next` is the context after it;
* `keeps_field`, `keeps_list` — lines that stay as they are, by their pieces;
* `Context.settled` — what the second pass knows where the first knew a context;
* `keeps_recaseHeading`, `keeps_recaseModelLine`, `keeps_recaseTypeLine` — the results of the first pass
  are such lines;
* `keepsLines_recaseLine`, `keepsLines_recaseLines` — what a step gives, and what all of them give.
-/

namespace Recase

open Token

/-! ### Lines that stay as they are -/

/-- In the context the line stays as it is, and `next` is the context of the line after it. -/
def Keeps (ctx : Context) (raw : Text) (next : Context) : Prop :=
  (recaseLine ctx raw).lines = [raw] ∧ (recaseLine ctx raw).next = next

theorem keeps_of_eq_keep {ctx next : Context} {raw : Text} (h : recaseLine ctx raw = .keep raw next) :
    Keeps ctx raw next := by
  rw [Keeps, h]
  exact ⟨rfl, rfl⟩

/-- What makes a field stay as it is: its tail does, and if its name is still in snake_case, then the
name does too and nothing is to be added. -/
structure FieldDecl.IsSettled (f : FieldDecl) : Prop where
  tail : (FieldTail.recase f.tail).text = f.tail
  name : Name.isSnake f.name → (Edit.mk .field f.name).result = f.name ∧
    ((FieldTail.recase f.tail).namesColumn || (FieldTail.recase f.tail).isRelation)

section Keeps

variable {raw line eol : Text}

theorem FieldDecl.IsSettled.recaseField {f : FieldDecl} (hf : f.IsSettled) (hs : Name.isSnake f.name)
    (eol : Text) (next : Context) :
    (recaseField f eol next).lines = [f.text ++ eol] ∧ (recaseField f eol next).next = next := by
  obtain ⟨hname, hnamed⟩ := hf.name hs
  refine ⟨?_, next_recaseField f eol next⟩
  simp only [Recase.recaseField, hname, hnamed, hf.tail, if_true, RecasedLine.lines]
  rfl

theorem keeps_field {f : FieldDecl} (hraw : splitReturn raw = (line, eol))
    (hparse : FieldDecl.parse? line = some f) (hf : f.IsSettled) :
    (∀ state, Keeps (.model state) raw (.model state)) ∧ Keeps .type raw .type := by
  have hbrace := FieldDecl.trim_ne_brace_of_parse? hparse
  have htable := FieldDecl.namesTable_of_parse? hparse
  have hlist := FieldDecl.listsFields_of_parse? hparse
  have htext := FieldDecl.text_of_parse? hparse
  obtain ⟨rfl, -⟩ := append_of_splitReturn hraw
  constructor
  · intro state
    rw [Keeps, recaseLine_of_splitReturn _ hraw, if_neg hbrace]
    simp only [recaseModelLine, htable, hlist, hparse, Bool.false_eq_true, if_false]
    split
    · next hs =>
      rw [← htext]
      exact hf.recaseField hs eol _
    · refine ⟨?_, rfl⟩
      rw [← htext, hf.tail]
      rfl
  · rw [Keeps, recaseLine_of_splitReturn _ hraw, if_neg hbrace]
    simp only [recaseTypeLine, hparse]
    split
    · next hs =>
      rw [← htext]
      exact hf.recaseField hs eol _
    · exact ⟨rfl, rfl⟩

theorem keeps_list (hraw : splitReturn raw = (line, eol)) (hbrace : line.trim ≠ ['}'])
    (htable : namesTable line = false) (hlist : listsFields line)
    (htext : (FieldList.recase line).text = line) (state : ModelState) :
    Keeps (.model state) raw (.model state) := by
  obtain ⟨rfl, -⟩ := append_of_splitReturn hraw
  rw [Keeps, recaseLine_of_splitReturn _ hraw, if_neg hbrace]
  simp [recaseModelLine, htable, hlist, htext, RecasedLine.lines]

end Keeps

/-! ### Fields -/

theorem head?_text_ofText {rule : List Token → Text → Option EditKind} (hrule : IsRule rule) (s : Text) :
    (RecasedText.ofText rule s).text.head?.any isBlank = s.head?.any isBlank := by
  have h := ((RecasedText.renames_ofText hrule s).isLexed_and_stops (isLexed_tokenize s)).2 (.blanks [])
  rw [concat_tokenize] at h
  simpa [stops, RecasedText.text] using h

theorem head?_textNamingColumn {r : RecasedText} (h : r.text.head?.any isBlank) (column : Text) :
    (r.textNamingColumn column).head?.any isBlank := by
  unfold RecasedText.textNamingColumn
  cases htrim : Text.trimEnd (concat r.body) with
  | nil => rfl
  | cons c cs =>
    -- what is left of the tail begins as the tail does
    obtain ⟨blanks, -, hbody⟩ := Text.exists_trimEnd_append (concat r.body)
    have hsplit : r.text = concat r.body ++ concat (r.tokens.dropWhile (!·.isComment)) := by
      rw [← concat_append, RecasedText.body, List.takeWhile_append_dropWhile]
      rfl
    rw [hsplit, hbody, htrim] at h
    simpa using h

/-- The field after renaming. -/
def FieldDecl.recased (f : FieldDecl) : FieldDecl where
  indent := f.indent
  name := (Edit.mk .field f.name).result
  tail := if (FieldTail.recase f.tail).namesColumn || (FieldTail.recase f.tail).isRelation then
    (FieldTail.recase f.tail).text else (FieldTail.recase f.tail).textNamingColumn f.name

theorem FieldDecl.tail_recased_of_named {f : FieldDecl}
    (h : (FieldTail.recase f.tail).namesColumn || (FieldTail.recase f.tail).isRelation) :
    f.recased.tail = (FieldTail.recase f.tail).text := if_pos h

theorem FieldDecl.tail_recased_of_not_named {f : FieldDecl}
    (h : ¬ ((FieldTail.recase f.tail).namesColumn || (FieldTail.recase f.tail).isRelation)) :
    f.recased.tail = (FieldTail.recase f.tail).textNamingColumn f.name := if_neg h

theorem line_recaseField (f : FieldDecl) (eol : Text) (next : Context) :
    (recaseField f eol next).line = f.recased.text ++ eol := by
  unfold recaseField FieldDecl.recased
  simp only
  split <;> rfl

theorem FieldTail.recase_text (s : Text) :
    (FieldTail.recase (FieldTail.recase s).text).tokens = (FieldTail.recase s).tokens :=
  RecasedText.tokens_ofText_text FieldTail.isRule s

section Fields

variable {line : Text} {f : FieldDecl}

theorem FieldDecl.parse?_text {name tail : Text} (hparse : FieldDecl.parse? line = some f)
    (hname : Name.isName name) (htail : tail.head?.any isBlank) :
    FieldDecl.parse? (FieldDecl.text ⟨f.indent, name, tail⟩) = some ⟨f.indent, name, tail⟩ := by
  obtain ⟨-, hne, hblank, -, -⟩ := FieldDecl.parse?_eq_some_iff.1 hparse
  exact FieldDecl.parse?_eq_some_iff.2 ⟨rfl, hne, hblank, hname, htail⟩

theorem FieldDecl.parse?_recased (hparse : FieldDecl.parse? line = some f) (hs : Name.isSnake f.name) :
    FieldDecl.parse? f.recased.text = some f.recased := by
  obtain ⟨-, -, -, -, htail⟩ := FieldDecl.parse?_eq_some_iff.1 hparse
  have hhead : (FieldTail.recase f.tail).text.head?.any isBlank := by
    rw [FieldTail.recase, head?_text_ofText FieldTail.isRule, htail]
  refine FieldDecl.parse?_text hparse (Edit.isName_result (isRename_field hs)) ?_
  split
  · exact hhead
  · exact head?_textNamingColumn hhead f.name

/-- The tail of a renamed field stays as it is, and it names the column or shows a relation. -/
theorem FieldDecl.recase_tail_recased (hs : Name.isSnake f.name)
    (hclosed : ∀ t ∈ tokenize f.tail, t.isUnclosed = false) :
    (FieldTail.recase f.recased.tail).text = f.recased.tail ∧
      ((FieldTail.recase f.recased.tail).namesColumn ||
        (FieldTail.recase f.recased.tail).isRelation) := by
  by_cases hnamed : (FieldTail.recase f.tail).namesColumn || (FieldTail.recase f.tail).isRelation
  · rw [FieldDecl.tail_recased_of_named hnamed, RecasedText.text, RecasedText.namesColumn,
      RecasedText.isRelation, FieldTail.recase_text]
    exact ⟨rfl, hnamed⟩
  · have htokens := FieldTail.tokens_recase_textNamingColumn hclosed (Name.isName_of_isSnake hs)
    rw [FieldDecl.tail_recased_of_not_named hnamed, RecasedText.text, RecasedText.namesColumn, htokens,
      FieldTail.namesColumn_tokensNamingColumn]
    exact ⟨concat_tokensNamingColumn (FieldTail.isLexed_recase f.tail)
      (FieldTail.isUnclosed_of_mem_recase hclosed), rfl⟩

/-- **A renamed field is settled.** -/
theorem FieldDecl.isSettled_recased (hs : Name.isSnake f.name)
    (hclosed : ∀ t ∈ tokenize f.tail, t.isUnclosed = false) : f.recased.IsSettled := by
  obtain ⟨htail, hnamed⟩ := FieldDecl.recase_tail_recased hs hclosed
  refine ⟨htail, fun h => ⟨?_, hnamed⟩⟩
  have hsame : f.recased.name = f.name := Edit.result_eq_of_isSnake (isRename_field hs) h
  rw [hsame]
  exact hsame

/-- A field that keeps its name is settled once the names in its tail are renamed. -/
theorem FieldDecl.isSettled_recase_tail (hs : Name.isSnake f.name = false) :
    (FieldDecl.mk f.indent f.name (FieldTail.recase f.tail).text).IsSettled := by
  refine ⟨?_, fun h => ?_⟩
  · rw [RecasedText.text, FieldTail.recase_text]
    rfl
  · rw [hs] at h
    cases h

end Fields

/-! ### Lists of fields -/

/-- The attribute of the line is not renamed: it stands after a mark, and outside of brackets. -/
theorem blockAttribute?_recase {line name : Text} (h : blockAttribute? line = some name) :
    blockAttribute? (FieldList.recase line).text = some name := by
  obtain ⟨indent, ts, hblank, htokens⟩ := blockAttribute?_eq_some_iff.1 h
  have hindent : ∀ s, .name s ∈ indentTokens indent → Name.isSnake s = false := by
    intro s hs
    unfold indentTokens at hs
    split at hs <;> simp at hs
  have hrule : ∀ before, FieldList.rule (.mark '@' :: before) name = none := by
    intro before
    simp [FieldList.rule, isAttributePosition]
  have hread : (FieldList.recase line).tokens = indentTokens indent ++ .mark '@' :: .mark '@' ::
      .name name :: (renameTokens FieldList.rule (.name name :: .mark '@' :: .mark '@' ::
        (indentTokens indent).reverse) ts).map (·.token) := by
    rw [FieldList.recase, RecasedText.ofText, htokens]
    simp only [renameTokens_append, List.map_append, List.append_nil]
    rw [map_token_renameTokens FieldList.isRule [] hindent,
      renameTokens_cons_of_not_isName rfl, renameTokens_cons_of_not_isName rfl, renameTokens_name, hrule]
    rfl
  have htext : tokenize (FieldList.recase line).text = (FieldList.recase line).tokens :=
    RecasedText.tokenize_text FieldList.isRule line
  exact blockAttribute?_eq_some_iff.2 ⟨indent, _, hblank, htext.trans hread⟩

/-! ### Lines that name tables -/

theorem tokenize_modelMapAttribute (name : Text) : ∃ ts,
    tokenize (modelMapAttribute name) = .mark '@' :: .mark '@' :: .name "map".toList :: ts := by
  refine ⟨tokenize ('(' :: '"' :: (name ++ ['"', ')'])), ?_⟩
  have hmap := tokenize_name_append (s := "map".toList) (r := '(' :: '"' :: (name ++ ['"', ')'])) rfl rfl
  have hmark : ∀ s, tokenize ('@' :: s) = .mark '@' :: tokenize s :=
    fun s => tokenize_text_append (t := .mark '@') rfl rfl
  rw [← hmap, ← hmark, ← hmark, modelMapAttribute_eq]
  simp

theorem trimStart_append_modelMapAttribute {indent : Text} (hblank : ∀ c ∈ indent, isBlank c)
    (name : Text) : Text.trimStart (indent ++ modelMapAttribute name) = modelMapAttribute name := by
  rw [Text.trimStart_append_blanks hblank, modelMapAttribute_eq]
  exact Text.trimStart_cons rfl _

/-- The line that the first pass puts above a brace is found by the second. -/
theorem namesTable_indent_append {indent : Text} (hblank : ∀ c ∈ indent, isBlank c) (name : Text) :
    namesTable (indent ++ modelMapAttribute name) := by
  obtain ⟨ts, hts⟩ := tokenize_modelMapAttribute name
  simp [namesTable, blockAttribute?, trimStart_append_modelMapAttribute hblank, hts]

theorem isBlank_of_mem_tableIndent (line : Text) : ∀ c ∈ line.indent ++ [' ', ' '], isBlank c := by
  intro c hc
  rcases List.mem_append.1 hc with hc | hc
  · exact Text.isBlank_of_mem_indent hc
  · simp only [List.mem_cons, List.not_mem_nil, or_false, or_self] at hc
    rw [hc]
    rfl

theorem splitReturn_tableLine {line eol : Text} (hend : IsEnding line eol) (name : Text) :
    splitReturn (tableLine line eol name) =
      (line.indent ++ [' ', ' '] ++ modelMapAttribute name, eol) := by
  refine splitReturn_append (hend.imp_right fun h => ⟨h.1, ?_⟩)
  simp [modelMapAttribute_eq, List.getLast?_append, List.getLast?_cons]

theorem keeps_tableLine {line eol : Text} (hend : IsEnding line eol) (name : Text)
    (state : ModelState) :
    Keeps (.model state) (tableLine line eol name) (.model { state with tableNamed := true }) := by
  have hraw := splitReturn_tableLine hend name
  have htable := namesTable_indent_append (isBlank_of_mem_tableIndent line) name
  have hbrace := trim_ne_brace_of_blockAttribute? (decide_eq_true_iff.1 htable)
  refine keeps_of_eq_keep ?_
  rw [recaseLine_of_splitReturn _ hraw, if_neg hbrace]
  simp only [recaseModelLine, htable, if_true, tableLine]

/-! ### What the second pass remembers -/

/-- What the second pass knows where the first knew the context: the models have their new names. -/
def Context.settled : Context → Context
  | .model state => .model { state with oldName? := none }
  | ctx => ctx

theorem Context.settled_enter (b : Block) (name? : Option Text) :
    (Context.enter b name?).settled = .enter b none := by
  cases b <;> rfl

/-- The ending of a line that was edited in place is found again. -/
theorem RecasedLine.InPlace.splitReturn {line eol out : Text} {r : RecasedLine} (h : r.InPlace line eol)
    (hend : IsEnding line eol) (hout : r.line = out ++ eol) :
    Recase.splitReturn (out ++ eol) = (out, eol) := by
  obtain ⟨-, out', hout', hreplays⟩ := h
  obtain rfl : out' = out := List.append_cancel_right (hout'.symm.trans hout)
  exact splitReturn_append (hreplays.isEnding hend)

/-! ### Headings -/

/-- A heading with another name is read with that name, and opens the same block. -/
theorem Heading.parse?_rename {line : Text} {h : Heading} (hparse : Heading.parse? line = some h)
    {name : Text} (hname : Name.isName name) :
    Heading.parse? (Heading.text { h with name }) = some { h with name } ∧
      Block.ofHeading? (Heading.text { h with name }).trim = Block.ofHeading? line.trim := by
  obtain ⟨rfl, ⟨indent, word, gap, hlead⟩, hold, hstop, htrail⟩ := Heading.parse?_eq_some_iff.1 hparse
  have hpieces : ∃ indent word gap, LeadPieces h.lead indent word gap := ⟨indent, word, gap, hlead⟩
  refine ⟨Heading.parse?_eq_some_iff.2 ⟨rfl, hpieces, hname, hstop, htrail⟩, ?_⟩
  rw [Heading.text, Heading.text, List.append_assoc, List.append_assoc, hlead.ofHeading?_trim hname,
    hlead.ofHeading?_trim hold]

theorem recaseLine_heading {raw line eol : Text} {b : Block} (hraw : splitReturn raw = (line, eol))
    (hb : Block.ofHeading? line.trim = some b) :
    recaseLine .topLevel raw = recaseHeading b line eol := by
  have hopen : closesBlock raw = false := closesBlock_of_ofHeading? (b := b) (by rwa [hraw])
  have hbrace : line.trim ≠ ['}'] := by simpa [closesBlock, hraw] using hopen
  rw [recaseLine_of_splitReturn _ hraw, if_neg hbrace]
  simp only [hb]

section SecondPass

variable {line eol : Text}

theorem keeps_recaseHeading {b : Block} (hb : Block.ofHeading? line.trim = some b)
    (hend : IsEnding line eol) :
    Keeps .topLevel (recaseHeading b line eol).line (recaseHeading b line eol).next.settled := by
  rw [next_recaseHeading, Context.settled_enter]
  have hplace : (recaseHeading b line eol).InPlace line eol := inPlace_recaseHeading hb
  rcases recaseHeading_cases b line eol with ⟨kind, heading, hkind, hparse, hs, heq⟩ | heq
  · rw [heq] at hplace ⊢
    have hrename := isRename_heading hkind hs
    obtain ⟨hparse', hb'⟩ := Heading.parse?_rename hparse (Edit.isName_result hrename)
    have hsecond := recaseLine_heading (hplace.splitReturn hend rfl) (hb'.trans hb)
    rcases recaseHeading_cases b
      (Heading.text { heading with name := (Edit.mk kind heading.name).result }) eol
      with ⟨kind', heading', hkind', hread, hs', heq'⟩ | heq'
    · -- the new name is still in snake_case, so it is the old one, and the block is no model
      obtain rfl : kind = kind' := Option.some.inj (hkind.symm.trans hkind')
      obtain rfl := Option.some.inj (hparse'.symm.trans hread)
      have hsame : (Edit.mk kind heading.name).result = heading.name :=
        Edit.result_eq_of_isSnake hrename hs'
      rw [Keeps, hsecond, heq']
      simp only [hsame, RecasedLine.lines]
      refine ⟨rfl, ?_⟩
      cases b with
      | model =>
        cases hkind
        rw [show (Edit.mk .model heading.name).result = Name.pascal heading.name from rfl] at hs'
        rw [Name.not_isSnake_pascal hs] at hs'
        cases hs'
      | _ => rfl
    · exact keeps_of_eq_keep (hsecond.trans heq')
  · rw [heq]
    exact keeps_of_eq_keep ((recaseLine_heading (splitReturn_append hend) hb).trans heq)

/-! ### Lines of models and types -/

theorem FieldDecl.isUnclosed_of_mem_tail {f : FieldDecl} (hparse : FieldDecl.parse? line = some f)
    (hclosed : ∀ t ∈ tokenize line, t.isUnclosed = false) :
    ∀ t ∈ tokenize f.tail, t.isUnclosed = false := by
  intro t ht
  refine hclosed t ?_
  rw [FieldDecl.tokenize_text hparse]
  exact List.mem_cons_of_mem _ (List.mem_cons_of_mem _ ht)

theorem keeps_recaseField {f : FieldDecl} (hparse : FieldDecl.parse? line = some f)
    (hs : Name.isSnake f.name) (hclosed : ∀ t ∈ tokenize line, t.isUnclosed = false)
    (hend : IsEnding line eol) (next : Context) :
    (∀ state, Keeps (.model state) (recaseField f eol next).line (.model state)) ∧
      Keeps .type (recaseField f eol next).line .type := by
  have hplace : (recaseField f eol next).InPlace line eol := inPlace_recaseField hparse hs next
  have hsettled := FieldDecl.isSettled_recased hs (FieldDecl.isUnclosed_of_mem_tail hparse hclosed)
  have hline := line_recaseField f eol next
  rw [hline]
  exact keeps_field (hplace.splitReturn hend hline) (FieldDecl.parse?_recased hparse hs) hsettled

/-- A line that lists fields has the same attribute after renaming, and its names stay. -/
theorem keeps_recaseList (htable : namesTable line = false) (hlist : listsFields line)
    (hend : IsEnding line eol) (state state' : ModelState) :
    Keeps (.model state) (recaseModelLine state' line eol).line (.model state) := by
  have hplace : (recaseModelLine state' line eol).InPlace line eol := inPlace_recaseModelLine state'
  have hline : (recaseModelLine state' line eol).line = (FieldList.recase line).text ++ eol := by
    simp [recaseModelLine, htable, hlist]
  obtain ⟨name, hname⟩ : ∃ name, blockAttribute? line = some name := by
    cases h : blockAttribute? line with
    | none => simp [listsFields, h] at hlist
    | some name => exact ⟨name, rfl⟩
  have hread := blockAttribute?_recase hname
  have htext : (FieldList.recase (FieldList.recase line).text).text = (FieldList.recase line).text :=
    congrArg concat (RecasedText.tokens_ofText_text FieldList.isRule line)
  rw [hline]
  refine keeps_list (hplace.splitReturn hend hline) (trim_ne_brace_of_blockAttribute? hread) ?_ ?_
    htext state
  · simpa [namesTable, hread, hname] using htable
  · simpa [listsFields, hread, hname] using hlist

theorem keeps_recaseModelLine (state : ModelState) (hbrace : line.trim ≠ ['}'])
    (hclosed : ∀ t ∈ tokenize line, t.isUnclosed = false) (hend : IsEnding line eol) :
    Keeps (Context.model state).settled (recaseModelLine state line eol).line
      (recaseModelLine state line eol).next.settled := by
  have hraw := splitReturn_append hend
  by_cases htable : namesTable line
  · refine keeps_of_eq_keep ?_
    simp [recaseModelLine, htable, Context.settled, recaseLine_of_splitReturn _ hraw, hbrace,
      RecasedLine.keep]
  have hnext : (recaseModelLine state line eol).next = .model state := by
    rw [next_recaseModelLine, eq_false_of_ne_true htable, Bool.or_false]
  rw [hnext]
  by_cases hlist : listsFields line
  · exact keeps_recaseList (eq_false_of_ne_true htable) hlist hend _ state
  cases hparse : FieldDecl.parse? line with
  | none =>
    refine keeps_of_eq_keep ?_
    simp [recaseModelLine, htable, hlist, hparse, Context.settled, recaseLine_of_splitReturn _ hraw,
      hbrace, RecasedLine.keep]
  | some f =>
    by_cases hs : Name.isSnake f.name
    · have heq : recaseModelLine state line eol = recaseField f eol (.model state) := by
        simp [recaseModelLine, htable, hlist, hparse, hs]
      rw [heq]
      exact (keeps_recaseField hparse hs hclosed hend _).1 _
    · -- only the tail is renamed
      obtain ⟨-, -, -, hname, htail⟩ := FieldDecl.parse?_eq_some_iff.1 hparse
      have hplace : (recaseModelLine state line eol).InPlace line eol := inPlace_recaseModelLine state
      have hline : (recaseModelLine state line eol).line =
          (FieldDecl.mk f.indent f.name (FieldTail.recase f.tail).text).text ++ eol := by
        simp [recaseModelLine, htable, hlist, hparse, hs, FieldDecl.text]
      rw [hline]
      refine (keeps_field (hplace.splitReturn hend hline) (FieldDecl.parse?_text hparse hname ?_)
        (FieldDecl.isSettled_recase_tail (eq_false_of_ne_true hs))).1 _
      rw [FieldTail.recase, head?_text_ofText FieldTail.isRule, htail]

theorem keeps_recaseTypeLine (hbrace : line.trim ≠ ['}'])
    (hclosed : ∀ t ∈ tokenize line, t.isUnclosed = false) (hend : IsEnding line eol) :
    Keeps .type (recaseTypeLine line eol).line (recaseTypeLine line eol).next.settled := by
  rw [next_recaseTypeLine]
  -- a line that is kept is kept again
  have hkeep : recaseTypeLine line eol = .keep (line ++ eol) .type →
      Keeps .type (recaseTypeLine line eol).line .type := by
    intro heq
    rw [heq]
    show Keeps .type (line ++ eol) .type
    refine keeps_of_eq_keep ?_
    rw [recaseLine_of_splitReturn _ (splitReturn_append hend), if_neg hbrace]
    exact heq
  cases hparse : FieldDecl.parse? line with
  | none => exact hkeep (by simp [recaseTypeLine, hparse])
  | some f =>
    by_cases hs : Name.isSnake f.name
    · have heq : recaseTypeLine line eol = recaseField f eol .type := by
        simp [recaseTypeLine, hparse, hs]
      rw [heq]
      exact (keeps_recaseField hparse hs hclosed hend _).2
    · exact hkeep (by simp [recaseTypeLine, hparse, hs])

end SecondPass

/-! ### All lines -/

theorem keeps_closing {ctx : Context} {raw line eol : Text} (hraw : splitReturn raw = (line, eol))
    (hbrace : line.trim = ['}']) (hctx : ∀ name, ctx ≠ .model ⟨some name, false⟩) :
    Keeps ctx raw .topLevel := by
  refine keeps_of_eq_keep ?_
  rw [recaseLine_of_splitReturn _ hraw, if_pos hbrace, (append_of_splitReturn hraw).1]
  rcases recaseClosing_cases ctx line eol with ⟨name, h, -⟩ | heq
  · exact absurd h (hctx name)
  · exact heq

/-- The lines stay as they are, and `next` is the context after them. -/
def KeepsLines (ctx : Context) (lines : List Text) (next : Context) : Prop :=
  (recaseLines ctx lines).flatMap RecasedLine.lines = lines ∧ contextAfter ctx lines = next

section KeepsLines

variable {ctx mid next : Context}

theorem Keeps.cons {raw : Text} {lines : List Text} (h : Keeps ctx raw mid)
    (hrest : KeepsLines mid lines next) : KeepsLines ctx (raw :: lines) next := by
  obtain ⟨hlines, rfl⟩ := h
  refine ⟨?_, ?_⟩
  · rw [recaseLines, List.flatMap_cons, hlines, hrest.1]
    rfl
  · rw [contextAfter_cons, ← next_recaseLine]
    exact hrest.2

theorem Keeps.singleton {raw : Text} (h : Keeps ctx raw next) : KeepsLines ctx [raw] next :=
  h.cons ⟨rfl, rfl⟩

theorem KeepsLines.append {as bs : List Text} (has : KeepsLines ctx as mid)
    (hbs : KeepsLines mid bs next) : KeepsLines ctx (as ++ bs) next := by
  obtain ⟨has, rfl⟩ := has
  refine ⟨?_, ?_⟩
  · rw [recaseLines_append, List.flatMap_append, has, hbs.1]
  · rw [contextAfter_append, hbs.2]

end KeepsLines

/-- **What a step gives stays as it is.** -/
theorem keepsLines_recaseLine (ctx : Context) {raw : Text}
    (hclosed : ∀ t ∈ tokenize (splitReturn raw).1, t.isUnclosed = false) :
    KeepsLines ctx.settled (recaseLine ctx raw).lines (recaseLine ctx raw).next.settled := by
  rcases hraw : splitReturn raw with ⟨line, eol⟩
  rw [hraw] at hclosed
  obtain ⟨hsplit, hend⟩ := append_of_splitReturn hraw
  -- two lines come from the brace of a model, all others give one
  rcases recaseLine_cases ctx hraw with ⟨name, hbrace, rfl, heq⟩ | ⟨habove, -⟩
  · rw [heq, RecasedLine.lines, ← hsplit]
    refine (keeps_tableLine hend name ⟨none, false⟩).cons (Keeps.singleton ?_)
    exact keeps_closing hraw hbrace (by simp)
  rw [RecasedLine.lines, habove]
  refine Keeps.singleton ?_
  rw [recaseLine_of_splitReturn ctx hraw] at habove ⊢
  split at habove
  · next hbrace =>
    rw [if_pos hbrace]
    rcases recaseClosing_cases ctx line eol with ⟨name, -, heq⟩ | heq
    · rw [heq] at habove
      cases habove
    · rw [heq, RecasedLine.keep, ← hsplit]
      refine keeps_closing hraw hbrace fun name => ?_
      cases ctx <;> simp [Context.settled]
  next hbrace =>
  rw [if_neg hbrace]
  have hkeep : ∀ ctx' : Context, recaseLine ctx' raw = .keep (line ++ eol) ctx' →
      Keeps ctx' (line ++ eol) ctx' := by
    rw [← hsplit]
    exact fun _ => keeps_of_eq_keep
  cases ctx with
  | topLevel =>
    cases hb : Block.ofHeading? line.trim with
    | some b => exact keeps_recaseHeading hb hend
    | none =>
      refine hkeep .topLevel ?_
      rw [recaseLine_of_splitReturn _ hraw, if_neg hbrace]
      simp only [hb]
  | model state => exact keeps_recaseModelLine state hbrace hclosed hend
  | type => exact keeps_recaseTypeLine hbrace hclosed hend
  | enum | generator | datasource =>
    refine hkeep _ ?_
    rw [recaseLine_of_splitReturn _ hraw, if_neg hbrace]
    rfl

theorem keepsLines_recaseLines (ctx : Context) {lines : List Text}
    (hclosed : ∀ raw ∈ lines, ∀ t ∈ tokenize (splitReturn raw).1, t.isUnclosed = false) :
    KeepsLines ctx.settled ((recaseLines ctx lines).flatMap RecasedLine.lines)
      (contextAfter ctx lines).settled := by
  induction lines generalizing ctx with
  | nil => exact ⟨rfl, rfl⟩
  | cons raw lines ih =>
    obtain ⟨hraw, hlines⟩ := List.forall_mem_cons.1 hclosed
    rw [recaseLines, List.flatMap_cons, contextAfter_cons, ← next_recaseLine]
    exact (keepsLines_recaseLine ctx hraw).append (ih _ hlines)

/-- **A schema that was recased stays as it is.**  The schema may be any text in which no line has a
string literal without its closing quote: such a literal would swallow an attribute put behind it. -/
theorem output_recase_output (schema : Text)
    (hclosed : ∀ raw ∈ schema.split '\n', ∀ t ∈ tokenize (splitReturn raw).1, t.isUnclosed = false) :
    (recase (recase schema).output).output = (recase schema).output := by
  have hkeeps := (keepsLines_recaseLines .topLevel hclosed).1
  rw [← split_output] at hkeeps
  calc (recase (recase schema).output).output
      = Text.join '\n' ((recase schema).output.split '\n') := congrArg (Text.join '\n') hkeeps
    _ = (recase schema).output := List.intercalate_splitOn '\n'

/-- A schema with a name that stays in snake_case, a quote in a comment and an escaped one. -/
def userLog : Text :=
  "model user_log \x7b\n  a_1 Int // \"id\r\n".toList ++
  "  log_text String @default(\"x\\\"y\") \n  @@index([log_text, a_1])\n\x7d".toList

theorem output_recase_output_userLog :
    (∀ raw ∈ userLog.split '\n', ∀ t ∈ tokenize (splitReturn raw).1, t.isUnclosed = false) ∧
      (recase userLog).changed ∧
      (recase (recase userLog).output).output = (recase userLog).output :=
  ⟨by decide +kernel, by decide +kernel, output_recase_output userLog (by decide +kernel)⟩

end Recase
