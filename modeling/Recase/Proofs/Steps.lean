import Recase.Proofs.ColumnNames
import Recase.Proofs.Lines

/-!
# One step of a recasing

Everything that can happen to a line, said once.  A line either closes a renamed model, and then a line
is put above it, or it is edited in place.  `Replays line edits out` describes an edit in place by
the line, its edits and the result alone: the edits that rename are made at names of the line, from left
to right, and an attribute may follow.

* `recaseLine_cases`, `mem_lines_recaseLine` — the two cases;
* `Context.after`, `next_recaseLine` — the context that a line leaves behind;
* `getElem?_recaseLines` — the step at a line, in the context of the lines before it;
* `split_output` — the lines of the output are those of the steps.
-/

namespace Recase

open Token

/-! ### Editing in place -/

/-- The text of the tokens with an attribute after the last of them and before the comment. -/
def withAttribute (us : List Token) (added : Text) : Text :=
  Text.trimEnd (concat (us.takeWhile (!·.isComment))) ++ ' ' :: added ++
    match us.find? (·.isComment) with
    | some t => ' ' :: t.text.trimEnd
    | none => []

/-- What the edits of a line say about the line and its result.  Names are renamed, and a renamed field
may get an attribute with the name that it had. -/
inductive Replays (line : Text) : List Edit → Text → Prop
  | renamed {es : List Edit} {us : List Token} (h : Renames (tokenize line) es us) :
      Replays line es (concat us)
  | mapped {name : Text} {es : List Edit} {us : List Token}
      (h : Renames (tokenize line) (⟨.field, name⟩ :: es) us) :
      Replays line (⟨.field, name⟩ :: es ++ [⟨.fieldMap, name⟩])
        (withAttribute us (Edit.result ⟨.fieldMap, name⟩))

theorem replays_self (line : Text) : Replays line [] line := by
  have := Replays.renamed (Renames.refl (tokenize line))
  rwa [concat_tokenize] at this

theorem withAttribute_cons {indent name : Text} (hn : Name.isName name) (ts : List Token)
    (added : Text) :
    withAttribute (.blanks indent :: .name name :: ts) added =
      indent ++ (name ++ withAttribute ts added) := by
  simp [withAttribute, isComment, text, Name.trimEnd_append hn]

section Replays

variable {line out : Text} {es : List Edit}

theorem mem_withAttribute {c : Char} {us : List Token} {added : Text}
    (h : c ∈ withAttribute us added) : c ∈ concat us ∨ c = ' ' ∨ c ∈ added := by
  simp only [withAttribute, List.mem_append, List.mem_cons] at h
  rcases h with (h | h) | h
  · have hsub : concat (us.takeWhile (!·.isComment)) ⊆ concat us := by
      conv_rhs => rw [← List.takeWhile_append_dropWhile (p := (!·.isComment)) (l := us),
        concat_append]
      exact List.subset_append_left _ _
    exact Or.inl (hsub (Text.mem_of_mem_trimEnd h))
  · exact Or.inr h
  · cases hfind : us.find? (·.isComment) with
    | none => simp [hfind] at h
    | some t =>
      simp only [hfind, List.mem_cons] at h
      refine h.elim (fun h => Or.inr (Or.inl h)) fun h => Or.inl ?_
      exact List.mem_flatMap.2 ⟨t, List.mem_of_find?_eq_some hfind, Text.mem_of_mem_trimEnd h⟩

/-- A character that is none of names, blanks and attributes is not added to a line. -/
theorem Replays.not_mem (h : Replays line es out) {c : Char} (hpart : Name.isPart c = false)
    (hspace : c ≠ ' ') (hadded : c ∉ fieldMapAttribute []) (hline : c ∉ line) : c ∉ out := by
  cases h with
  | renamed h => exact h.not_mem_concat hpart (by rwa [concat_tokenize])
  | @mapped name es us h =>
    intro hmem
    rcases mem_withAttribute hmem with hmem | hmem | hmem
    · exact h.not_mem_concat hpart (by rwa [concat_tokenize]) hmem
    · exact hspace hmem
    · have hname := Edit.isName_name (h.isRename_of_mem _ (List.mem_cons_self ..))
      have := Name.not_mem_of_isName hname hpart
      simp only [Edit.result, fieldMapAttribute_eq, List.append_nil, List.mem_append, not_or] at *
      tauto

theorem getLast?_withAttribute {us : List Token} {added : Text} (hadded : added ≠ []) :
    ∀ c ∈ (withAttribute us added).getLast?, c = added.getLast hadded ∨ c = ' ' ∨ isBlank c = false := by
  intro c hc
  unfold withAttribute at hc
  cases hfind : us.find? (·.isComment) with
  | none =>
    simp only [hfind, List.append_nil, List.getLast?_append, List.getLast?_cons,
      List.getLast?_eq_some_getLast hadded] at hc
    exact Or.inl (by simpa using hc.symm)
  | some t =>
    simp only [hfind, List.getLast?_append, List.getLast?_cons, Option.some_or] at hc
    right
    cases hlast : t.text.trimEnd.getLast? with
    | none => exact Or.inl (by simpa [hlast] using hc.symm)
    | some d =>
      obtain rfl : d = c := by simpa [hlast] using hc
      exact Or.inr (Text.getLast?_trimEnd _ _ hlast)

/-- The ending of a line is that of its result. -/
theorem Replays.isEnding (h : Replays line es out) {eol : Text} (hend : IsEnding line eol) :
    IsEnding out eol := by
  rcases hend with rfl | ⟨rfl, hline⟩
  · exact Or.inl rfl
  refine Or.inr ⟨rfl, fun hout => hline ?_⟩
  cases h with
  | renamed h =>
    rcases h.getLast?_concat with hsame | ⟨c, d, hc, -, hpart, -⟩
    · rwa [hsame, concat_tokenize] at hout
    · rw [hc] at hout
      cases hout
      cases hpart
  | @mapped name es us h =>
    have hne : fieldMapAttribute name ≠ [] := by simp [fieldMapAttribute_eq]
    have hlast : (fieldMapAttribute name).getLast hne = ')' := by simp [fieldMapAttribute_eq]
    rcases getLast?_withAttribute hne '\r' hout with h | h | h
    · rw [hlast] at h
      cases h
    · cases h
    · cases h

end Replays

/-- The line was edited in place: nothing was put above it, and its ending stayed. -/
def RecasedLine.InPlace (line eol : Text) (r : RecasedLine) : Prop :=
  r.above = none ∧ ∃ out, r.line = out ++ eol ∧ Replays line r.edits out

section InPlace

variable {line eol : Text}

theorem inPlace_keep (next : Context) : (RecasedLine.keep (line ++ eol) next).InPlace line eol :=
  ⟨rfl, line, rfl, replays_self line⟩

theorem isRename_heading {b : Block} {kind : EditKind} {name : Text} (hkind : b.headingKind? = some kind)
    (hs : Name.isSnake name) : (Edit.mk kind name).isRename := by
  cases b <;> cases hkind <;> simp [Edit.isRename, EditKind.casing?, hs]

theorem isRename_field {name : Text} (hs : Name.isSnake name) : (Edit.mk .field name).isRename := by
  simp [Edit.isRename, EditKind.casing?, hs]

/-- A heading gets a new name or stays as it is. -/
theorem recaseHeading_cases (b : Block) (line eol : Text) :
    (∃ kind heading, b.headingKind? = some kind ∧ Heading.parse? line = some heading ∧
      Name.isSnake heading.name ∧ recaseHeading b line eol =
        ⟨none, Heading.text { heading with name := (Edit.mk kind heading.name).result } ++ eol,
          [⟨kind, heading.name⟩], .enter b (some heading.name)⟩) ∨
    recaseHeading b line eol = .keep (line ++ eol) (.enter b none) := by
  unfold recaseHeading
  split
  · next kind heading hkind hparse =>
    split
    · next hs => exact Or.inl ⟨kind, heading, hkind, hparse, hs, rfl⟩
    · exact Or.inr rfl
  · exact Or.inr rfl

theorem inPlace_recaseHeading {b : Block} (hb : Block.ofHeading? line.trim = some b) :
    (recaseHeading b line eol).InPlace line eol := by
  rcases recaseHeading_cases b line eol with ⟨kind, heading, hkind, hparse, hs, heq⟩ | heq <;> rw [heq]
  · obtain ⟨ts, hts, hread⟩ := Heading.tokenize_text hb hparse
    have hline := Heading.text_of_parse? hparse
    refine ⟨rfl, _, rfl, ?_⟩
    have htokens : tokenize line = ts ++ .name heading.name :: tokenize heading.trail := by
      rw [← hread _ (Name.isName_of_isSnake hs), ← hline, Heading.text, List.append_assoc]
    have hrenames := (Renames.refl ts).append
      (Renames.rename (isRename_heading hkind hs) (Renames.refl (tokenize heading.trail)))
    rw [← htokens] at hrenames
    have := Replays.renamed hrenames
    simpa [hts, text, Heading.text] using this
  · exact inPlace_keep _

theorem inPlace_recaseField {f : FieldDecl} (hf : FieldDecl.parse? line = some f)
    (hsnake : Name.isSnake f.name) (next : Context) :
    (recaseField f eol next).InPlace line eol := by
  have hrename := isRename_field hsnake
  have hrenames := Renames.keep (.blanks f.indent)
    (Renames.rename hrename (RecasedText.renames_ofText FieldTail.isRule f.tail))
  rw [← FieldDecl.tokenize_text hf] at hrenames
  unfold recaseField
  simp only
  split
  · refine ⟨rfl, f.indent ++ ((Edit.mk .field f.name).result ++ (FieldTail.recase f.tail).text), ?_, ?_⟩
    · simp
    · have := Replays.renamed hrenames
      rwa [concat_cons, concat_cons] at this
  · refine ⟨rfl, f.indent ++ ((Edit.mk .field f.name).result ++
      (FieldTail.recase f.tail).textNamingColumn f.name), ?_, ?_⟩
    · simp
    · have := Replays.mapped hrenames
      rwa [withAttribute_cons (Edit.isName_result hrename)] at this

theorem inPlace_recaseModelLine (state : ModelState) :
    (recaseModelLine state line eol).InPlace line eol := by
  unfold recaseModelLine
  split
  · exact inPlace_keep _
  split
  · exact ⟨rfl, _, rfl, .renamed (RecasedText.renames_ofText FieldList.isRule line)⟩
  split
  · exact inPlace_keep _
  next f hf =>
  split
  · next hsnake => exact inPlace_recaseField hf hsnake _
  · have hrenames := Renames.keep (.blanks f.indent)
      (Renames.keep (.name f.name) (RecasedText.renames_ofText FieldTail.isRule f.tail))
    rw [← FieldDecl.tokenize_text hf] at hrenames
    refine ⟨rfl, f.indent ++ (f.name ++ (FieldTail.recase f.tail).text), by simp, ?_⟩
    have := Replays.renamed hrenames
    rwa [concat_cons, concat_cons] at this

theorem inPlace_recaseTypeLine : (recaseTypeLine line eol).InPlace line eol := by
  unfold recaseTypeLine
  split
  · exact inPlace_keep _
  next f hf =>
  split
  · next hsnake => exact inPlace_recaseField hf hsnake _
  · exact inPlace_keep _

end InPlace

/-! ### The two cases -/

/-- The line that names the table of a model, with the indentation and the ending of the brace
below it. -/
def tableLine (line eol name : Text) : Text :=
  line.indent ++ [' ', ' '] ++ modelMapAttribute name ++ eol

variable {raw line eol : Text}

theorem recaseLine_of_splitReturn (ctx : Context) (h : splitReturn raw = (line, eol)) :
    recaseLine ctx raw =
      if line.trim = ['}'] then recaseClosing ctx line eol
      else match ctx with
        | .topLevel =>
          match Block.ofHeading? line.trim with
          | some b => recaseHeading b line eol
          | none => .keep (line ++ eol) ctx
        | .model state => recaseModelLine state line eol
        | .type => recaseTypeLine line eol
        | .enum | .generator | .datasource => .keep (line ++ eol) ctx := by
  rewrite [← (append_of_splitReturn h).1, recaseLine, h]
  rfl

theorem recaseClosing_cases (ctx : Context) (line eol : Text) :
    (∃ name, ctx = .model ⟨some name, false⟩ ∧ recaseClosing ctx line eol =
      ⟨some (tableLine line eol name), line ++ eol, [⟨.modelMap, name⟩], .topLevel⟩) ∨
    recaseClosing ctx line eol = .keep (line ++ eol) .topLevel := by
  unfold recaseClosing
  split
  · next name => exact Or.inl ⟨name, rfl, rfl⟩
  · exact Or.inr rfl

/-- **What can happen to a line.** -/
theorem recaseLine_cases (ctx : Context) (h : splitReturn raw = (line, eol)) :
    (∃ name, line.trim = ['}'] ∧ ctx = .model ⟨some name, false⟩ ∧ recaseLine ctx raw =
      ⟨some (tableLine line eol name), line ++ eol, [⟨.modelMap, name⟩], .topLevel⟩) ∨
    (recaseLine ctx raw).InPlace line eol := by
  rw [recaseLine_of_splitReturn ctx h]
  split
  · next hbrace =>
    rcases recaseClosing_cases ctx line eol with ⟨name, hctx, heq⟩ | heq
    · exact Or.inl ⟨name, hbrace, hctx, heq⟩
    · rw [heq]
      exact Or.inr (inPlace_keep _)
  right
  split
  · split
    · next b hb => exact inPlace_recaseHeading hb
    · exact inPlace_keep _
  · exact inPlace_recaseModelLine _
  · exact inPlace_recaseTypeLine
  all_goals exact inPlace_keep _

/-- A line of a step names a table, or is the line of the schema edited in place. -/
theorem mem_lines_recaseLine {ctx : Context} (h : splitReturn raw = (line, eol)) {l : Text}
    (hl : l ∈ (recaseLine ctx raw).lines) :
    (∃ name, ctx = .model ⟨some name, false⟩ ∧ l = tableLine line eol name) ∨
      ∃ es out, l = out ++ eol ∧ Replays line es out := by
  rcases recaseLine_cases ctx h with ⟨name, -, hctx, heq⟩ | ⟨habove, out, hout, hreplays⟩
  · rw [heq] at hl
    simp only [RecasedLine.lines, Option.toList_some, List.singleton_append, List.mem_cons,
      List.not_mem_nil, or_false] at hl
    rcases hl with rfl | rfl
    · exact Or.inl ⟨name, hctx, rfl⟩
    · exact Or.inr ⟨[], line, rfl, replays_self line⟩
  · simp only [RecasedLine.lines, habove, Option.toList_none, List.nil_append,
      List.mem_singleton] at hl
    exact Or.inr ⟨_, out, hl.trans hout, hreplays⟩

/-! ### The context of the next line -/

/-- Whether the line closes the block that is open. -/
def closesBlock (raw : Text) : Bool := (splitReturn raw).1.trim = ['}']

theorem closesBlock_of_ofHeading? {raw : Text} {b : Block}
    (h : Block.ofHeading? (splitReturn raw).1.trim = some b) : closesBlock raw = false := by
  refine decide_eq_false fun hbrace => ?_
  rw [hbrace, show Block.ofHeading? ['}'] = none from by decide] at h
  cases h

/-- The name in a heading, if it is in snake_case and so gets renamed. -/
def renamedName? (line : Text) : Option Text := ((Heading.parse? line).map (·.name)).filter Name.isSnake

/-- The context that a line leaves behind. -/
def Context.after (ctx : Context) (raw : Text) : Context :=
  let line := (splitReturn raw).1
  if closesBlock raw then .topLevel
  else match ctx with
    | .topLevel => match Block.ofHeading? line.trim with
      | some b => .enter b (renamedName? line)
      | none => .topLevel
    | .model state => .model { state with tableNamed := state.tableNamed || namesTable line }
    | ctx => ctx

theorem next_recaseHeading (b : Block) (line eol : Text) :
    (recaseHeading b line eol).next = .enter b (renamedName? line) := by
  unfold recaseHeading renamedName?
  split
  · next kind heading _ hparse =>
    split
    · next hsnake => simp [hparse, Option.filter, hsnake]
    · next hsnake => simp [hparse, Option.filter, hsnake, RecasedLine.keep]
  · next hnone =>
    -- either nothing is renamed in this kind of block, or there is no name
    cases hparse : Heading.parse? line with
    | none => rfl
    | some heading =>
      cases b with
      | model => exact absurd hparse (hnone _ _ rfl)
      | enum | type => exact absurd hparse (hnone _ _ rfl)
      | topLevel | generator | datasource => rfl

theorem next_recaseField (f : FieldDecl) (eol : Text) (next : Context) :
    (recaseField f eol next).next = next := by
  unfold recaseField
  simp only
  split <;> rfl

theorem next_recaseModelLine (state : ModelState) (line eol : Text) :
    (recaseModelLine state line eol).next =
      .model { state with tableNamed := state.tableNamed || namesTable line } := by
  unfold recaseModelLine
  split
  · next h => simp [RecasedLine.keep, h]
  next h =>
  rw [eq_false_of_ne_true h, Bool.or_false]
  split
  · rfl
  split
  · rfl
  split
  · exact next_recaseField _ _ _
  · rfl

theorem next_recaseTypeLine (line eol : Text) : (recaseTypeLine line eol).next = .type := by
  unfold recaseTypeLine
  split
  · rfl
  split
  · exact next_recaseField _ _ _
  · rfl

theorem next_recaseLine (ctx : Context) (raw : Text) : (recaseLine ctx raw).next = ctx.after raw := by
  rcases h : splitReturn raw with ⟨line, eol⟩
  rw [recaseLine_of_splitReturn ctx h]
  simp only [Context.after, closesBlock, h, decide_eq_true_eq]
  split
  · rcases recaseClosing_cases ctx line eol with ⟨name, -, heq⟩ | heq <;> rw [heq]
    rfl
  cases ctx with
  | topLevel =>
    simp only
    split
    · exact next_recaseHeading _ _ _
    · rfl
  | model state => exact next_recaseModelLine _ _ _
  | type => exact next_recaseTypeLine _ _
  | enum | generator | datasource => rfl

@[simp] theorem contextAfter_nil (ctx : Context) : contextAfter ctx [] = ctx := rfl

@[simp] theorem contextAfter_cons (ctx : Context) (raw : Text) (lines : List Text) :
    contextAfter ctx (raw :: lines) = contextAfter (ctx.after raw) lines := by
  rw [← next_recaseLine]
  rfl

theorem contextAfter_append (ctx : Context) (as bs : List Text) :
    contextAfter ctx (as ++ bs) = contextAfter (contextAfter ctx as) bs := List.foldl_append

/-! ### All lines -/

theorem getElem?_recaseLines (ctx : Context) (lines : List Text) (i : Nat) :
    (recaseLines ctx lines)[i]? =
      lines[i]?.map (recaseLine (contextAfter ctx (lines.take i))) := by
  induction lines generalizing ctx i with
  | nil => rfl
  | cons raw lines ih =>
    cases i with
    | zero => rfl
    | succ i => simp [recaseLines, ih, next_recaseLine]

/-- Names that a context remembers are in snake_case. -/
def Context.IsSound (ctx : Context) : Prop :=
  ∀ state, ctx = .model state → ∀ name ∈ state.oldName?, Name.isSnake name

theorem isSound_topLevel : Context.topLevel.IsSound := by
  intro state h
  cases h

theorem isSnake_of_mem_renamedName? {line name : Text} (h : name ∈ renamedName? line) :
    Name.isSnake name := by
  rw [renamedName?, Option.mem_def, Option.filter_eq_some_iff] at h
  exact h.2

theorem Context.IsSound.after {ctx : Context} (hctx : ctx.IsSound) (raw : Text) :
    (ctx.after raw).IsSound := by
  unfold Context.after
  simp only
  split
  · exact isSound_topLevel
  split
  · split
    · next b _ =>
      rintro state h name hname
      cases b <;> cases h
      exact isSnake_of_mem_renamedName? hname
    · exact isSound_topLevel
  · next state =>
    rintro state' h name hname
    cases h
    exact hctx state rfl name hname
  · exact hctx

/-- Every step is one in a sound context. -/
theorem exists_of_mem_recaseLines {ctx : Context} (hctx : ctx.IsSound) {lines : List Text}
    {r : RecasedLine} (h : r ∈ recaseLines ctx lines) :
    ∃ ctx' raw, ctx'.IsSound ∧ raw ∈ lines ∧ r = recaseLine ctx' raw := by
  induction lines generalizing ctx with
  | nil => cases h
  | cons raw lines ih =>
    rcases List.mem_cons.1 h with rfl | h
    · exact ⟨ctx, raw, hctx, List.mem_cons_self .., rfl⟩
    · rw [next_recaseLine] at h
      obtain ⟨ctx', raw', hctx', hraw', rfl⟩ := ih (hctx.after raw) h
      exact ⟨ctx', raw', hctx', List.mem_cons_of_mem _ hraw', rfl⟩

theorem not_mem_tableLine {c : Char} {line eol name : Text} (hname : Name.isName name)
    (hpart : Name.isPart c = false) (hspace : c ≠ ' ') (hadded : c ∉ modelMapAttribute [])
    (hline : c ∉ line) (heol : c ∉ eol) : c ∉ tableLine line eol name := by
  have h1 : c ∉ line.indent := fun h => hline (List.takeWhile_subset _ h)
  have h2 := Name.not_mem_of_isName hname hpart
  simp only [tableLine, modelMapAttribute_eq, List.append_nil, List.mem_append, List.mem_cons,
    List.not_mem_nil, or_false, not_or] at hadded ⊢
  tauto

theorem newline_not_mem_recaseLine {ctx : Context} (hctx : ctx.IsSound) {raw : Text}
    (hraw : '\n' ∉ raw) : ∀ l ∈ (recaseLine ctx raw).lines, '\n' ∉ l := by
  rcases h : splitReturn raw with ⟨line, eol⟩
  obtain ⟨rfl, -⟩ := append_of_splitReturn h
  rw [List.mem_append, not_or] at hraw
  intro l hl
  rcases mem_lines_recaseLine h hl with ⟨name, rfl, rfl⟩ | ⟨es, out, rfl, hreplays⟩
  · refine not_mem_tableLine ?_ rfl (by decide) (by simp [modelMapAttribute_eq]) hraw.1 hraw.2
    exact Name.isName_of_isSnake (hctx _ rfl name rfl)
  · rw [List.mem_append, not_or]
    exact ⟨hreplays.not_mem rfl (by decide) (by simp [fieldMapAttribute_eq]) hraw.1, hraw.2⟩

/-- **The lines of the output are those of the steps.** -/
theorem split_output (schema : Text) : (recase schema).output.split '\n' =
    (recaseLines .topLevel (schema.split '\n')).flatMap RecasedLine.lines := by
  refine List.splitOn_intercalate '\n' (fun l hl => ?_) ?_
  · obtain ⟨r, hr, hl⟩ := List.mem_flatMap.1 hl
    obtain ⟨ctx, raw, hctx, hraw, rfl⟩ := exists_of_mem_recaseLines isSound_topLevel hr
    exact newline_not_mem_recaseLine hctx (Text.not_mem_of_mem_split hraw) l hl
  · obtain ⟨raw, lines, h⟩ := List.exists_cons_of_ne_nil (List.splitOn_ne_nil '\n' schema)
    simp [h, recaseLines, RecasedLine.lines]

end Recase
