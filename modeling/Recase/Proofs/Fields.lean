import Recase.Proofs.Places

/-!
# Fields and headings in the output

What a field of a model and the heading of a block become, told by reading the output.  The line of a
field is again one of a model, with the tail that `FieldDecl.inModel` says; the line of a heading is
again a heading of the same kind of block, with the name in its casing.

The tail of a field may end in a string literal that is not closed.  An attribute added to it is then
read as a part of the literal, so of the new tail only those tokens are known that stand before what
was added.

* `IsModelField.output`, `IsField.output`, `IsHeading.output` — fields and headings;
* `FieldDecl.exists_tokenize_tail_inModel` — the tokens of the new tail up to one that is known;
* `FieldDecl.type?_inModel` — the type of the field.
-/

namespace Recase

open Token

/-- The type of the field: the first name after its own, unless that is the name of an attribute. -/
def FieldDecl.type? (f : FieldDecl) : Option Text := FieldTail.typeName? [] (tokenize f.tail)

/-- The `i`-th line of the schema is the field `f` of a model. -/
def IsModelField (schema : Text) (i : Nat) (f : FieldDecl) : Prop :=
  blockAt schema i = .model ∧ (lineAt? schema i).bind FieldDecl.parse? = some f

instance (schema : Text) (i : Nat) (f : FieldDecl) : Decidable (IsModelField schema i f) :=
  inferInstanceAs (Decidable (_ ∧ _))

/-- The `j`-th line of the schema stands at the top level and is the heading of a block, of the given
kind and with the given name. -/
def IsHeading (schema : Text) (j : Nat) (b : Block) (name : Text) : Prop :=
  blockAt schema j = .topLevel ∧ (lineAt? schema j).bind (fun line => Block.ofHeading? line.trim) = some b ∧
    ((lineAt? schema j).bind Heading.parse?).map (·.name) = some name

instance (schema : Text) (j : Nat) (b : Block) (name : Text) : Decidable (IsHeading schema j b name) :=
  inferInstanceAs (Decidable (_ ∧ _ ∧ _))

theorem exists_of_lineAt?_bind {schema : Text} {i : Nat} {α : Type} {read : Text → Option α} {a : α}
    (h : (lineAt? schema i).bind read = some a) :
    ∃ raw line eol, (schema.split '\n')[i]? = some raw ∧ splitReturn raw = (line, eol) ∧
      read line = some a := by
  obtain ⟨line, hline, hread⟩ := Option.bind_eq_some_iff.1 h
  obtain ⟨raw, hraw, rfl⟩ := Option.map_eq_some_iff.1 hline
  exact ⟨raw, _, (splitReturn raw).2, hraw, rfl, hread⟩

/-! ### Headings -/

/-- **A heading gets the name that its casing says.** -/
theorem IsHeading.output {schema : Text} {j : Nat} {b : Block} {name : Text}
    (h : IsHeading schema j b name) (hs : Name.isSnake name) {casing : Casing}
    (hcasing : b.casing? = some casing) :
    IsHeading (recase schema).output (outputIndex schema j) b (casing.apply name) := by
  obtain ⟨hblock, hopens, hname⟩ := h
  obtain ⟨raw, line, eol, hget, hraw, hb⟩ := exists_of_lineAt?_bind hopens
  have hline : lineAt? schema j = some line := by rw [lineAt?, hget, Option.map_some, hraw]
  obtain ⟨heading, hparse, rfl⟩ : ∃ heading, Heading.parse? line = some heading ∧ heading.name = name := by
    simpa [hline] using hname
  obtain ⟨kind, hkind, hkindCasing⟩ := Option.bind_eq_some_iff.1 hcasing
  have hctx : contextAt schema j = .topLevel :=
    eq_topLevel_of_block ((block_contextAt schema j).trans hblock)
  have hresult : (Edit.mk kind heading.name).result = casing.apply heading.name :=
    Edit.result_eq_apply hkindCasing
  have hplace : (recaseHeading b line eol).InPlace line eol := inPlace_recaseHeading hb
  have hstep : recaseLine .topLevel raw =
      ⟨none, Heading.text { heading with name := casing.apply heading.name } ++ eol,
        [⟨kind, heading.name⟩], .enter b (some heading.name)⟩ := by
    rw [recaseLine_heading hraw hb, ← hresult]
    simp [recaseHeading, hkind, hparse, hs, Heading.text]
  rw [← recaseLine_heading hraw hb, hstep] at hplace
  have hisName := Edit.isName_result (isRename_heading hkind hs)
  rw [hresult] at hisName
  obtain ⟨hread, hsame⟩ := Heading.parse?_rename hparse hisName
  have hout : lineAt? (recase schema).output (outputIndex schema j) =
      some (Heading.text { heading with name := casing.apply heading.name }) := by
    rw [lineAt?_output hget, hctx, hstep, hplace.splitReturn (append_of_splitReturn hraw).2 rfl]
  refine ⟨(blockAt_output hget).trans hblock, ?_, ?_⟩
  · rw [hout, Option.bind_some, hsame, hb]
  · rw [hout, Option.bind_some, hread]
    rfl

/-! ### Fields -/

/-- What a field of a model becomes. -/
def FieldDecl.inModel (f : FieldDecl) : FieldDecl :=
  if Name.isSnake f.name then f.recased else { f with tail := (FieldTail.recase f.tail).text }

section Fields

variable {line eol : Text} {f : FieldDecl}

theorem FieldDecl.parse?_inModel (hparse : FieldDecl.parse? line = some f) :
    FieldDecl.parse? f.inModel.text = some f.inModel := by
  unfold FieldDecl.inModel
  split
  · next hs => exact FieldDecl.parse?_recased hparse hs
  · obtain ⟨-, -, -, hname, htail⟩ := FieldDecl.parse?_eq_some_iff.1 hparse
    refine FieldDecl.parse?_text hparse hname ?_
    rw [FieldTail.recase, head?_text_ofText FieldTail.isRule, htail]

theorem line_recaseModelLine (state : ModelState) (hparse : FieldDecl.parse? line = some f) :
    (recaseModelLine state line eol).line = f.inModel.text ++ eol := by
  have htable := FieldDecl.namesTable_of_parse? hparse
  have hlist := FieldDecl.listsFields_of_parse? hparse
  simp only [recaseModelLine, htable, hlist, hparse, Bool.false_eq_true, if_false, FieldDecl.inModel]
  split
  · exact line_recaseField f eol _
  · rfl

/-- **A field of a model is one in the output.** -/
theorem IsModelField.output {schema : Text} {i : Nat} (h : IsModelField schema i f) :
    IsModelField (recase schema).output (outputIndex schema i) f.inModel := by
  obtain ⟨hblock, hfield⟩ := h
  obtain ⟨raw, line, eol, hget, hraw, hparse⟩ := exists_of_lineAt?_bind hfield
  obtain ⟨state, hctx⟩ := exists_contextAt_eq_model hblock
  refine ⟨(blockAt_output hget).trans hblock, ?_⟩
  have hplace : (recaseModelLine state line eol).InPlace line eol := inPlace_recaseModelLine state
  have hline : (recaseModelLine state line eol).line = f.inModel.text ++ eol :=
    line_recaseModelLine state hparse
  have hstep : recaseLine (contextAt schema i) raw = recaseModelLine state line eol := by
    rw [hctx, recaseLine_of_splitReturn _ hraw, if_neg (FieldDecl.trim_ne_brace_of_parse? hparse)]
  rw [lineAt?_output hget, hstep, hline, hplace.splitReturn (append_of_splitReturn hraw).2 hline]
  exact FieldDecl.parse?_inModel hparse

/-- The `i`-th line of the schema is the field `f` of a model or of a composite type. -/
def IsField (schema : Text) (i : Nat) (f : FieldDecl) : Prop :=
  (blockAt schema i = .model ∨ blockAt schema i = .type) ∧
    (lineAt? schema i).bind FieldDecl.parse? = some f

instance (schema : Text) (i : Nat) (f : FieldDecl) : Decidable (IsField schema i f) :=
  inferInstanceAs (Decidable (_ ∧ _))

/-- A field with a name in snake_case is recased alike in both kinds of blocks. -/
theorem recaseLine_field {ctx : Context} {raw : Text} (hctx : ctx.block = .model ∨ ctx.block = .type)
    (hraw : splitReturn raw = (line, eol)) (hparse : FieldDecl.parse? line = some f)
    (hs : Name.isSnake f.name) : recaseLine ctx raw = recaseField f eol ctx := by
  have htable := FieldDecl.namesTable_of_parse? hparse
  have hlist := FieldDecl.listsFields_of_parse? hparse
  rw [recaseLine_of_splitReturn _ hraw, if_neg (FieldDecl.trim_ne_brace_of_parse? hparse)]
  cases ctx with
  | model state => simp [recaseModelLine, htable, hlist, hparse, hs]
  | type => simp [recaseTypeLine, hparse, hs]
  | _ => simp [Context.block] at hctx

/-- **A renamed field is a field in the output**, in the same kind of block. -/
theorem IsField.output {schema : Text} {i : Nat} (h : IsField schema i f) (hs : Name.isSnake f.name) :
    IsField (recase schema).output (outputIndex schema i) f.recased := by
  obtain ⟨hblock, hfield⟩ := h
  obtain ⟨raw, line, eol, hget, hraw, hparse⟩ := exists_of_lineAt?_bind hfield
  have hstep : recaseLine (contextAt schema i) raw = recaseField f eol (contextAt schema i) :=
    recaseLine_field (by rwa [block_contextAt]) hraw hparse hs
  have hplace : (recaseField f eol (contextAt schema i)).InPlace line eol :=
    inPlace_recaseField hparse hs _
  have hline := line_recaseField f eol (contextAt schema i)
  refine ⟨by rwa [blockAt_output hget], ?_⟩
  rw [lineAt?_output hget, hstep, hline, hplace.splitReturn (append_of_splitReturn hraw).2 hline]
  exact FieldDecl.parse?_recased hparse hs

theorem IsModelField.unique {schema : Text} {i : Nat} {g : FieldDecl} (hf : IsModelField schema i f)
    (hg : IsModelField schema i g) : f = g := Option.some.inj (hf.2.symm.trans hg.2)

theorem FieldDecl.inModel_of_isSnake (hs : Name.isSnake f.name) : f.inModel = f.recased := if_pos hs

theorem FieldDecl.tail_inModel_cases (f : FieldDecl) :
    f.inModel.tail = (FieldTail.recase f.tail).text ∨
      f.inModel.tail = (FieldTail.recase f.tail).textNamingColumn f.name := by
  unfold FieldDecl.inModel
  split
  · unfold FieldDecl.recased
    split
    · exact Or.inl rfl
    · exact Or.inr rfl
  · exact Or.inl rfl

end Fields

/-! ### Tokens of the new tail -/

namespace Token

variable {as bs : List Token} {t : Token}

theorem IsLexed.of_append (h : IsLexed (as ++ bs)) : IsLexed bs := by
  induction as with
  | nil => exact h
  | cons a as ih => exact ih h.2.2

/-- If a blank may follow a token, then no token up to it is a comment. -/
theorem IsLexed.isComment_of_mem (h : IsLexed (as ++ t :: bs)) (ht : t.stops [' ']) :
    ∀ u ∈ as ++ [t], u.isComment = false := by
  induction as with
  | nil =>
    intro u hu
    obtain rfl := List.mem_singleton.1 hu
    cases u with
    | comment s => cases ht
    | _ => rfl
  | cons a as ih =>
    refine List.forall_mem_cons.2 ⟨?_, ih h.2.2⟩
    cases a with
    | comment s =>
      -- nothing would follow the comment
      have hnil := h.2.2.eq_nil_of_concat (List.isEmpty_iff.1 h.2.1)
      simp at hnil
    | _ => rfl

end Token

theorem exists_textNamingColumn_eq (r : RecasedText) (column : Text) :
    ∃ added, r.textNamingColumn column = Text.trimEnd (concat r.body) ++ ' ' :: added :=
  ⟨_, List.append_assoc ..⟩

/-- The tokens of a tail are read back up to one that a blank may follow, whatever is added behind. -/
theorem exists_tokenize_textNamingColumn {r : RecasedText} {as bs : List Token} {t : Token}
    (hr : IsLexed r.tokens) (hsplit : r.tokens = as ++ t :: bs) (ht : t.stops [' ']) (column : Text) :
    ∃ rest, tokenize (r.textNamingColumn column) = as ++ t :: tokenize rest := by
  rw [hsplit] at hr
  obtain ⟨hformed, hstops, -⟩ := hr.of_append
  obtain ⟨s, c, htext, hblank⟩ := exists_text_append hformed ht
  set tail : Text := concat (bs.takeWhile (!·.isComment)) with htail
  have hbody : concat r.body = (concat as ++ s) ++ c :: tail := by
    have hnone : ∀ u ∈ as ++ [t], !u.isComment := by simpa using hr.isComment_of_mem ht
    have hcons : as ++ t :: bs = (as ++ [t]) ++ bs := by simp
    rw [RecasedText.body, hsplit, hcons, List.takeWhile_append_of_pos hnone]
    simp [htext, htail]
  obtain ⟨added, hadded⟩ := exists_textNamingColumn_eq r column
  set rest : Text := tail.trimEnd ++ ' ' :: added with hrest
  have hnew : r.textNamingColumn column = concat (as ++ [t]) ++ rest := by
    rw [hadded, hbody, Text.trimEnd_append_cons hblank]
    simp [htext, hrest]
  -- the token is followed by what follows it in the tail, or by a blank if that is all
  have hstopsRest : t.stops rest := by
    cases htrim : tail.trimEnd with
    | nil =>
      rw [← ht]
      exact t.stops_eq_of_head? (by simp [hrest, htrim])
    | cons d ds =>
      rw [← hstops]
      refine t.stops_eq_of_head? ?_
      obtain ⟨blanks, -, htail'⟩ := Text.exists_trimEnd_append tail
      have hbs : concat bs = tail ++ concat (bs.dropWhile (!·.isComment)) := by
        rw [htail, ← concat_append, List.takeWhile_append_dropWhile]
      rw [hbs, htail', hrest, htrim]
      rfl
  refine ⟨rest, ?_⟩
  have hold : IsLexed ((as ++ [t]) ++ bs) := by simpa using hr
  have hlexed : IsLexed ((as ++ [t]) ++ tokenize rest) := by
    refine isLexed_append hold (isLexed_tokenize rest) fun u hu => ?_
    obtain rfl : t = u := by simpa using hu
    rwa [concat_tokenize]
  have hread := tokenize_concat hlexed
  rw [concat_append, concat_tokenize, ← hnew] at hread
  simpa using hread

/-- **The tokens of the new tail up to one that a blank may follow.** -/
theorem FieldDecl.exists_tokenize_tail_inModel {f : FieldDecl} {as bs : List Token} {t : Token}
    (hsplit : (FieldTail.recase f.tail).tokens = as ++ t :: bs) (ht : t.stops [' ']) :
    ∃ rest, tokenize f.inModel.tail = as ++ t :: tokenize rest := by
  have hlexed := FieldTail.isLexed_recase f.tail
  rcases f.tail_inModel_cases with htail | htail
  · refine ⟨concat bs, ?_⟩
    rw [hsplit] at hlexed
    rw [htail, FieldTail.tokenize_text_recase, hsplit, tokenize_concat hlexed.of_append.2.2]
  · rw [htail]
    exact exists_tokenize_textNamingColumn hlexed hsplit ht f.name

/-! ### Types -/

namespace FieldTail

theorem typeName?_cons_of_not_isName {t : Token} (ht : t.isName = false) (before ts : List Token) :
    typeName? before (t :: ts) = typeName? (t :: before) ts := by
  cases t with
  | name s => cases ht
  | _ => rfl

theorem typeName?_name (before : List Token) (s : Text) (ts : List Token) :
    typeName? before (.name s :: ts) = if isAttributePosition before then none else some s := rfl

/-- The type is the first name, and not that of an attribute. -/
theorem typeName?_eq_some_iff {before ts : List Token} {s : Text} : typeName? before ts = some s ↔
    ∃ as bs, ts = as ++ .name s :: bs ∧ (∀ t ∈ as, t.isName = false) ∧
      isAttributePosition (as.reverse ++ before) = false := by
  constructor
  · intro h
    induction ts generalizing before with
    | nil => cases h
    | cons t ts ih =>
      cases ht : t.isName with
      | false =>
        rw [typeName?_cons_of_not_isName ht] at h
        obtain ⟨as, bs, rfl, has, hposition⟩ := ih h
        exact ⟨t :: as, bs, rfl, List.forall_mem_cons.2 ⟨ht, has⟩, by simpa using hposition⟩
      | true =>
        cases t with
        | name s' =>
          rw [typeName?_name] at h
          split at h
          · cases h
          · next hposition =>
            cases h
            exact ⟨[], ts, rfl, by simp, eq_false_of_ne_true hposition⟩
        | _ => cases ht
  · rintro ⟨as, bs, rfl, has, hposition⟩
    induction as generalizing before with
    | nil =>
      rw [List.nil_append, typeName?_name, if_neg]
      simpa using hposition
    | cons t as ih =>
      obtain ⟨ht, has⟩ := List.forall_mem_cons.1 has
      rw [List.cons_append, typeName?_cons_of_not_isName ht]
      exact ih has (by simpa using hposition)

/-- A type as it is written after renaming. -/
def recasedType (type : Text) : Text := if Name.isSnake type then Name.pascal type else type

theorem typeName?_renameTokens {before : List Token} (hbefore : before.any isName = false)
    (ts : List Token) :
    typeName? before ((renameTokens rule before ts).map (·.token)) =
      (typeName? before ts).map recasedType := by
  induction ts generalizing before with
  | nil => rfl
  | cons t ts ih =>
    cases ht : t.isName with
    | false =>
      rw [renameTokens_cons_of_not_isName ht, List.map_cons, typeName?_cons_of_not_isName ht,
        typeName?_cons_of_not_isName ht]
      exact ih (by simp [ht, hbefore])
    | true =>
      cases t with
      | name s =>
        rw [renameTokens_name, typeName?_name]
        by_cases hposition : isAttributePosition before
        · simp [rule, hposition, typeName?_name]
        · by_cases hs : Name.isSnake s
          · simp [rule, hposition, hs, hbefore, typeName?_name, recasedType, Edit.result]
          · simp [rule, hposition, hs, typeName?_name, recasedType]
      | _ => cases ht

theorem typeName?_recase (s : Text) :
    typeName? [] (recase s).tokens = (typeName? [] (tokenize s)).map recasedType :=
  typeName?_renameTokens rfl (tokenize s)

end FieldTail

/-- **The type of a field of a model in the output.** -/
theorem FieldDecl.type?_inModel {f : FieldDecl} {type : Text} (h : f.type? = some type) :
    f.inModel.type? = some (FieldTail.recasedType type) := by
  have hnew : FieldTail.typeName? [] (FieldTail.recase f.tail).tokens =
      some (FieldTail.recasedType type) := by
    rw [FieldTail.typeName?_recase, ← FieldDecl.type?, h, Option.map_some]
  obtain ⟨as, bs, hsplit, has, hposition⟩ := FieldTail.typeName?_eq_some_iff.1 hnew
  obtain ⟨rest, hread⟩ := FieldDecl.exists_tokenize_tail_inModel hsplit rfl
  exact FieldTail.typeName?_eq_some_iff.2 ⟨as, tokenize rest, hread, has, hposition⟩

end Recase
