import Recase.Proofs.Grammar
import Recase.Proofs.StoredColumns

/-!
# Attributes that are added

A renamed field that neither names its column nor is a relation gets the attribute `@map` with its old
name.  The attribute is put behind the tail as text, so whether it is an attribute is a matter of what is
read there afterwards: the tail may end in an `@`, a dot, a slash or nothing at all.  A blank stands in
between, and the attribute is one whatever comes before.

* `dropLastBlanks`, `rdropWhile_isBlanks` — the blanks at the end of a tail are one token;
* `FieldTail.countMapAt_columnTokens` — the added attribute is counted as one;
* `FieldDecl.mapCount_recased` — a renamed field has one more, or as many as before;
* `column_attribute_added` — the tokens of a tail with the attribute, and the fields of a schema.
-/

namespace Recase

open Token

/-! ### Blanks and comments at the end -/

/-- The tokens without the last one, if that is a run of blanks. -/
def dropLastBlanks (ts : List Token) : List Token :=
  if ts.getLast?.any isBlanks then ts.dropLast else ts

theorem not_isBlanks_of_not_runsInto {t u : Token} (hu : u.isBlanks) (h : ¬ t.RunsInto u) :
    ¬ t.isBlanks := by
  intro ht
  cases t with
  | blanks r =>
    cases u with
    | blanks s => exact h (.blanks r s)
    | _ => cases hu
  | _ => cases ht

/-- Two runs of blanks are never neighbours, so that at most one token is dropped. -/
theorem rdropWhile_isBlanks {ts : List Token} (h : ts.IsChain fun t u => ¬ t.RunsInto u) :
    ts.rdropWhile isBlanks = dropLastBlanks ts := by
  rcases ts.eq_nil_or_concat' with rfl | ⟨front, t, rfl⟩
  · rfl
  by_cases ht : t.isBlanks
  · have hdrop : dropLastBlanks (front ++ [t]) = front := by simp [dropLastBlanks, ht]
    rw [List.rdropWhile_concat_pos _ _ _ ht, hdrop, List.rdropWhile_eq_self_iff]
    intro hne
    apply not_isBlanks_of_not_runsInto ht
    exact (List.isChain_append.1 h).2.2 _ (List.getLast_mem_getLast? hne) t rfl
  · rw [List.rdropWhile_concat_neg _ _ _ ht]
    simp [dropLastBlanks, ht]

theorem Renames.find?_isComment {ts us : List Token} {es : List Edit} (h : Renames ts es us) :
    us.find? (·.isComment) = ts.find? (·.isComment) := by
  induction h with
  | nil => rfl
  | keep t _ ih => rw [List.find?_cons, List.find?_cons, ih]
  | rename _ _ ih => exact ih

namespace FieldTail

theorem comment?_recase (s : Text) : (recase s).comment? = (tokenize s).find? (·.isComment) :=
  (RecasedText.renames_ofText isRule s).find?_isComment

theorem rdropWhile_body_recase (s : Text) :
    (recase s).body.rdropWhile isBlanks = dropLastBlanks (recase s).body := by
  have hapart := ((isLexed_iff_isWellFormed _).1 (isLexed_recase s)).apart
  rw [← (isLexed_recase s).takeWhile_append_comment] at hapart
  exact rdropWhile_isBlanks (List.isChain_append.1 hapart).1

/-! ### Counting attributes -/

theorem countMapAt_of_not_isName (place : List Token → Bool) (before : List Token) {ts : List Token}
    (h : ∀ t ∈ ts, t.isName = false) : countMapAt place before ts = 0 := by
  induction ts generalizing before with
  | nil => rfl
  | cons t ts ih =>
    obtain ⟨ht, hts⟩ := List.forall_mem_cons.1 h
    have hne : t ≠ .name "map".toList := by
      rintro rfl
      cases ht
    rw [countMapAt, beq_eq_false_iff_ne.2 hne, ih _ hts]
    rfl

theorem isName_of_mem_commentTokens (comment? : Option Token) :
    ∀ t ∈ commentTokens comment?, t.isName = false := by
  cases comment? with
  | none => simp [commentTokens]
  | some t => simp [commentTokens, isName]

/-- The added attribute counts once, wherever it stands. -/
theorem countMapAt_columnTokens (before : List Token) (column : Text) (comment? : Option Token) :
    countMapAt followsOneAt before (columnTokens column ++ commentTokens comment?) = 1 := by
  rw [countMapAt_append, countMapAt_of_not_isName _ _ (isName_of_mem_commentTokens comment?)]
  simp [columnTokens, countMapAt, followsOneAt]

/-- What is left of the tail holds all names, so nothing is lost by trimming it. -/
theorem countMapAt_rdropWhile_body {r : RecasedText} (hr : IsLexed r.tokens)
    (place : List Token → Bool) :
    countMapAt place [] (r.body.rdropWhile isBlanks) = countMapAt place [] r.tokens := by
  have hsplit : r.tokens =
      r.body.rdropWhile isBlanks ++ (r.body.rtakeWhile isBlanks ++ r.comment?.toList) := by
    rw [← List.append_assoc, List.rdropWhile_append_rtakeWhile]
    exact hr.takeWhile_append_comment.symm
  have hrest : ∀ t ∈ r.body.rtakeWhile isBlanks ++ r.comment?.toList, t.isName = false := by
    intro t ht
    rcases List.mem_append.1 ht with ht | ht
    · have hblanks := List.mem_rtakeWhile_imp ht
      cases t with
      | blanks s => rfl
      | _ => cases hblanks
    · have hcomment := (isComment_of_mem_comment? (Option.mem_toList.1 ht)).2
      cases t with
      | comment s => rfl
      | _ => cases hcomment
  rw [hsplit, countMapAt_append, countMapAt_of_not_isName _ _ hrest, Nat.add_zero]

end FieldTail

/-! ### Fields -/

namespace FieldDecl

variable {f : FieldDecl}

/-- **A renamed field has one attribute more**, unless it names its column or is a relation; then it has
as many as before. -/
theorem mapCount_recased (hs : Name.isSnake f.name)
    (hclosed : ∀ t ∈ tokenize f.tail, t.isUnclosed = false) :
    f.recased.mapCount = f.mapCount +
      if (FieldTail.recase f.tail).namesColumn || (FieldTail.recase f.tail).isRelation then 0 else 1 := by
  by_cases hnamed : (FieldTail.recase f.tail).namesColumn || (FieldTail.recase f.tail).isRelation
  · rw [if_pos hnamed, mapCount_recased_of_named hnamed, Nat.add_zero]
  · have hkeep : FieldTail.countMapAt FieldTail.followsOneAt [] (FieldTail.recase f.tail).tokens =
        f.mapCount := FieldTail.countMapAt_recase FieldTail.isAttributePlace_followsOneAt f.tail
    have hlexed := FieldTail.isLexed_recase f.tail
    have hread := tokenize_textNamingColumn hlexed (FieldTail.isUnclosed_of_mem_recase hclosed)
      (Name.isName_of_isSnake hs)
    rw [if_neg hnamed, mapCount, tail_recased_of_not_named hnamed, hread, RecasedText.tokensNamingColumn,
      FieldTail.countMapAt_append, FieldTail.countMapAt_columnTokens,
      FieldTail.countMapAt_rdropWhile_body hlexed, hkeep]

end FieldDecl

/-- **The attribute is added where it is missing and is read as one.**  The tokens of a tail with the
attribute are those of the renamed tail before its comment, without the blanks at their end, those of the
attribute, and the comment without the blanks at its end; so the column is named.  In the output every
renamed field names its column or is a relation, and it has one attribute more than before iff before it
was neither. -/
theorem column_attribute_added :
    (∀ tail column : Text, (∀ t ∈ tokenize tail, t.isUnclosed = false) → Name.isSnake column →
      tokenize ((FieldTail.recase tail).textNamingColumn column) =
        dropLastBlanks (FieldTail.recase tail).body ++ (columnTokens column ++
          commentTokens ((tokenize tail).find? (·.isComment))) ∧
      (FieldTail.recase ((FieldTail.recase tail).textNamingColumn column)).namesColumn) ∧
    ∀ (schema : Text) (i : Nat) (f : FieldDecl), IsField schema i f → Name.isSnake f.name →
      (∀ t ∈ tokenize f.text, t.isUnclosed = false) →
      ∃ g, IsField (recase schema).output (outputIndex schema i) g ∧
        ((FieldTail.recase g.tail).namesColumn || (FieldTail.recase g.tail).isRelation) ∧
        g.mapCount = f.mapCount +
          if (FieldTail.recase f.tail).namesColumn || (FieldTail.recase f.tail).isRelation then 0
          else 1 := by
  constructor
  · intro tail column hclosed hs
    have hname := Name.isName_of_isSnake hs
    have hread := tokenize_textNamingColumn (FieldTail.isLexed_recase tail)
      (FieldTail.isUnclosed_of_mem_recase hclosed) hname
    constructor
    · rw [hread, RecasedText.tokensNamingColumn, FieldTail.rdropWhile_body_recase,
        FieldTail.comment?_recase]
    · rw [RecasedText.namesColumn, FieldTail.tokens_recase_textNamingColumn hclosed hname]
      exact FieldTail.namesColumn_tokensNamingColumn _ column
  · intro schema i f hf hs hclosed
    obtain ⟨raw, line, eol, -, -, hparse⟩ := exists_of_lineAt?_bind hf.2
    rw [FieldDecl.text_of_parse? hparse] at hclosed
    have htail := FieldDecl.isUnclosed_of_mem_tail hparse hclosed
    exact ⟨f.recased, hf.output hs, (FieldDecl.recase_tail_recased hs htail).2,
      FieldDecl.mapCount_recased hs htail⟩

/-- A field whose tail ends in a lone mark, in a composite type, and a relation. -/
def contacts : Text :=
  Text.join '\n' (["type home_address \x7b", "  zip_code String @ // \"code ", "\x7d",
    "model Contact \x7b", "  home_address home_address", "\x7d"].map String.toList)

theorem column_attribute_contacts :
    (∀ t ∈ tokenize " String @ // \"code ".toList, t.isUnclosed = false) ∧
      tokenize ((FieldTail.recase " String @ // \"code ".toList).textNamingColumn
        "zip_code".toList) =
        [.blanks [' '], .name "String".toList, .blanks [' '], .mark '@'] ++
          (columnTokens "zip_code".toList ++ [.blanks [' '], .comment "// \"code".toList]) ∧
      IsField contacts 1 ⟨"  ".toList, "zip_code".toList, " String @ // \"code ".toList⟩ ∧
      (∃ g, IsField (recase contacts).output (outputIndex contacts 1) g ∧ g.mapCount = 1) ∧
      IsField contacts 4 ⟨"  ".toList, "home_address".toList, " home_address".toList⟩ ∧
      ∃ g, IsField (recase contacts).output (outputIndex contacts 4) g ∧ g.mapCount = 0 := by
  have hclosed : ∀ t ∈ tokenize " String @ // \"code ".toList, t.isUnclosed = false := by
    decide +kernel
  have hcolumn : IsField contacts 1
      ⟨"  ".toList, "zip_code".toList, " String @ // \"code ".toList⟩ := by decide +kernel
  have hrelation : IsField contacts 4
      ⟨"  ".toList, "home_address".toList, " home_address".toList⟩ := by decide +kernel
  obtain ⟨hread, -⟩ := column_attribute_added.1 _ "zip_code".toList hclosed (by decide +kernel)
  obtain ⟨g, hg, -, hcount⟩ :=
    column_attribute_added.2 contacts 1 _ hcolumn (by decide +kernel) (by decide +kernel)
  obtain ⟨g', hg', -, hcount'⟩ :=
    column_attribute_added.2 contacts 4 _ hrelation (by decide +kernel) (by decide +kernel)
  exact ⟨hclosed, hread.trans (by decide +kernel), hcolumn, ⟨g, hg, hcount.trans (by decide +kernel)⟩,
    hrelation, g', hg', hcount'.trans (by decide +kernel)⟩

end Recase
