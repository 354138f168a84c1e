import Recase.Proofs.Grammar
import Recase.Proofs.Renaming

/-!
# Naming a column

`RecasedText.textNamingColumn` puts an attribute behind the tail of a field, as text.  Here is what
is read when that text is read again: the tokens of the tail without the blanks at their end, those
of the attribute, and the comment (`tokenize_textNamingColumn`).  In particular the attribute is
found (`namesColumn_tokensNamingColumn`) and renaming leaves the text as it is
(`tokens_recase_textNamingColumn`).

A string literal that is not closed would swallow the attribute, so there must be none.
-/

namespace Recase

open Token

/-! ### Trimming tokens -/

def Token.isBlanks : Token → Bool
  | .blanks _ => true
  | _ => false

namespace Token

/-- A name can be quoted as it is. -/
theorem isQuoted_of_isPart {s : Text} (hs : ∀ c ∈ s, Name.isPart c) : IsQuoted s := by
  induction s with
  | nil => exact .nil
  | cons c s ih =>
    obtain ⟨hc, hs⟩ := List.forall_mem_cons.1 hs
    refine .cons ?_ ?_ (ih hs)
    all_goals
      rintro rfl
      cases hc

theorem exists_append_singleton_of_isPart {s : Text} (hne : s ≠ []) (hs : ∀ c ∈ s, Name.isPart c) :
    ∃ r c, s = r ++ [c] ∧ isBlank c = false :=
  ⟨s.dropLast, s.getLast hne, (List.dropLast_concat_getLast hne).symm,
    Name.isBlank_of_isPart (hs _ (List.getLast_mem hne))⟩

/-- A token before which a blank may follow ends with no blank itself. -/
theorem exists_text_append {t : Token} (ht : t.isFormed) (hs : t.stops [' ']) :
    ∃ s c, t.text = s ++ [c] ∧ isBlank c = false := by
  cases t with
  | name s => exact exists_append_singleton_of_isPart (text_ne_nil ht) (Name.isPart_of_mem ht)
  | number s =>
    refine exists_append_singleton_of_isPart (text_ne_nil ht) ?_
    cases s with
    | nil => cases ht
    | cons c cs =>
      obtain ⟨hc, hcs⟩ : c.isDigit ∧ ∀ d ∈ cs, Name.isPart d := by simpa [isFormed] using ht
      exact List.forall_mem_cons.2 ⟨Name.isPart_of_isDigit hc, hcs⟩
  | literal s =>
    cases s with
    | nil => cases ht
    | cons c cs =>
      have hclosed : closes cs := by simpa [stops] using hs
      obtain ⟨body, -, rfl⟩ := exists_isQuoted_of_closes hclosed
      exact ⟨c :: body, '"', rfl, rfl⟩
  | comment s => cases hs
  | blanks s => cases hs
  | mark c =>
    simp only [isFormed, Bool.and_eq_true, Bool.not_eq_true'] at ht
    exact ⟨[], c, rfl, ht.1.1.2⟩

theorem isBlank_of_mem_blanks {s : Text} (ht : (blanks s).isFormed) : ∀ c ∈ s, isBlank c := by
  simp only [isFormed, Bool.and_eq_true, List.all_eq_true] at ht
  exact ht.2

theorem trimEnd_concat {ts : List Token} (hts : ∀ t ∈ ts, t.isFormed)
    (hstops : ∀ t ∈ ts, t.isBlanks ∨ t.stops [' ']) :
    Text.trimEnd (concat ts) = concat (ts.rdropWhile isBlanks) := by
  -- from the right, as `rdropWhile` goes
  induction ts using List.reverseRecOn with
  | nil => rfl
  | append_singleton ts t ih =>
    simp only [List.forall_mem_append, List.forall_mem_singleton] at hts hstops
    have hconcat : concat (ts ++ [t]) = concat ts ++ t.text := by simp
    rw [hconcat, List.rdropWhile_concat]
    split
    · next hb =>
      cases t with
      | blanks s => rw [text, Text.trimEnd_append_blanks _ (isBlank_of_mem_blanks hts.2), ih hts.1 hstops.1]
      | _ => cases hb
    · next hb =>
      obtain ⟨s, c, hc, hblank⟩ := exists_text_append hts.2 (hstops.2.resolve_left hb)
      rw [hconcat, hc, ← List.append_assoc, Text.trimEnd_append_cons hblank]
      rfl

/-- Lexed tokens may be followed by others if the last of them stops there. -/
theorem isLexed_append {ts us rest : List Token} (hts : IsLexed (ts ++ rest)) (hus : IsLexed us)
    (hlast : ∀ t ∈ ts.getLast?, t.stops (concat us)) : IsLexed (ts ++ us) := by
  induction ts with
  | nil => exact hus
  | cons t ts ih =>
    obtain ⟨ht, hstops, hrest⟩ := hts
    cases ts with
    | nil => exact ⟨ht, hlast t rfl, hus⟩
    | cons t' ts =>
      refine ⟨ht, ?_, ih hrest fun u hu => hlast u (by rwa [List.getLast?_cons_cons])⟩
      have hsame : (concat (t' :: ts ++ us)).head? = (concat (t' :: ts ++ rest)).head? := by
        simp [head?_text_append hrest.1]
      exact (t.stops_eq_of_head? hsame).trans hstops

end Token

/-! ### The tokens of the new tail -/

/-- The tokens of the attribute that names a column, after a blank. -/
def columnTokens (column : Text) : List Token :=
  [.blanks [' '], .mark '@', .name "map".toList, .mark '(', .literal ('"' :: column ++ ['"']), .mark ')']

theorem concat_columnTokens (column : Text) :
    concat (columnTokens column) = ' ' :: fieldMapAttribute column := by
  simp [columnTokens, fieldMapAttribute_eq, text]

/-- The tokens of the comment after a blank, without the blanks at its end. -/
def commentTokens : Option Token → List Token
  | some t => [.blanks [' '], .comment t.text.trimEnd]
  | none => []

/-- The tokens of the tail with the attribute, and a trimmed comment. -/
def RecasedText.tokensNamingColumn (r : RecasedText) (column : Text) : List Token :=
  r.body.rdropWhile isBlanks ++ (columnTokens column ++ commentTokens r.comment?)

theorem isLexed_commentTokens {comment? : Option Token}
    (h : ∀ t ∈ comment?, t.isComment ∧ t.isFormed) : IsLexed (commentTokens comment?) := by
  cases comment? with
  | none => trivial
  | some t =>
    obtain ⟨hc, hf⟩ := h t rfl
    cases t with
    | comment s =>
      obtain ⟨ds, rfl⟩ := List.isPrefixOf_iff_prefix.1 hf
      have htrim : Text.trimEnd (['/', '/'] ++ ds) = ['/', '/'] ++ Text.trimEnd ds :=
        Text.trimEnd_append_cons (c := '/') rfl ['/'] ds
      simp only [commentTokens, text, htrim]
      exact ⟨rfl, rfl, rfl, rfl, trivial⟩
    | _ => cases hc

theorem isLexed_columnTokens_append {column : Text} (hcolumn : Name.isName column)
    (comment? : Option Token) (h : IsLexed (commentTokens comment?)) :
    IsLexed (columnTokens column ++ commentTokens comment?) := by
  have hclosed := (isQuoted_of_isPart (Name.isPart_of_mem hcolumn)).closes_append_quote
  have hliteral : (literal ('"' :: column ++ ['"'])).isFormed := by
    show (closes (column ++ ['"']) || staysOpen (column ++ ['"'])) = true
    rw [hclosed, Bool.true_or]
  have hstops : ∀ rest, (literal ('"' :: column ++ ['"'])).stops rest := by
    intro rest
    show (closes (column ++ ['"']) || rest.isEmpty) = true
    rw [hclosed, Bool.true_or]
  exact ⟨rfl, rfl, rfl, rfl, rfl, rfl, rfl, rfl, hliteral, hstops _, rfl, rfl, h⟩

theorem tokenize_fieldMapAttribute {column : Text} (hcolumn : Name.isName column) :
    tokenize (fieldMapAttribute column) = (columnTokens column).tail := by
  have hlexed : IsLexed (columnTokens column).tail :=
    (isLexed_columnTokens_append hcolumn none trivial).2.2
  rw [← tokenize_concat hlexed]
  simp [columnTokens, fieldMapAttribute_eq, text]

section

variable {r : RecasedText} {column : Text}

theorem isComment_of_mem_comment? {t : Token} (h : t ∈ r.comment?) :
    t ∈ r.tokens ∧ t.isComment :=
  ⟨List.mem_of_find?_eq_some h, List.find?_some h⟩

/-- Without an unclosed literal a blank may follow every token before the comment. -/
theorem stops_of_mem_body (hr : IsLexed r.tokens) (hclosed : ∀ t ∈ r.tokens, t.isUnclosed = false) :
    ∀ t ∈ r.body, t.isBlanks ∨ t.stops [' '] := by
  intro t ht
  have hmem : t ∈ r.tokens := List.takeWhile_subset _ ht
  have hcomment : t.isComment = false := by simpa using List.mem_takeWhile_imp ht
  have hformed := hr.isFormed t hmem
  cases t with
  | blanks s => exact Or.inl rfl
  | comment s => cases hcomment
  | name s => exact Or.inr rfl
  | number s => exact Or.inr rfl
  | mark c => exact Or.inr (by simp [stops])
  | literal s =>
    right
    cases s with
    | nil => cases hformed
    | cons c cs =>
      have hopen : staysOpen cs = false := hclosed _ hmem
      unfold isFormed at hformed
      split at hformed <;> simp_all [stops]

theorem concat_tokensNamingColumn (hr : IsLexed r.tokens)
    (hclosed : ∀ t ∈ r.tokens, t.isUnclosed = false) :
    concat (r.tokensNamingColumn column) = r.textNamingColumn column := by
  have hbody : ∀ t ∈ r.body, t.isFormed :=
    fun t ht => hr.isFormed t (List.takeWhile_subset _ ht)
  rw [RecasedText.tokensNamingColumn, RecasedText.textNamingColumn, concat_append, concat_append,
    concat_columnTokens, trimEnd_concat hbody (stops_of_mem_body hr hclosed)]
  cases r.comment? with
  | none => simp [commentTokens]
  | some t => simp [commentTokens, text]

theorem body_prefix : ∃ rest, r.body.rdropWhile isBlanks ++ rest = r.tokens :=
  (List.rdropWhile_prefix _ _).trans (List.takeWhile_prefix _)

theorem isLexed_tokensNamingColumn (hr : IsLexed r.tokens)
    (hclosed : ∀ t ∈ r.tokens, t.isUnclosed = false) (hcolumn : Name.isName column) :
    IsLexed (r.tokensNamingColumn column) := by
  obtain ⟨rest, hrest⟩ := body_prefix (r := r)
  refine isLexed_append (hrest ▸ hr) (isLexed_columnTokens_append hcolumn _ ?_) ?_
  · refine isLexed_commentTokens fun t ht => ?_
    obtain ⟨hmem, hc⟩ := isComment_of_mem_comment? ht
    exact ⟨hc, hr.isFormed t hmem⟩
  · -- the last token left is no run of blanks, so a blank may follow it
    intro t ht
    have hne : r.body.rdropWhile isBlanks ≠ [] := by
      rintro h
      simp [h] at ht
    have hnot := List.rdropWhile_last_not isBlanks r.body hne
    rw [List.getLast?_eq_some_getLast hne] at ht
    cases ht
    have hmem := (List.rdropWhile_prefix isBlanks r.body).subset (List.getLast_mem hne)
    have hstops := (stops_of_mem_body hr hclosed _ hmem).resolve_left hnot
    rw [← hstops]
    exact stops_eq_of_head? _ rfl

/-- **The attribute is read as one.** -/
theorem tokenize_textNamingColumn (hr : IsLexed r.tokens)
    (hclosed : ∀ t ∈ r.tokens, t.isUnclosed = false) (hcolumn : Name.isName column) :
    tokenize (r.textNamingColumn column) = r.tokensNamingColumn column := by
  rw [← concat_tokensNamingColumn hr hclosed]
  exact tokenize_concat (isLexed_tokensNamingColumn hr hclosed hcolumn)

end

/-! ### Reading the attribute -/

namespace FieldTail

/-- Whether the name `map` is among the tokens, at a place that the test accepts. -/
def hasMapAt (place : List Token → Bool) : (before : List Token) → List Token → Bool
  | _, [] => false
  | before, t :: ts =>
    (t == .name "map".toList && place before) || hasMapAt place (t :: before) ts

theorem namesColumn_eq_hasMapAt (before ts : List Token) :
    namesColumn before ts = hasMapAt isFieldAttributePosition before ts := by
  induction ts generalizing before with
  | nil => rfl
  | cons t ts ih => rw [namesColumn, hasMapAt, ih]

/-- How often the name `map` is among the tokens, at a place that the test accepts. -/
def countMapAt (place : List Token → Bool) : (before : List Token) → List Token → Nat
  | _, [] => 0
  | before, t :: ts =>
    (if t == .name "map".toList && place before then 1 else 0) + countMapAt place (t :: before) ts

theorem hasMapAt_eq_countMapAt_pos (place : List Token → Bool) (before ts : List Token) :
    hasMapAt place before ts = decide (0 < countMapAt place before ts) := by
  induction ts generalizing before with
  | nil => rfl
  | cons t ts ih =>
    rw [hasMapAt, countMapAt, ih]
    cases t == .name "map".toList && place before <;> simp

theorem countMapAt_append (place : List Token → Bool) (before ts us : List Token) :
    countMapAt place before (ts ++ us) =
      countMapAt place before ts + countMapAt place (ts.reverse ++ before) us := by
  induction ts generalizing before with
  | nil => simp [countMapAt]
  | cons t ts ih =>
    simp only [List.cons_append, countMapAt, ih, List.reverse_cons, List.append_assoc, List.nil_append]
    omega

theorem hasMapAt_append (place : List Token → Bool) (before ts us : List Token) :
    hasMapAt place before (ts ++ us) =
      (hasMapAt place before ts || hasMapAt place (ts.reverse ++ before) us) := by
  simp only [hasMapAt_eq_countMapAt_pos, countMapAt_append, ← Bool.decide_or, Nat.add_pos_iff_pos_or_pos]

theorem namesColumn_append (before ts us : List Token) :
    namesColumn before (ts ++ us) =
      (namesColumn before ts || namesColumn (ts.reverse ++ before) us) := by
  rw [namesColumn_eq_hasMapAt, namesColumn_eq_hasMapAt, namesColumn_eq_hasMapAt, hasMapAt_append]

theorem namesColumn_columnTokens (before : List Token) (column : Text) (ts : List Token) :
    namesColumn before (columnTokens column ++ ts) := by
  simp [columnTokens, namesColumn, isFieldAttributePosition, isAttributePosition]

theorem namesColumn_tokensNamingColumn (r : RecasedText) (column : Text) :
    namesColumn [] (r.tokensNamingColumn column) := by
  rw [RecasedText.tokensNamingColumn, namesColumn_append, namesColumn_columnTokens, Bool.or_true]

theorem isLexed_recase (s : Text) : IsLexed (recase s).tokens :=
  (RecasedText.renames_ofText isRule s).isLexed (isLexed_tokenize s)

theorem tokenize_text_recase (s : Text) : tokenize (recase s).text = (recase s).tokens :=
  RecasedText.tokenize_text isRule s

theorem isUnclosed_of_mem_recase {s : Text} (hs : ∀ t ∈ tokenize s, t.isUnclosed = false) :
    ∀ t ∈ (recase s).tokens, t.isUnclosed = false :=
  (RecasedText.renames_ofText isRule s).isUnclosed_of_mem hs

/-- Renaming leaves the tail with its new attribute as it is. -/
theorem tokens_recase_textNamingColumn {s column : Text}
    (hs : ∀ t ∈ tokenize s, t.isUnclosed = false) (hcolumn : Name.isName column) :
    (recase ((recase s).textNamingColumn column)).tokens = (recase s).tokensNamingColumn column := by
  have hr := isLexed_recase s
  have hread := tokenize_textNamingColumn hr (isUnclosed_of_mem_recase hs) hcolumn
  obtain ⟨rest, hrest⟩ := body_prefix (r := recase s)
  -- what comes from the tail was renamed before
  have hbody : (renameTokens rule [] ((recase s).body.rdropWhile isBlanks)).map (·.token) =
      (recase s).body.rdropWhile isBlanks := by
    have hstable := RecasedText.tokens_ofText_text isRule s
    rw [RecasedText.ofText, RecasedText.tokenize_text isRule] at hstable
    change (renameTokens rule [] (recase s).tokens).map (·.token) = (recase s).tokens at hstable
    rw [← hrest, renameTokens_append, List.map_append] at hstable
    exact List.append_inj_left hstable (by simp)
  -- what is added holds no name in snake_case
  have hadded : ∀ before, (renameTokens rule before
      (columnTokens column ++ commentTokens (recase s).comment?)).map (·.token) =
      columnTokens column ++ commentTokens (recase s).comment? := by
    intro before
    refine map_token_renameTokens isRule before fun n hn => ?_
    have : n = "map".toList := by
      cases hc : (recase s).comment? <;> simp_all [columnTokens, commentTokens]
    rw [this]
    rfl
  unfold recase at hread ⊢
  rw [RecasedText.ofText, hread]
  simp only [RecasedText.tokensNamingColumn]
  rw [renameTokens_append, List.map_append]
  exact congrArg₂ _ hbody (hadded _)

end FieldTail

end Recase
