import Recase.Renaming
import Recase.Proofs.Lexing

/-!
# Renaming along a line

`Renames ts es us` says that the tokens `us` are the tokens `ts` after the edits `es`, which were made
from left to right, each at a name of its own.  The log of a line holds `es` only, so this is what
can be said about a line, its log and the new line without the rules for renaming.

* `Renames.isLexed` — the new tokens are read back from their text;
* `Renames.concat_eq_iff` — the text stays the same iff every edit writes what it replaces;
* `Renames.count_concat` — characters that no name holds are neither added nor removed;
* `IsRule` — what the rules have in common;
* `renameToken_cases` — what a rule can do to a token;
* `tokens_ofText_text` — a rule applied to its own result changes nothing.
-/

namespace Recase

open Token

/-- The tokens on the right are those on the left after the edits. -/
inductive Renames : List Token → List Edit → List Token → Prop
  | nil : Renames [] [] []
  | keep (t : Token) {ts us : List Token} {es : List Edit} (h : Renames ts es us) :
      Renames (t :: ts) es (t :: us)
  | rename {e : Edit} {ts us : List Token} {es : List Edit} (he : e.isRename) (h : Renames ts es us) :
      Renames (.name e.name :: ts) (e :: es) (.name e.result :: us)

namespace Renames

variable {ts us : List Token} {es : List Edit}

theorem refl : ∀ ts : List Token, Renames ts [] ts
  | [] => nil
  | t :: ts => keep t (refl ts)

theorem append (h : Renames ts es us) {ts' us' : List Token} {es' : List Edit}
    (h' : Renames ts' es' us') : Renames (ts ++ ts') (es ++ es') (us ++ us') := by
  induction h with
  | nil => exact h'
  | keep t _ ih => exact keep t ih
  | rename he _ ih => exact rename he ih

theorem isRename_of_mem (h : Renames ts es us) : ∀ e ∈ es, e.isRename := by
  induction h with
  | nil => simp
  | keep _ _ ih => exact ih
  | rename he _ ih => exact List.forall_mem_cons.2 ⟨he, ih⟩

/-! ### The new text -/

/-- A name is replaced by a name, so what stands before it stops there as it did. -/
theorem isLexed_and_stops (h : Renames ts es us) (hts : IsLexed ts) :
    IsLexed us ∧ ∀ t : Token, t.stops (concat us) = t.stops (concat ts) := by
  induction h with
  | nil => exact ⟨trivial, fun _ => rfl⟩
  | @keep t ts us es _ ih =>
    obtain ⟨ht, hstops, hts⟩ := hts
    obtain ⟨hus, hsame⟩ := ih hts
    refine ⟨⟨ht, by rwa [hsame], hus⟩, fun u => u.stops_eq_of_head? ?_⟩
    simp [head?_text_append ht]
  | @rename e ts us es he _ ih =>
    obtain ⟨ht, hstops, hts⟩ := hts
    obtain ⟨hus, hsame⟩ := ih hts
    have hresult := Edit.isName_result he
    refine ⟨⟨hresult, ?_, hus⟩, fun u => ?_⟩
    · have : (name e.result).stops (concat us) = (name e.name).stops (concat us) := rfl
      rwa [this, hsame]
    · obtain ⟨c, cs, hc⟩ := List.exists_cons_of_ne_nil (Name.ne_nil_of_isName hresult)
      obtain ⟨d, ds, hd⟩ := List.exists_cons_of_ne_nil (Name.ne_nil_of_isName (Edit.isName_name he))
      simp only [concat_cons, text, hc, hd, List.cons_append]
      refine u.stops_eq_of_isPart ?_ ?_ _ _
      · exact Name.isPart_of_mem hresult c (hc ▸ List.mem_cons_self ..)
      · exact Name.isPart_of_mem (Edit.isName_name he) d (hd ▸ List.mem_cons_self ..)

theorem isLexed (h : Renames ts es us) (hts : IsLexed ts) : IsLexed us := (h.isLexed_and_stops hts).1

theorem eq_iff (h : Renames ts es us) : us = ts ↔ ∀ e ∈ es, e.result = e.name := by
  induction h with
  | nil => simp
  | keep t _ ih => simp [ih]
  | rename _ _ ih => simp [ih]

/-- **The text is the same iff no edit changes its name.**  Equal texts have equal tokens, since both
lists are read back from their texts. -/
theorem concat_eq_iff (h : Renames ts es us) (hts : IsLexed ts) :
    concat us = concat ts ↔ ∀ e ∈ es, e.result = e.name := by
  rw [← h.eq_iff]
  exact ⟨concat_inj (h.isLexed hts) hts, congrArg concat⟩

theorem count_concat (h : Renames ts es us) {c : Char} (hc : Name.isPart c = false) :
    (concat us).count c = (concat ts).count c := by
  induction h with
  | nil => rfl
  | keep t _ ih => simp [ih]
  | rename he _ ih =>
    have h1 := Name.not_mem_of_isName (Edit.isName_result he) hc
    have h2 := Name.not_mem_of_isName (Edit.isName_name he) hc
    simp [text, List.count_eq_zero.2 h1, List.count_eq_zero.2 h2, ih]

theorem not_mem_concat (h : Renames ts es us) {c : Char} (hc : Name.isPart c = false)
    (hts : c ∉ concat ts) : c ∉ concat us := by
  rw [← List.count_eq_zero] at hts ⊢
  rw [h.count_concat hc, hts]

theorem getLast?_concat (h : Renames ts es us) :
    (concat us).getLast? = (concat ts).getLast? ∨
      ∃ c d, (concat us).getLast? = some c ∧ (concat ts).getLast? = some d ∧
        Name.isPart c ∧ Name.isPart d := by
  induction h with
  | nil => exact Or.inl rfl
  | keep t _ ih =>
    simp only [concat_cons, List.getLast?_append]
    rcases ih with ih | ⟨c, d, hc, hd, h⟩
    · exact Or.inl (by rw [ih])
    · exact Or.inr ⟨c, d, by simp [hc], by simp [hd], h⟩
  | @rename e ts us es he _ ih =>
    simp only [concat_cons, List.getLast?_append, text]
    rcases ih with ih | ⟨c, d, hc, hd, h⟩
    · rw [ih]
      cases (concat ts).getLast? with
      | some d => exact Or.inl rfl
      | none =>
        -- the name itself is last
        have hresult := Edit.isName_result he
        have hname := Edit.isName_name he
        refine Or.inr ⟨_, _, List.getLast?_eq_some_getLast (Name.ne_nil_of_isName hresult),
          List.getLast?_eq_some_getLast (Name.ne_nil_of_isName hname), ?_, ?_⟩
        · exact Name.isPart_of_mem hresult _ (List.getLast_mem _)
        · exact Name.isPart_of_mem hname _ (List.getLast_mem _)
    · exact Or.inr ⟨c, d, by simp [hc], by simp [hd], h⟩

theorem mem_or_isName (h : Renames ts es us) : ∀ u ∈ us, u ∈ ts ∨ u.isName := by
  induction h with
  | nil => simp
  | keep t _ ih =>
    intro u hu
    rcases List.mem_cons.1 hu with rfl | hu
    · exact Or.inl (List.mem_cons_self ..)
    · exact (ih u hu).imp_left (List.mem_cons_of_mem _)
  | rename _ _ ih =>
    intro u hu
    rcases List.mem_cons.1 hu with rfl | hu
    · exact Or.inr rfl
    · exact (ih u hu).imp_left (List.mem_cons_of_mem _)

theorem isUnclosed_of_mem (h : Renames ts es us) (hclosed : ∀ t ∈ ts, t.isUnclosed = false) :
    ∀ u ∈ us, u.isUnclosed = false := by
  intro u hu
  rcases h.mem_or_isName u hu with hu | hu
  · exact hclosed u hu
  · cases u with
    | name s => rfl
    | _ => cases hu

end Renames

/-! ### Rules -/

/-- Two tokens that are equal or both names: no rule tells more apart to the left of a name. -/
def SameOutline (t u : Token) : Prop := t = u ∨ t.isName ∧ u.isName

theorem SameOutline.refl (t : Token) : SameOutline t t := Or.inl rfl

/-- What the rules for renaming have in common: they rename names in snake_case only, and of the
names to the left they do not look at the spelling. -/
structure IsRule (rule : List Token → Text → Option EditKind) : Prop where
  isRename : ∀ {before name kind}, rule before name = some kind → (Edit.mk kind name).isRename
  congr : ∀ {before before' : List Token} (name : Text),
    List.Forall₂ SameOutline before before' → rule before' name = rule before name

section Rules

variable {rule : List Token → Text → Option EditKind}

theorem renameTokens_name (before : List Token) (s : Text) (ts : List Token) :
    renameTokens rule before (.name s :: ts) =
      (match rule before s with
        | some kind => ⟨.name (Edit.result ⟨kind, s⟩), some ⟨kind, s⟩⟩
        | none => ⟨.name s, none⟩) :: renameTokens rule (.name s :: before) ts := rfl

theorem renameTokens_cons_of_not_isName {t : Token} (ht : t.isName = false) (before ts : List Token) :
    renameTokens rule before (t :: ts) = ⟨t, none⟩ :: renameTokens rule (t :: before) ts := by
  cases t with
  | name s => cases ht
  | _ => rfl

/-- What a rule makes of one token.  The tokens `before` stand to its left, nearest first. -/
def renameToken (rule : List Token → Text → Option EditKind) (before : List Token) : Token → Renamed
  | .name s =>
    match rule before s with
    | some kind => ⟨.name (Edit.result ⟨kind, s⟩), some ⟨kind, s⟩⟩
    | none => ⟨.name s, none⟩
  | t => ⟨t, none⟩

theorem renameTokens_cons (before : List Token) (t : Token) (ts : List Token) :
    renameTokens rule before (t :: ts) =
      renameToken rule before t :: renameTokens rule (t :: before) ts := by
  cases t <;> rfl

/-- **What can happen to a token**: it is left alone, or it is a name for which the rule gives a kind. -/
theorem renameToken_cases (rule : List Token → Text → Option EditKind) (before : List Token) (t : Token) :
    renameToken rule before t = ⟨t, none⟩ ∨
      ∃ kind s, t = .name s ∧ rule before s = some kind ∧
        renameToken rule before t = ⟨.name (Edit.result ⟨kind, s⟩), some ⟨kind, s⟩⟩ := by
  cases t with
  | name s =>
    cases hk : rule before s with
    | none => exact Or.inl (by simp [renameToken, hk])
    | some kind => exact Or.inr ⟨kind, s, rfl, hk, by simp [renameToken, hk]⟩
  | _ => exact Or.inl rfl

theorem sameOutline_renameToken (rule : List Token → Text → Option EditKind) (before : List Token)
    (t : Token) :
    SameOutline t (renameToken rule before t).token := by
  rcases renameToken_cases rule before t with heq | ⟨kind, s, rfl, -, heq⟩
  · rw [heq]
    exact .refl t
  · rw [heq]
    exact Or.inr ⟨rfl, rfl⟩

theorem renameToken_congr (hrule : IsRule rule) {before before' : List Token}
    (hb : List.Forall₂ SameOutline before before') (t : Token) :
    renameToken rule before' t = renameToken rule before t := by
  cases t with
  | name s => simp only [renameToken, hrule.congr s hb]
  | _ => rfl

theorem renameTokens_append (before ts us : List Token) :
    renameTokens rule before (ts ++ us) =
      renameTokens rule before ts ++ renameTokens rule (ts.reverse ++ before) us := by
  induction ts generalizing before with
  | nil => rfl
  | cons t ts ih => simp [renameTokens_cons, ih]

@[simp] theorem length_renameTokens (before ts : List Token) :
    (renameTokens rule before ts).length = ts.length := by
  induction ts generalizing before with
  | nil => rfl
  | cons t ts ih => simp [renameTokens_cons, ih]

/-- Names that are not in snake_case are left alone. -/
theorem map_token_renameTokens (hrule : IsRule rule) (before : List Token) {ts : List Token}
    (hts : ∀ s, .name s ∈ ts → Name.isSnake s = false) :
    (renameTokens rule before ts).map (·.token) = ts := by
  induction ts generalizing before with
  | nil => rfl
  | cons t ts ih =>
    have htail := fun before' => ih before' fun s hs => hts s (List.mem_cons_of_mem _ hs)
    rcases renameToken_cases rule before t with heq | ⟨kind, s, rfl, hk, -⟩
    · rw [renameTokens_cons, heq, List.map_cons, htail]
    · obtain ⟨-, -, hsnake⟩ := Edit.isRename_iff.1 (hrule.isRename hk)
      rw [hts s (List.mem_cons_self ..)] at hsnake
      cases hsnake

theorem renames_renameTokens (hrule : IsRule rule) (before ts : List Token) :
    Renames ts ((renameTokens rule before ts).filterMap (·.edit?))
      ((renameTokens rule before ts).map (·.token)) := by
  induction ts generalizing before with
  | nil => exact .nil
  | cons t ts ih =>
    rw [renameTokens_cons]
    rcases renameToken_cases rule before t with heq | ⟨kind, s, rfl, hk, heq⟩
    · rw [heq]
      exact .keep t (ih _)
    · rw [heq]
      exact .rename (e := ⟨kind, s⟩) (hrule.isRename hk) (ih _)

/-- A token that was renamed stays as it is: a name that is renamed again is still in snake_case, so it
was not changed the first time. -/
theorem token_renameToken_token (hrule : IsRule rule) (before : List Token) (t : Token) :
    (renameToken rule before (renameToken rule before t).token).token =
      (renameToken rule before t).token := by
  rcases renameToken_cases rule before t with heq | ⟨kind, s, rfl, hk, heq⟩
  · rw [heq, heq]
  · rw [heq]
    rcases renameToken_cases rule before (.name (Edit.result ⟨kind, s⟩)) with
      hkeep | ⟨kind', s', hname, hk', -⟩
    · rw [hkeep]
    · obtain rfl : Edit.result ⟨kind, s⟩ = s' := Token.name.inj hname
      obtain ⟨-, -, hsnake⟩ := Edit.isRename_iff.1 (hrule.isRename hk')
      have hsame : Edit.result ⟨kind, s⟩ = s :=
        Edit.result_eq_of_isSnake (hrule.isRename hk) hsnake
      have htwice : renameToken rule before (.name (Edit.result ⟨kind, s⟩)) =
          renameToken rule before (.name s) := by rw [hsame]
      rw [htwice, heq]

/-- **A second pass writes the tokens of the first.** -/
theorem renameTokens_renameTokens (hrule : IsRule rule) {before before' : List Token}
    (hb : List.Forall₂ SameOutline before before') (ts : List Token) :
    (renameTokens rule before' ((renameTokens rule before ts).map (·.token))).map (·.token) =
      (renameTokens rule before ts).map (·.token) := by
  induction ts generalizing before before' with
  | nil => rfl
  | cons t ts ih =>
    rw [renameTokens_cons, List.map_cons, renameTokens_cons, List.map_cons, renameToken_congr hrule hb,
      token_renameToken_token hrule, ih (.cons (sameOutline_renameToken rule before t) hb)]

namespace RecasedText

theorem renames_ofText (hrule : IsRule rule) (s : Text) :
    Renames (tokenize s) (ofText rule s).edits (ofText rule s).tokens :=
  renames_renameTokens hrule [] (tokenize s)

theorem tokenize_text (hrule : IsRule rule) (s : Text) :
    tokenize (ofText rule s).text = (ofText rule s).tokens :=
  tokenize_concat ((renames_ofText hrule s).isLexed (isLexed_tokenize s))

/-- **A rule applied to its own result changes nothing.** -/
theorem tokens_ofText_text (hrule : IsRule rule) (s : Text) :
    (ofText rule (ofText rule s).text).tokens = (ofText rule s).tokens := by
  have h := renameTokens_renameTokens hrule .nil (tokenize s)
  rw [ofText, tokenize_text hrule]
  exact h

end RecasedText

end Rules

/-! ### The two rules -/

theorem isAttributePosition_cons (t : Token) (ts : List Token) :
    isAttributePosition (t :: ts) = (t == .mark '@' || t == .mark '.') := by
  unfold isAttributePosition
  split <;> simp_all

theorem isAttributePosition_congr {before before' : List Token}
    (h : List.Forall₂ SameOutline before before') :
    isAttributePosition before' = isAttributePosition before := by
  cases h with
  | nil => rfl
  | @cons t u ts us htu _ =>
    rw [isAttributePosition_cons, isAttributePosition_cons]
    rcases htu with rfl | ⟨ht, hu⟩
    · rfl
    · cases t <;> cases ht
      cases u <;> cases hu
      rfl

theorem any_isName_congr {before before' : List Token}
    (h : List.Forall₂ SameOutline before before') :
    before'.any isName = before.any isName := by
  induction h with
  | nil => rfl
  | cons htu _ ih =>
    rcases htu with rfl | ⟨ht, hu⟩
    · simp [ih]
    · simp [ht, hu]

theorem FieldList.depth_cons (t : Token) (ts : List Token) :
    FieldList.depth (t :: ts) = FieldList.depthAfter t (FieldList.depth ts) := rfl

theorem depth_congr {before before' : List Token} (h : List.Forall₂ SameOutline before before') :
    FieldList.depth before' = FieldList.depth before := by
  induction h with
  | nil => rfl
  | @cons t u ts us htu _ ih =>
    rw [FieldList.depth_cons, FieldList.depth_cons, ih]
    rcases htu with rfl | ⟨ht, hu⟩
    · rfl
    · cases t <;> cases ht
      cases u <;> cases hu
      rfl

theorem FieldTail.isRule : IsRule FieldTail.rule where
  isRename := by
    intro before name kind h
    unfold rule at h
    split at h
    · cases h
    next hs =>
    have hsnake : Name.isSnake name := by simp at hs; exact hs.1
    split at h <;> cases h <;> simp [Edit.isRename, EditKind.casing?, hsnake]
  congr := by
    intro before before' name h
    rw [rule, isAttributePosition_congr h, any_isName_congr h, rule]

theorem FieldList.isRule : IsRule FieldList.rule where
  isRename := by
    intro before name kind h
    unfold rule at h
    split at h
    · next hs =>
      simp only [Bool.and_eq_true] at hs
      cases h
      simp [Edit.isRename, EditKind.casing?, hs.1.1]
    · cases h
  congr := by
    intro before before' name h
    rw [rule, isAttributePosition_congr h, depth_congr h, rule]

end Recase
