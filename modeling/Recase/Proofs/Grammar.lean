import Recase.Proofs.Lexing

/-!
# The grammar of tokens

Which lists of tokens a text can have, said without reading the text: what each token looks like, which
tokens nothing can follow, and which two cannot be neighbours because they would be read as one.

* `IsQuoted`, `IsClosedLiteral`, `IsOpenLiteral` — string literals;
* `IsLexeme` — the forms of tokens;
* `EndsText`, `RunsInto` — what cannot follow a token;
* `IsWellFormed` — the three together, for a list;
* `tokenize_eq_iff` — a text has exactly one such list, which `tokenize` finds.
-/

namespace Recase.Token

/-! ### String literals -/

/-- What may stand between the quotes of a literal: characters other than quotes and backslashes, and
backslashes that are each followed by the character they escape. -/
inductive IsQuoted : Text → Prop
  | nil : IsQuoted []
  | cons {c : Char} {cs : Text} (hquote : c ≠ '"') (hslash : c ≠ '\\') (h : IsQuoted cs) :
      IsQuoted (c :: cs)
  | escape (c : Char) {cs : Text} (h : IsQuoted cs) : IsQuoted ('\\' :: c :: cs)

/-- A literal from its opening quote to the first quote that is not escaped. -/
def IsClosedLiteral (s : Text) : Prop := ∃ body, IsQuoted body ∧ s = '"' :: body ++ ['"']

/-- A literal without a closing quote.  It may end in a backslash that has nothing to escape. -/
def IsOpenLiteral (s : Text) : Prop :=
  ∃ body, IsQuoted body ∧ (s = '"' :: body ∨ s = '"' :: body ++ ['\\'])

theorem IsQuoted.closes_append_quote {body : Text} (h : IsQuoted body) : closes (body ++ ['"']) := by
  induction h with
  | nil => rfl
  | cons hquote hslash _ ih =>
    rw [List.cons_append, closes]
    · exact ih
    · exact hquote
    · intro _ _ hc
      exact absurd hc hslash
  | escape c _ ih => exact ih

theorem exists_isQuoted_of_closes {cs : Text} (h : closes cs) :
    ∃ body, IsQuoted body ∧ cs = body ++ ['"'] := by
  fun_induction closes cs with
  | case1 => cases h
  | case2 cs => exact ⟨[], .nil, by rw [List.isEmpty_iff.1 h]; rfl⟩
  | case3 c cs ih =>
    obtain ⟨body, hbody, rfl⟩ := ih h
    exact ⟨_, .escape c hbody, rfl⟩
  | case4 c cs hquote hslash ih =>
    obtain ⟨body, hbody, rfl⟩ := ih h
    -- what follows is not empty, so a backslash would escape something
    have hc : c ≠ '\\' := by
      rintro rfl
      cases body with
      | nil => exact hslash _ _ rfl rfl
      | cons d ds => exact hslash _ _ rfl rfl
    exact ⟨_, .cons hquote hc hbody, rfl⟩

theorem IsQuoted.staysOpen {body rest : Text} (h : IsQuoted body) (hrest : rest = [] ∨ rest = ['\\']) :
    staysOpen (body ++ rest) := by
  induction h with
  | nil => rcases hrest with rfl | rfl <;> rfl
  | cons hquote hslash _ ih =>
    rw [List.cons_append, Token.staysOpen]
    · exact ih
    · exact hquote
    · intro _ _ hc
      exact absurd hc hslash
  | escape c _ ih => exact ih

theorem exists_isQuoted_of_staysOpen {cs : Text} (h : staysOpen cs) :
    ∃ body rest, IsQuoted body ∧ (rest = [] ∨ rest = ['\\']) ∧ cs = body ++ rest := by
  fun_induction staysOpen cs with
  | case1 => exact ⟨[], [], .nil, Or.inl rfl, rfl⟩
  | case2 => cases h
  | case3 c cs ih =>
    obtain ⟨body, rest, hbody, hrest, rfl⟩ := ih h
    exact ⟨_, rest, .escape c hbody, hrest, rfl⟩
  | case4 c cs hquote hslash ih =>
    obtain ⟨body, rest, hbody, hrest, rfl⟩ := ih h
    by_cases hc : c = '\\'
    · -- then nothing follows it
      subst hc
      have hnil : body ++ rest = [] := by
        cases hcs : body ++ rest with
        | nil => rfl
        | cons d ds => exact (hslash d ds rfl hcs).elim
      exact ⟨[], ['\\'], .nil, Or.inr rfl, by rw [hnil]; rfl⟩
    · exact ⟨_, rest, .cons hquote hc hbody, hrest, rfl⟩

theorem isClosedLiteral_iff {s : Text} : IsClosedLiteral s ↔ ∃ cs, s = '"' :: cs ∧ closes cs := by
  constructor
  · rintro ⟨body, hbody, rfl⟩
    exact ⟨_, rfl, hbody.closes_append_quote⟩
  · rintro ⟨cs, rfl, hcs⟩
    obtain ⟨body, hbody, rfl⟩ := exists_isQuoted_of_closes hcs
    exact ⟨body, hbody, rfl⟩

theorem isOpenLiteral_iff {s : Text} : IsOpenLiteral s ↔ ∃ cs, s = '"' :: cs ∧ staysOpen cs := by
  constructor
  · rintro ⟨body, hbody, rfl | rfl⟩
    · exact ⟨body, rfl, by simpa using hbody.staysOpen (Or.inl rfl)⟩
    · exact ⟨_, rfl, hbody.staysOpen (Or.inr rfl)⟩
  · rintro ⟨cs, rfl, hcs⟩
    obtain ⟨body, rest, hbody, rfl | rfl, rfl⟩ := exists_isQuoted_of_staysOpen hcs
    · exact ⟨body, hbody, Or.inl (by simp)⟩
    · exact ⟨body, hbody, Or.inr rfl⟩

theorem not_staysOpen_of_closes {cs : Text} (h : closes cs) : staysOpen cs = false := by
  fun_induction closes cs with
  | case1 => cases h
  | case2 cs => rfl
  | case3 c cs ih => exact ih h
  | case4 c cs hquote hslash ih =>
    rw [staysOpen]
    · exact ih h
    · exact hquote
    · exact hslash

/-! ### The forms of tokens -/

/-- What a token of each class looks like. -/
inductive IsLexeme : Token → Prop
  | name {c : Char} {cs : Text} (hc : Name.isStart c) (hcs : ∀ d ∈ cs, Name.isPart d) :
      IsLexeme (.name (c :: cs))
  | number {c : Char} {cs : Text} (hc : c.isDigit) (hcs : ∀ d ∈ cs, Name.isPart d) :
      IsLexeme (.number (c :: cs))
  | blanks {s : Text} (hne : s ≠ []) (hs : ∀ c ∈ s, isBlank c) : IsLexeme (.blanks s)
  | mark {c : Char} (hquote : c ≠ '"') (hblank : isBlank c = false) (hstart : Name.isStart c = false)
      (hdigit : c.isDigit = false) : IsLexeme (.mark c)
  | literal {s : Text} (hs : IsClosedLiteral s ∨ IsOpenLiteral s) : IsLexeme (.literal s)
  | comment (s : Text) : IsLexeme (.comment ('/' :: '/' :: s))

theorem isFormed_literal_iff {s : Text} :
    (literal s).isFormed ↔ IsClosedLiteral s ∨ IsOpenLiteral s := by
  rw [isClosedLiteral_iff, isOpenLiteral_iff]
  constructor
  · intro h
    obtain ⟨cs, rfl⟩ : ∃ cs, s = '"' :: cs := by
      by_contra hs
      rw [isFormed] at h
      · cases h
      · rintro cs rfl
        exact hs ⟨cs, rfl⟩
    exact (Bool.or_eq_true_iff.1 h).imp (fun h => ⟨cs, rfl, h⟩) fun h => ⟨cs, rfl, h⟩
  · rintro (⟨cs, rfl, h⟩ | ⟨cs, rfl, h⟩) <;> simp [isFormed, h]

theorem isLexeme_iff {t : Token} : t.IsLexeme ↔ t.isFormed := by
  constructor
  · intro h
    cases h with
    | name hc hcs => exact Name.isName_cons.2 ⟨hc, hcs⟩
    | number hc hcs => simpa [isFormed, hc] using hcs
    | blanks hne hs => simpa [isFormed, hne] using hs
    | mark hquote hblank hstart hdigit => simp [isFormed, hquote, hblank, hstart, hdigit]
    | literal hs => exact isFormed_literal_iff.2 hs
    | comment s => rfl
  · intro h
    cases t with
    | name s =>
      cases s with
      | nil => cases h
      | cons c cs =>
        obtain ⟨hc, hcs⟩ := Name.isName_cons.1 h
        exact .name hc hcs
    | number s =>
      cases s with
      | nil => cases h
      | cons c cs =>
        obtain ⟨hc, hcs⟩ : c.isDigit ∧ ∀ d ∈ cs, Name.isPart d := by simpa [isFormed] using h
        exact .number hc hcs
    | blanks s =>
      obtain ⟨hne, hs⟩ : s ≠ [] ∧ ∀ c ∈ s, isBlank c := by simpa [isFormed] using h
      exact .blanks hne hs
    | mark c =>
      simp only [isFormed, Bool.and_eq_true, decide_eq_true_eq, Bool.not_eq_true'] at h
      exact .mark h.1.1.1 h.1.1.2 h.1.2 h.2
    | literal s => exact .literal (isFormed_literal_iff.1 h)
    | comment s =>
      obtain ⟨rest, rfl⟩ := List.isPrefixOf_iff_prefix.1 h
      exact .comment rest

/-! ### Neighbours -/

/-- Tokens that nothing follows: comments, and literals that are not closed. -/
inductive EndsText : Token → Prop
  | comment (s : Text) : EndsText (.comment s)
  | literal {s : Text} (h : IsOpenLiteral s) : EndsText (.literal s)

/-- Whether the token is a name or a number. -/
def isWord : Token → Bool
  | name _ | number _ => true
  | _ => false

/-- Two tokens that would not be read as two if the second stood directly behind the first. -/
inductive RunsInto : Token → Token → Prop
  | words {t u : Token} (ht : t.isWord) (hu : u.isWord) : RunsInto t u
  | blanks (r s : Text) : RunsInto (.blanks r) (.blanks s)
  | slashes : RunsInto (.mark '/') (.mark '/')
  | comment (s : Text) : RunsInto (.mark '/') (.comment s)

/-- **The grammar of token lists.** -/
structure IsWellFormed (ts : List Token) : Prop where
  lexemes : ∀ t ∈ ts, t.IsLexeme
  ends : ∀ t ∈ ts.dropLast, ¬ t.EndsText
  apart : ts.IsChain fun t u => ¬ t.RunsInto u

/-! ### Reading a list back -/

section Neighbours

variable {t u : Token}

/-- The first character of a token tells whether it is a word, a run of blanks or begins with a slash. -/
theorem exists_text_eq_cons (hu : u.IsLexeme) : ∃ c cs, u.text = c :: cs ∧
    (Name.isPart c ↔ u.isWord) ∧ (isBlank c ↔ ∃ s, u = .blanks s) ∧
    (c = '/' ↔ u = .mark '/' ∨ ∃ s, u = .comment s) := by
  have hslash : ∀ {c : Char}, Name.isPart c → c ≠ '/' := by
    rintro c hc rfl
    cases hc
  cases hu with
  | @name c cs hc hcs =>
    have hpart := Name.isPart_of_isStart hc
    exact ⟨c, cs, rfl, by simp [hpart, isWord], by simp [Name.isBlank_of_isPart hpart],
      by simp [hslash hpart]⟩
  | @number c cs hc hcs =>
    have hpart := Name.isPart_of_isDigit hc
    exact ⟨c, cs, rfl, by simp [hpart, isWord], by simp [Name.isBlank_of_isPart hpart],
      by simp [hslash hpart]⟩
  | @blanks s hne hs =>
    obtain ⟨c, cs, rfl⟩ := List.exists_cons_of_ne_nil hne
    have hblank := hs c (List.mem_cons_self ..)
    refine ⟨c, cs, rfl, by simp [Name.isPart_of_isBlank hblank, isWord], by simp [hblank], ?_⟩
    have : c ≠ '/' := by
      rintro rfl
      cases hblank
    simp [this]
  | @mark c hquote hblank hstart hdigit =>
    have hpart : Name.isPart c = false := by
      simp only [Name.isStart, Bool.or_eq_false_iff] at hstart
      simp [Name.isPart, Char.isAlphanum, hstart, hdigit]
    exact ⟨c, [], rfl, by simp [hpart, isWord], by simp [hblank], by simp⟩
  | @literal s hs =>
    obtain ⟨cs, rfl⟩ : ∃ cs, s = '"' :: cs := by
      rcases hs with ⟨body, -, rfl⟩ | ⟨body, -, rfl | rfl⟩ <;> exact ⟨_, rfl⟩
    have hpart : Name.isPart '"' = false := rfl
    have hblank : isBlank '"' = false := rfl
    exact ⟨'"', cs, rfl, by simp [hpart, isWord], by simp [hblank], by simp⟩
  | comment s =>
    have hpart : Name.isPart '/' = false := rfl
    have hblank : isBlank '/' = false := rfl
    exact ⟨'/', '/' :: s, rfl, by simp [hpart, isWord], by simp [hblank], by simp⟩

theorem runsInto_iff_of_isWord (ht : t.isWord) : t.RunsInto u ↔ u.isWord := by
  constructor
  · intro h
    cases h with
    | words _ hu => exact hu
    | _ => cases ht
  · exact .words ht

theorem blanks_runsInto_iff {r : Text} : (blanks r).RunsInto u ↔ ∃ s, u = .blanks s := by
  constructor
  · intro h
    cases h with
    | words ht _ => cases ht
    | blanks r s => exact ⟨s, rfl⟩
  · rintro ⟨s, rfl⟩
    exact .blanks r s

theorem mark_runsInto_iff {c : Char} :
    (mark c).RunsInto u ↔ c = '/' ∧ (u = .mark '/' ∨ ∃ s, u = .comment s) := by
  constructor
  · intro h
    cases h with
    | words ht _ => cases ht
    | slashes => exact ⟨rfl, Or.inl rfl⟩
    | comment s => exact ⟨rfl, Or.inr ⟨s, rfl⟩⟩
  · rintro ⟨rfl, rfl | ⟨s, rfl⟩⟩
    · exact .slashes
    · exact .comment s

theorem not_literal_runsInto {s : Text} : ¬ (literal s).RunsInto u := by
  rintro ⟨ht, -⟩
  cases ht

theorem endsText_literal_iff {cs : Text} : (literal ('"' :: cs)).EndsText ↔ staysOpen cs := by
  constructor
  · intro h
    cases h with
    | literal h =>
      obtain ⟨cs', hcs, hopen⟩ := isOpenLiteral_iff.1 h
      cases hcs
      exact hopen
  · exact fun h => .literal (isOpenLiteral_iff.2 ⟨cs, rfl, h⟩)

theorem not_endsText_of_isWord (ht : t.isWord) : ¬ t.EndsText := by
  rintro (_ | _) <;> cases ht

/-- A token ends in front of another one if something may follow it and the two do not run together. -/
theorem stops_concat_cons_iff (ht : t.IsLexeme) (hu : u.IsLexeme) (ts : List Token) :
    t.stops (concat (u :: ts)) ↔ ¬ t.EndsText ∧ ¬ t.RunsInto u := by
  obtain ⟨c, cs, htext, hpart, hblank, hslash⟩ := exists_text_eq_cons hu
  rw [concat_cons, htext, List.cons_append]
  cases ht with
  | name | number =>
    rw [and_iff_right (not_endsText_of_isWord rfl), runsInto_iff_of_isWord rfl, ← hpart]
    simp [stops]
  | @blanks s hne hs =>
    have hends : ¬ (blanks s).EndsText := by rintro ⟨⟩
    rw [and_iff_right hends, blanks_runsInto_iff, ← hblank]
    simp [stops]
  | @mark d hquote hb hstart hdigit =>
    have hends : ¬ (mark d).EndsText := by rintro ⟨⟩
    rw [and_iff_right hends, mark_runsInto_iff, ← hslash]
    simp [stops, imp_iff_not_or]
  | @literal s hs =>
    rw [and_iff_left not_literal_runsInto]
    rw [isClosedLiteral_iff, isOpenLiteral_iff] at hs
    rcases hs with ⟨body, rfl, h⟩ | ⟨body, rfl, h⟩
    · simp [stops, endsText_literal_iff, h, not_staysOpen_of_closes h]
    · have hcloses : closes body = false := by
        refine Bool.eq_false_iff.2 fun h' => ?_
        rw [not_staysOpen_of_closes h'] at h
        cases h
      simp [stops, endsText_literal_iff, h, hcloses]
  | comment s => exact iff_of_false (by simp [stops]) fun h => h.1 (.comment _)

end Neighbours

theorem stops_nil (t : Token) : t.stops [] := by cases t <;> simp [stops]

theorem isWellFormed_cons_cons {t u : Token} {ts : List Token} :
    IsWellFormed (t :: u :: ts) ↔
      t.IsLexeme ∧ (¬ t.EndsText ∧ ¬ t.RunsInto u) ∧ IsWellFormed (u :: ts) := by
  constructor
  · rintro ⟨hlexemes, hends, hapart⟩
    obtain ⟨ht, hlexemes⟩ := List.forall_mem_cons.1 hlexemes
    rw [List.dropLast_cons_of_ne_nil (by simp), List.forall_mem_cons] at hends
    rw [List.isChain_cons_cons] at hapart
    exact ⟨ht, ⟨hends.1, hapart.1⟩, hlexemes, hends.2, hapart.2⟩
  · rintro ⟨ht, ⟨hend, hinto⟩, hlexemes, hends, hapart⟩
    refine ⟨List.forall_mem_cons.2 ⟨ht, hlexemes⟩, ?_, List.isChain_cons_cons.2 ⟨hinto, hapart⟩⟩
    rw [List.dropLast_cons_of_ne_nil (by simp), List.forall_mem_cons]
    exact ⟨hend, hends⟩

/-- The conditions on tokens and their neighbours are those under which a list is read back. -/
theorem isLexed_iff_isWellFormed (ts : List Token) : IsLexed ts ↔ IsWellFormed ts := by
  induction ts with
  | nil => exact iff_of_true trivial ⟨by simp, by simp, .nil⟩
  | cons t ts ih =>
    cases ts with
    | nil =>
      constructor
      · rintro ⟨ht, -, -⟩
        exact ⟨by simpa using isLexeme_iff.2 ht, by simp, .singleton t⟩
      · rintro ⟨hlexemes, -, -⟩
        exact ⟨isLexeme_iff.1 (hlexemes t (by simp)), stops_nil t, trivial⟩
    | cons u ts =>
      rw [isWellFormed_cons_cons, ← ih, isLexeme_iff]
      -- the form of both tokens is known on either side
      constructor
      · rintro ⟨ht, hstops, hts⟩
        refine ⟨ht, ?_, hts⟩
        exact (stops_concat_cons_iff (isLexeme_iff.2 ht) (isLexeme_iff.2 hts.1) ts).1 hstops
      · rintro ⟨ht, hnext, hts⟩
        refine ⟨ht, ?_, hts⟩
        exact (stops_concat_cons_iff (isLexeme_iff.2 ht) (isLexeme_iff.2 hts.1) ts).2 hnext

/-- **Every text has one well-formed list of tokens, and reading finds it.** -/
theorem tokenize_eq_iff (s : Text) (ts : List Token) :
    tokenize s = ts ↔ concat ts = s ∧ IsWellFormed ts := by
  rw [← isLexed_iff_isWellFormed]
  constructor
  · rintro rfl
    exact ⟨concat_tokenize s, isLexed_tokenize s⟩
  · rintro ⟨rfl, h⟩
    exact tokenize_concat h

end Recase.Token
