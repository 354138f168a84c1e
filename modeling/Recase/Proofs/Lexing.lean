import Recase.Token
import Recase.Proofs.Names

/-!
# Reading tokens back

A list of tokens can be read back from its text if no token runs on into what follows it.  Whether
it does is a matter of the characters that follow, so the condition on a token is stated together
with them.

* `Token.isFormed` — the token has the form of its class;
* `Token.stops` — the token ends where the given text begins;
* `Token.IsLexed` — both hold for every token of a list;
* `Token.tokenize_concat` and `Token.isLexed_tokenize` — such lists are exactly those that
  `tokenize` gives, each from its own text.
-/

namespace Recase.Token

/-! ### String literals -/

/-- Whether the text after an opening quote ends with the first quote that no backslash escapes. -/
def closes : Text → Bool
  | [] => false
  | '"' :: cs => cs.isEmpty
  | '\\' :: _ :: cs => closes cs
  | _ :: cs => closes cs

/-- Whether the text after an opening quote has no quote that would close it. -/
def staysOpen : Text → Bool
  | [] => true
  | '"' :: _ => false
  | '\\' :: _ :: cs => staysOpen cs
  | _ :: cs => staysOpen cs

/-- Whether the token is a string literal without a closing quote. -/
def isUnclosed : Token → Bool
  | literal (_ :: cs) => staysOpen cs
  | _ => false

theorem closeString_of_closes {cs : Text} (h : closes cs) (rest : Text) :
    closeString (cs ++ rest) = (cs, rest) := by
  fun_induction closes cs with
  | case1 => cases h
  | case2 cs =>
    rw [List.isEmpty_iff.1 h]
    rfl
  | case3 c cs ih => simp [closeString, ih h]
  | case4 c cs hq hb ih =>
    -- a backslash at the very end closes nothing
    have hcs : ∃ d ds, cs = d :: ds := List.exists_cons_of_ne_nil (by rintro rfl; cases h)
    obtain ⟨d, ds, rfl⟩ := hcs
    have hb' : c ≠ '\\' := fun hc => hb d ds hc rfl
    rw [List.cons_append, closeString]
    · rw [ih h]
    · exact hq
    · intro d' ds' hc
      exact absurd hc hb'

theorem closeString_of_staysOpen {cs : Text} (h : staysOpen cs) : closeString cs = (cs, []) := by
  fun_induction staysOpen cs with
  | case1 => rfl
  | case2 => cases h
  | case3 c cs ih => simp [closeString, ih h]
  | case4 c cs hq hb ih =>
    rw [closeString]
    · simp [ih h]
    · exact hq
    · exact hb

theorem closes_or_staysOpen_closeString (cs : Text) :
    closes (closeString cs).1 ∨ staysOpen (closeString cs).1 ∧ (closeString cs).2 = [] := by
  fun_induction closeString cs with
  | case1 => exact Or.inr ⟨rfl, rfl⟩
  | case2 cs => exact Or.inl rfl
  | case3 c cs ih => simpa [closes, staysOpen] using ih
  | case4 c cs hq hb ih =>
    rcases ih with h | ⟨h, hrest⟩
    · left
      rw [closes]
      · exact h
      · exact hq
      · rintro d ds hc hds
        rw [← closeString_append cs, hds] at hb
        exact hb d _ hc rfl
    · right
      refine ⟨?_, hrest⟩
      rw [staysOpen]
      · exact h
      · exact hq
      · rintro d ds hc hds
        rw [← closeString_append cs, hds] at hb
        exact hb d _ hc rfl

/-! ### Tokens in front of a text -/

/-- Whether the token has the form of its class. -/
def isFormed : Token → Bool
  | name s => Name.isName s
  | literal ('"' :: cs) => closes cs || staysOpen cs
  | literal _ => false
  | comment s => s.beginsWith ['/', '/']
  | blanks s => !s.isEmpty && s.all isBlank
  | number (c :: cs) => c.isDigit && cs.all Name.isPart
  | number [] => false
  | mark c => c ≠ '"' && !isBlank c && !Name.isStart c && !c.isDigit

/-- Whether the token ends where the text begins: nothing at the start of the text could be read as
a part of it. -/
def stops : Token → Text → Bool
  | name _, rest | number _, rest => !rest.head?.any Name.isPart
  | literal s, rest => closes s.tail || rest.isEmpty
  | comment _, rest => rest.isEmpty
  | blanks _, rest => !rest.head?.any isBlank
  | mark c, rest => c ≠ '/' || rest.head? ≠ some '/'

theorem stops_eq_of_head? (t : Token) {r s : Text} (h : r.head? = s.head?) :
    t.stops r = t.stops s := by
  have hempty : r.isEmpty = s.isEmpty := by cases r <;> cases s <;> simp_all
  cases t <;> simp [stops, h, hempty]

/-- For what stands before a name it does not matter which name it is. -/
theorem stops_eq_of_isPart (t : Token) {c d : Char} (hc : Name.isPart c) (hd : Name.isPart d)
    (r s : Text) : t.stops (c :: r) = t.stops (d :: s) := by
  have slash : ∀ {x : Char}, Name.isPart x → x ≠ '/' := by
    rintro x hx rfl
    cases hx
  cases t <;> simp [stops, hc, hd, slash, Name.isBlank_of_isPart]

theorem text_ne_nil {t : Token} (ht : t.isFormed) : t.text ≠ [] := by
  rintro h
  cases t <;> simp_all [text, isFormed, Name.isName, Text.beginsWith]

theorem head?_text_append {t : Token} (ht : t.isFormed) (r : Text) :
    (t.text ++ r).head? = t.text.head? := by
  obtain ⟨c, cs, h⟩ := List.exists_cons_of_ne_nil (text_ne_nil ht)
  simp [h]

theorem takeWhile_append_of_head? {p : Char → Bool} {s r : Text} (hs : ∀ c ∈ s, p c)
    (hr : r.head?.any p = false) : (s ++ r).takeWhile p = s ∧ (s ++ r).dropWhile p = r := by
  rw [List.takeWhile_append_of_pos hs, List.dropWhile_append_of_pos hs]
  cases r with
  | nil => simp
  | cons c r =>
    have hc : p c = false := by simpa using hr
    simp [hc]

theorem first_of_isPart {c : Char} (hc : Name.isPart c) (cs : Text) :
    first c cs = if Name.isStart c then (name (c :: cs.takeWhile Name.isPart), cs.dropWhile Name.isPart)
      else if c.isDigit then (number (c :: cs.takeWhile Name.isPart), cs.dropWhile Name.isPart)
      else (mark c, cs) := by
  have hquote : c ≠ '"' := by
    rintro rfl
    cases hc
  have hslash : c ≠ '/' := by
    rintro rfl
    cases hc
  simp [first, hquote, hslash, Name.isBlank_of_isPart hc]

theorem isStart_of_isDigit {c : Char} (h : c.isDigit) : Name.isStart c = false := by
  refine Bool.eq_false_iff.2 fun hs => ?_
  simp only [Name.isStart, Char.isAlpha, Bool.or_eq_true, isUpper_iff_toNat, isLower_iff_toNat,
    beq_iff_eq] at hs
  rw [Char.isDigit_iff_toNat] at h
  have h0 : '0'.toNat = 48 := rfl
  have h9 : '9'.toNat = 57 := rfl
  rcases hs with (hs | hs) | rfl
  · omega
  · omega
  · simp at h

/-- A token that stops is read first. -/
theorem tokenize_text_append {t : Token} {r : Text} (ht : t.isFormed) (hr : t.stops r) :
    tokenize (t.text ++ r) = t :: tokenize r := by
  suffices h : ∀ c cs, t.text = c :: cs → first c (cs ++ r) = (t, r) by
    obtain ⟨c, cs, hc⟩ := List.exists_cons_of_ne_nil (text_ne_nil ht)
    rw [hc, List.cons_append, tokenize, h c cs hc]
  rintro c cs hc
  cases t with
  | name s =>
    subst hc
    obtain ⟨hc, hcs⟩ := Name.isName_cons.1 ht
    obtain ⟨h1, h2⟩ := takeWhile_append_of_head? hcs (by simpa [stops] using hr)
    simp [first_of_isPart (Name.isPart_of_isStart hc), hc, h1, h2]
  | number s =>
    subst hc
    obtain ⟨hc, hcs⟩ : c.isDigit ∧ ∀ d ∈ cs, Name.isPart d := by simpa [isFormed] using ht
    obtain ⟨h1, h2⟩ := takeWhile_append_of_head? hcs (by simpa [stops] using hr)
    simp [first_of_isPart (Name.isPart_of_isDigit hc), isStart_of_isDigit hc, hc, h1, h2]
  | literal s =>
    subst hc
    obtain rfl : c = '"' := by
      by_contra h
      rw [isFormed] at ht
      · cases ht
      · rintro ds hds
        exact h (List.cons.inj hds).1
    have hread : closeString (cs ++ r) = (cs, r) := by
      rcases Bool.or_eq_true_iff.1 ht with h | h
      · exact closeString_of_closes h r
      · rcases Bool.or_eq_true_iff.1 hr with h' | h'
        · exact closeString_of_closes h' r
        · rw [List.isEmpty_iff.1 h', List.append_nil, closeString_of_staysOpen h]
    simp [first, hread]
  | comment s =>
    subst hc
    obtain ⟨ds, rfl, rfl⟩ : ∃ ds, c = '/' ∧ cs = '/' :: ds := by
      obtain ⟨ds, h⟩ := List.isPrefixOf_iff_prefix.1 ht
      cases h
      exact ⟨ds, rfl, rfl⟩
    simp [first, List.isEmpty_iff.1 hr]
  | blanks s =>
    subst hc
    obtain ⟨hc, hcs⟩ : isBlank c ∧ ∀ d ∈ cs, isBlank d := by simpa [isFormed] using ht
    obtain ⟨h1, h2⟩ := takeWhile_append_of_head? hcs (by simpa [stops] using hr)
    have hquote : c ≠ '"' := by
      rintro rfl
      cases hc
    have hslash : c ≠ '/' := by
      rintro rfl
      cases hc
    simp [first, hquote, hslash, hc, h1, h2]
  | mark d =>
    cases hc
    simp only [isFormed, Bool.and_eq_true, decide_eq_true_eq, Bool.not_eq_true'] at ht
    obtain ⟨⟨⟨hquote, hblank⟩, hstart⟩, hdigit⟩ := ht
    have hslash : ¬ (c = '/' ∧ r.head? = some '/') := by
      rintro ⟨rfl, h⟩
      simp [stops, h] at hr
    simp [first, hquote, hslash, hblank, hstart, hdigit]

theorem not_any_head?_dropWhile (p : Char → Bool) (s : Text) :
    (s.dropWhile p).head?.any p = false := by
  have := List.head?_dropWhile_not p s
  revert this
  cases (s.dropWhile p).head? <;> simp

theorem isFormed_first (c : Char) (cs : Text) :
    (first c cs).1.isFormed ∧ (first c cs).1.stops (first c cs).2 := by
  unfold first
  split
  · next hc =>
    subst hc
    rcases closes_or_staysOpen_closeString cs with h | ⟨h, hrest⟩
    · simp [isFormed, stops, h]
    · simp [isFormed, stops, h, hrest]
  split
  · next hc =>
    obtain ⟨rfl, hhead⟩ := hc
    cases cs with
    | nil => cases hhead
    | cons d ds =>
      cases hhead
      exact ⟨rfl, rfl⟩
  split
  · next hc => simp [isFormed, stops, hc, not_any_head?_dropWhile]
  split
  · next hc =>
    simp [isFormed, stops, Name.isName, hc, not_any_head?_dropWhile]
  split
  · next hc => simp [isFormed, stops, hc, not_any_head?_dropWhile]
  · next hquote hslash hblank hstart hdigit =>
    refine ⟨by simp [isFormed, hquote, hblank, hstart, hdigit], ?_⟩
    simp only [stops, Bool.or_eq_true, decide_eq_true_eq]
    tauto

/-! ### Lists of tokens -/

/-- Every token has its form and ends where the next one begins. -/
def IsLexed : List Token → Prop
  | [] => True
  | t :: ts => t.isFormed ∧ t.stops (concat ts) ∧ IsLexed ts

/-- **The tokens are read back from their text.** -/
theorem tokenize_concat {ts : List Token} (h : IsLexed ts) : tokenize (concat ts) = ts := by
  induction ts with
  | nil => rw [concat_nil, tokenize]
  | cons t ts ih =>
    obtain ⟨ht, hstops, hts⟩ := h
    rw [concat_cons, tokenize_text_append ht hstops, ih hts]

theorem isLexed_tokenize (s : Text) : IsLexed (tokenize s) := by
  fun_induction tokenize s with
  | case1 => trivial
  | case2 c cs ih =>
    obtain ⟨hformed, hstops⟩ := isFormed_first c cs
    refine ⟨hformed, ?_, ih⟩
    rwa [concat_tokenize]

/-- Tokens that are read back are determined by their text. -/
theorem concat_inj {ts us : List Token} (hts : IsLexed ts) (hus : IsLexed us)
    (h : concat ts = concat us) : ts = us := by
  rw [← tokenize_concat hts, h, tokenize_concat hus]

theorem IsLexed.isFormed {ts : List Token} (h : IsLexed ts) : ∀ t ∈ ts, t.isFormed := by
  induction ts with
  | nil => simp
  | cons t ts ih => exact List.forall_mem_cons.2 ⟨h.1, ih h.2.2⟩

theorem IsLexed.eq_nil_of_concat {ts : List Token} (h : IsLexed ts) (hc : concat ts = []) : ts = [] := by
  rw [← tokenize_concat h, hc, tokenize]

/-- A comment is the last token. -/
theorem IsLexed.takeWhile_append_comment {ts : List Token} (h : IsLexed ts) :
    ts.takeWhile (!·.isComment) ++ (ts.find? (·.isComment)).toList = ts := by
  induction ts with
  | nil => rfl
  | cons t ts ih =>
    obtain ⟨-, hstops, hts⟩ := h
    cases ht : t.isComment with
    | false => simp [ht, ih hts]
    | true =>
      cases t with
      | comment s =>
        have : ts = [] := hts.eq_nil_of_concat (List.isEmpty_iff.1 hstops)
        simp [isComment, this]
      | _ => cases ht

end Recase.Token
