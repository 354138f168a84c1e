import Recase.Proofs.Lexing

/-!
# Where a string literal ends

A literal is read with one look at each character, and a backslash takes the character behind it along.  What
this comes to is told by counting: a quote closes the literal iff an even number of backslashes stands
directly before it, for then they escape each other in pairs.

* `Token.closingQuotes` — the positions of such quotes;
* `Token.succ_mem_closingQuotes`, `Token.add_two_mem_closingQuotes` — they move with what is put in front of
  the text, a character that is no backslash or a backslash and the character that it escapes;
* `Token.closeString_of_isLeast`, `Token.closeString_of_no_quote` — the literal goes to the first of them, or
  to the end;
* `Token.first_literal_extent` — the same of the token, with its opening quote.
-/

namespace Recase.Token

/-! ### Backslashes before a position -/

/-- The number of backslashes that stand directly before the position. -/
def backslashesBefore (s : Text) (i : Nat) : Nat := ((s.take i).rtakeWhile (· == '\\')).length

/-- The positions of the quotes with an even number of backslashes directly before them. -/
def closingQuotes (s : Text) : Set Nat := {i | s[i]? = some '"' ∧ Even (backslashesBefore s i)}

instance (s : Text) (i : Nat) : Decidable (i ∈ closingQuotes s) :=
  inferInstanceAs (Decidable (s[i]? = some '"' ∧ Even (backslashesBefore s i)))

@[simp] theorem backslashesBefore_zero (s : Text) : backslashesBefore s 0 = 0 := by
  simp [backslashesBefore]

theorem backslashesBefore_le (s : Text) (i : Nat) : backslashesBefore s i ≤ (s.take i).length :=
  (List.rtakeWhile_suffix _ _).length_le

/-- A backslash at the front counts iff there are only backslashes from there to the position. -/
theorem backslashesBefore_cons (c : Char) (s : Text) (i : Nat) :
    backslashesBefore (c :: s) (i + 1) =
      if c = '\\' ∧ backslashesBefore s i = (s.take i).length then backslashesBefore s i + 1
      else backslashesBefore s i := by
  have hlength : (s.take i).reverse.length = (s.take i).length := List.length_reverse
  simp only [backslashesBefore, List.rtakeWhile, List.length_reverse, List.take_succ_cons,
    List.reverse_cons, List.takeWhile_append, hlength]
  split
  · next hall => by_cases hc : c = '\\' <;> simp [hc, hall]
  · next hall => rw [if_neg fun h => hall h.2]

theorem backslashesBefore_cons_of_ne {c : Char} (hc : c ≠ '\\') (s : Text) (i : Nat) :
    backslashesBefore (c :: s) (i + 1) = backslashesBefore s i := by
  rw [backslashesBefore_cons, if_neg fun h => hc h.1]

/-- A backslash and the character behind it do not change whether the number is even: they are counted
both or not at all. -/
theorem even_backslashesBefore_cons_cons (c : Char) (s : Text) (i : Nat) :
    Even (backslashesBefore ('\\' :: c :: s) (i + 2)) ↔ Even (backslashesBefore s i) := by
  have hle := backslashesBefore_le s i
  have hlength : ((c :: s).take (i + 1)).length = (s.take i).length + 1 := by simp
  rw [backslashesBefore_cons, backslashesBefore_cons, hlength]
  by_cases hrun : c = '\\' ∧ backslashesBefore s i = (s.take i).length
  · rw [if_pos hrun, if_pos ⟨rfl, by omega⟩, Nat.even_add_one, Nat.even_add_one, not_not]
  · rw [if_neg hrun, if_neg (by omega)]

/-! ### Closing quotes -/

theorem lt_length_of_mem_closingQuotes {s : Text} {i : Nat} (h : i ∈ closingQuotes s) : i < s.length :=
  (List.getElem?_eq_some_iff.1 h.1).1

theorem notMem_closingQuotes_nil (i : Nat) : i ∉ closingQuotes [] := by
  simp [closingQuotes]

/-- A character that escapes nothing moves the closing quotes by one, also a backslash with nothing behind
it. -/
theorem succ_mem_closingQuotes {c : Char} {s : Text} (hc : ∀ d ds, c = '\\' → s = d :: ds → False)
    (i : Nat) : i + 1 ∈ closingQuotes (c :: s) ↔ i ∈ closingQuotes s := by
  cases s with
  | nil => simp [closingQuotes]
  | cons d ds =>
    have hne : c ≠ '\\' := fun h => hc d ds h rfl
    simp [closingQuotes, backslashesBefore_cons_of_ne hne]

theorem add_two_mem_closingQuotes (c : Char) (s : Text) (i : Nat) :
    i + 2 ∈ closingQuotes ('\\' :: c :: s) ↔ i ∈ closingQuotes s := by
  simp [closingQuotes, even_backslashesBefore_cons_cons]

theorem zero_mem_closingQuotes {c : Char} {s : Text} : 0 ∈ closingQuotes (c :: s) ↔ c = '"' := by
  simp [closingQuotes]

/-- The character behind a first backslash closes nothing. -/
theorem one_notMem_closingQuotes (s : Text) : 1 ∉ closingQuotes ('\\' :: s) := by
  have hone : backslashesBefore ('\\' :: s) 1 = 1 := by simp [backslashesBefore_cons]
  simp [closingQuotes, hone]

/-- The least element of a set that begins with a gap, and is another set behind it. -/
theorem exists_isLeast_of_shift {S T : Set Nat} {k i : Nat} (hi : IsLeast S i) (hgap : ∀ j < k, j ∉ S)
    (hshift : ∀ j, j + k ∈ S ↔ j ∈ T) : ∃ j, i = j + k ∧ IsLeast T j := by
  obtain ⟨hmem, hleast⟩ := hi
  obtain ⟨j, rfl⟩ : ∃ j, i = j + k := Nat.exists_eq_add_of_le' (Nat.le_of_not_lt fun h => hgap i h hmem)
  refine ⟨j, rfl, (hshift j).1 hmem, fun j' hj' => ?_⟩
  have := hleast ((hshift j').2 hj')
  omega

theorem notMem_closingQuotes_of_lt_two (c : Char) (s : Text) :
    ∀ j < 2, j ∉ closingQuotes ('\\' :: c :: s) := by
  intro j hj
  obtain rfl | rfl : j = 0 ∨ j = 1 := by omega
  · simp [zero_mem_closingQuotes]
  · exact one_notMem_closingQuotes (c :: s)

/-! ### The end of a literal -/

/-- **The literal ends with the first quote that closes it.** -/
theorem closeString_of_isLeast {cs : Text} {i : Nat} (hi : IsLeast (closingQuotes cs) i) :
    closeString cs = (cs.take (i + 1), cs.drop (i + 1)) := by
  fun_induction closeString cs generalizing i with
  | case1 => exact (notMem_closingQuotes_nil i hi.1).elim
  | case2 cs =>
    obtain rfl : i = 0 := Nat.le_zero.1 (hi.2 (zero_mem_closingQuotes.2 rfl))
    rfl
  | case3 c cs ih =>
    obtain ⟨j, rfl, hj⟩ := exists_isLeast_of_shift hi (notMem_closingQuotes_of_lt_two c cs)
      (add_two_mem_closingQuotes c cs)
    simp [ih hj]
  | case4 c cs hquote hescape ih =>
    have hgap : ∀ j < 1, j ∉ closingQuotes (c :: cs) := by
      intro j hj
      rw [Nat.lt_one_iff.1 hj, zero_mem_closingQuotes]
      exact hquote
    obtain ⟨j, rfl, hj⟩ := exists_isLeast_of_shift hi hgap (succ_mem_closingQuotes hescape)
    simp [ih hj]

/-- **Without such a quote the literal takes everything.** -/
theorem closeString_of_no_quote {cs : Text} (h : ∀ i, i ∉ closingQuotes cs) : closeString cs = (cs, []) := by
  fun_induction closeString cs with
  | case1 => rfl
  | case2 cs => exact (h 0 (zero_mem_closingQuotes.2 rfl)).elim
  | case3 c cs ih => simp [ih fun i hi => h (i + 2) ((add_two_mem_closingQuotes c cs i).2 hi)]
  | case4 c cs _ hescape ih => simp [ih fun i hi => h (i + 1) ((succ_mem_closingQuotes hescape i).2 hi)]

/-- The opening quote escapes nothing. -/
theorem succ_mem_closingQuotes_literal (cs : Text) (i : Nat) :
    i + 1 ∈ closingQuotes ('"' :: cs) ↔ i ∈ closingQuotes cs :=
  succ_mem_closingQuotes (fun _ _ h => by cases h) i

/-- **How far a string literal goes.**  It ends with the first quote after the opening one that has an even
number of backslashes directly before it, and with the text if there is no such quote. -/
theorem first_literal_extent (cs : Text) :
    (∀ i, IsLeast {i ∈ closingQuotes ('"' :: cs) | 0 < i} i →
      first '"' cs = (literal (('"' :: cs).take (i + 1)), ('"' :: cs).drop (i + 1))) ∧
    ((∀ i > 0, i ∉ closingQuotes ('"' :: cs)) → first '"' cs = (literal ('"' :: cs), [])) := by
  have hfirst : first '"' cs = (literal ('"' :: (closeString cs).1), (closeString cs).2) := by simp [first]
  rw [hfirst]
  constructor
  · intro i hi
    have hshift : ∀ j, j + 1 ∈ {i ∈ closingQuotes ('"' :: cs) | 0 < i} ↔ j ∈ closingQuotes cs := by
      simp [succ_mem_closingQuotes_literal]
    obtain ⟨j, rfl, hj⟩ := exists_isLeast_of_shift hi (by simp) hshift
    rw [closeString_of_isLeast hj]
    rfl
  · intro h
    rw [closeString_of_no_quote fun i hi => h (i + 1) i.succ_pos ((succ_mem_closingQuotes_literal cs i).2 hi)]

/-- What follows the opening quote of a literal with an escaped quote and, at its end, an escaped backslash. -/
def evenSlashes : Text := "a\\\"b\\\\\" c".toList

/-- The same with a single backslash at its end, which escapes the quote. -/
def oddSlashes : Text := "a\\\"b\\\" c".toList

theorem first_literal_extent_escapes :
    (IsLeast {i ∈ closingQuotes ('"' :: evenSlashes) | 0 < i} 7 ∧
      first '"' evenSlashes = (literal "\"a\\\"b\\\\\"".toList, " c".toList)) ∧
    (∀ i > 0, i ∉ closingQuotes ('"' :: oddSlashes)) ∧
      first '"' oddSlashes = (literal ('"' :: oddSlashes), []) := by
  have hbefore : ∀ j < 7, ¬ (j ∈ closingQuotes ('"' :: evenSlashes) ∧ 0 < j) := by decide +kernel
  have hleast : IsLeast {i ∈ closingQuotes ('"' :: evenSlashes) | 0 < i} 7 :=
    ⟨⟨by decide +kernel, by decide⟩, fun j hj => Nat.le_of_not_lt fun h => hbefore j h hj⟩
  have hopen : ∀ i < ('"' :: oddSlashes).length, i > 0 → i ∉ closingQuotes ('"' :: oddSlashes) := by
    decide +kernel
  have hnone : ∀ i > 0, i ∉ closingQuotes ('"' :: oddSlashes) :=
    fun i hi h => hopen i (lt_length_of_mem_closingQuotes h) hi h
  refine ⟨⟨hleast, ?_⟩, hnone, (first_literal_extent oddSlashes).2 hnone⟩
  rw [(first_literal_extent evenSlashes).1 7 hleast]
  decide +kernel

end Recase.Token
