import Mathlib
import Recase.Text.Blank

/-!
# Cutting and trimming texts

What later modules know about the operations on texts.

* `Text.trimEnd_append_cons` and `Text.trimEnd_append_blanks` — where trimming at the end stops;
* `Text.trim_of_trimStart` — the first character of a trimmed text is that of the text;
* `Text.not_mem_of_mem_split`, `Text.eq_of_split_eq` — no piece holds the separator, and the pieces
  determine the text;
* `Text.join_cons` — a join is its first piece and the others with a separator each;
* `Text.join_append` — pieces are joined on both sides of a separator;
* `Text.mem_join` — the characters of a join are the separators and those of the pieces.
-/

namespace Recase.Text

/-! ### Trimming -/

theorem trimEnd_append_cons {c : Char} (hc : isBlank c = false) (s t : Text) :
    (s ++ c :: t).trimEnd = s ++ c :: t.trimEnd := by
  show (s ++ c :: t).rdropWhile isBlank = s ++ c :: t.rdropWhile isBlank
  -- from the right: the last character of `t` is dropped on both sides or on neither
  induction t using List.reverseRecOn with
  | nil => simp [hc]
  | append_singleton t d ih =>
    rw [show s ++ c :: (t ++ [d]) = (s ++ c :: t) ++ [d] by simp, List.rdropWhile_concat,
      List.rdropWhile_concat]
    split
    · exact ih
    · simp

theorem trimEnd_cons {c : Char} (hc : isBlank c = false) (t : Text) :
    Text.trimEnd (c :: t) = c :: t.trimEnd := trimEnd_append_cons hc [] t

theorem trimEnd_append_blanks (s : Text) {t : Text} (ht : ∀ c ∈ t, isBlank c) :
    (s ++ t).trimEnd = s.trimEnd := by
  show (s ++ t).rdropWhile isBlank = s.rdropWhile isBlank
  induction t using List.reverseRecOn with
  | nil => simp
  | append_singleton t d ih =>
    rw [← List.append_assoc, List.rdropWhile_concat_pos _ _ _ (ht d (by simp))]
    exact ih fun c hc => ht c (by simp [hc])

/-- What is trimmed at the end are blanks. -/
theorem exists_trimEnd_append (s : Text) : ∃ t : Text, (∀ c ∈ t, isBlank c) ∧ s = s.trimEnd ++ t :=
  ⟨s.rtakeWhile isBlank, fun _ => List.mem_rtakeWhile_imp,
    List.rdropWhile_append_rtakeWhile.symm⟩

theorem count_trimEnd {c : Char} (hc : isBlank c = false) (s : Text) :
    s.trimEnd.count c = s.count c := by
  obtain ⟨t, ht, hs⟩ := exists_trimEnd_append s
  have hnot : c ∉ t := by
    intro h
    rw [ht c h] at hc
    cases hc
  conv_rhs => rw [hs, List.count_append, List.count_eq_zero.2 hnot]
  rfl

theorem mem_of_mem_trimEnd {c : Char} {s : Text} (h : c ∈ s.trimEnd) : c ∈ s :=
  (List.rdropWhile_prefix isBlank s).subset h

theorem getLast?_trimEnd (s : Text) : ∀ c ∈ s.trimEnd.getLast?, isBlank c = false := by
  intro c hc
  have hne : s.trimEnd ≠ [] := by
    rintro h
    simp [h] at hc
  have hlast := List.rdropWhile_last_not isBlank s hne
  rw [List.getLast?_eq_getLast_of_ne_nil hne] at hc
  cases hc
  exact eq_false_of_ne_true hlast

theorem trimStart_append_blanks {s : Text} (hs : ∀ c ∈ s, isBlank c) (t : Text) :
    Text.trimStart (s ++ t) = t.trimStart := List.dropWhile_append_of_pos hs

theorem trimStart_cons {c : Char} (hc : isBlank c = false) (t : Text) :
    Text.trimStart (c :: t) = c :: t := by simp [trimStart, hc]

theorem indent_append {s t : Text} (hs : ∀ c ∈ s, isBlank c) (ht : ∀ c ∈ t.head?, isBlank c = false) :
    Text.indent (s ++ t) = s := by
  rw [indent, List.takeWhile_append_of_pos hs]
  cases t with
  | nil => simp
  | cons c t => simp [ht c rfl]

theorem isBlank_of_mem_indent {c : Char} {s : Text} (h : c ∈ s.indent) : isBlank c :=
  List.mem_takeWhile_imp h

theorem isBlank_of_trimStart {c : Char} {s t : Text} (h : s.trimStart = c :: t) :
    isBlank c = false := by
  have := List.head?_dropWhile_not isBlank s
  rw [trimStart] at h
  simpa [h] using this

/-- The first character that is no blank stays when the end is trimmed too. -/
theorem trim_of_trimStart {c : Char} {s t : Text} (h : s.trimStart = c :: t) :
    s.trim = c :: t.trimEnd := by
  rw [trim, h, trimEnd_cons (isBlank_of_trimStart h)]

/-! ### Splitting and joining -/

/-- No piece holds the separator. -/
theorem not_mem_of_mem_split {sep : Char} {s piece : Text} (h : piece ∈ s.split sep) : sep ∉ piece := by
  induction s generalizing piece with
  | nil => simp_all
  | cons c cs ih =>
    simp only [List.splitOn_cons_eq_if_modifyHead, beq_iff_eq] at h
    split at h
    · rcases List.mem_cons.1 h with rfl | h
      · simp
      · exact ih h
    · next hc =>
      obtain ⟨head, tail, hs⟩ := List.exists_cons_of_ne_nil (List.splitOn_ne_nil sep cs)
      simp only [hs] at h ih
      rcases List.mem_cons.1 h with rfl | h
      · simpa [Ne.symm hc] using ih (List.mem_cons_self ..)
      · exact ih (List.mem_cons_of_mem _ h)

theorem exists_split_eq_append (sep : Char) (s : Text) : ∃ before last, s.split sep = before ++ [last] :=
  ⟨_, _, (List.dropLast_concat_getLast (List.splitOn_ne_nil sep s)).symm⟩

/-- A text is determined by its pieces. -/
theorem eq_join_of_split_eq {sep : Char} {s : Text} {pieces : List Text} (h : s.split sep = pieces) :
    s = join sep pieces := by
  rw [← h]
  exact (List.intercalate_splitOn sep).symm

theorem eq_of_split_eq {sep : Char} {s t : Text} (h : s.split sep = t.split sep) : s = t :=
  (eq_join_of_split_eq h).trans (List.intercalate_splitOn sep)

theorem join_cons_of_ne_nil (sep : Char) (piece : Text) {pieces : List Text} (h : pieces ≠ []) :
    join sep (piece :: pieces) = piece ++ sep :: join sep pieces := by
  rw [join, List.intercalate_cons_of_ne_nil h, List.append_assoc]
  rfl

/-- A separator stands before each piece but the first. -/
theorem join_cons (sep : Char) (piece : Text) (pieces : List Text) :
    join sep (piece :: pieces) = piece ++ pieces.flatMap (sep :: ·) := by
  induction pieces generalizing piece with
  | nil => exact List.intercalate_singleton.trans (List.append_nil piece).symm
  | cons next pieces ih => rw [join_cons_of_ne_nil _ _ (by simp), ih, List.flatMap_cons, List.cons_append]

theorem join_append (sep : Char) {as bs : List Text} (has : as ≠ []) (hbs : bs ≠ []) :
    join sep (as ++ bs) = join sep as ++ sep :: join sep bs := by
  obtain ⟨a, as, rfl⟩ := List.exists_cons_of_ne_nil has
  obtain ⟨b, bs, rfl⟩ := List.exists_cons_of_ne_nil hbs
  rw [List.cons_append, join_cons, join_cons, join_cons, List.flatMap_append, List.flatMap_cons]
  simp

theorem mem_join {c sep : Char} {pieces : List Text} (h : c ∈ join sep pieces) :
    c = sep ∨ ∃ piece ∈ pieces, c ∈ piece := by
  cases pieces with
  | nil => cases h
  | cons piece pieces =>
    rw [join_cons, List.mem_append, List.mem_flatMap] at h
    rcases h with h | ⟨next, hnext, h⟩
    · exact Or.inr ⟨piece, List.mem_cons_self .., h⟩
    · exact (List.mem_cons.1 h).imp_right fun h => ⟨next, List.mem_cons_of_mem _ hnext, h⟩

theorem mem_join_of_mem {c sep : Char} {piece : Text} {pieces : List Text} (h : piece ∈ pieces)
    (hc : c ∈ piece) : c ∈ join sep pieces := by
  cases pieces with
  | nil => cases h
  | cons first pieces =>
    rw [join_cons, List.mem_append, List.mem_flatMap]
    rcases List.mem_cons.1 h with rfl | h
    · exact Or.inl hc
    · exact Or.inr ⟨piece, h, List.mem_cons_of_mem _ hc⟩

end Recase.Text
