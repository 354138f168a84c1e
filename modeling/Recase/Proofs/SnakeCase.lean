import Recase.Proofs.Names

/-!
# The language of snake_case

Which names are in snake_case, said by a pattern, and which of them a casing leaves in it.  The test cuts a
name at its underscores; the pattern reads it from left to right.  Both see a first segment and, one after
the other, groups of an underscore and a segment.

* `Name.snakePattern` — the pattern `[a-z][a-z0-9]*(_[a-z0-9]+)+`;
* `Name.isSnake_iff_matches` — the names in snake_case are those that match;
* `Name.camel_camel` — folding a name a second time changes nothing;
* `Name.casing_fixed_points` — what the casings leave as it is.
-/

namespace Recase

namespace Name

open RegularExpression

/-! ### Patterns -/

/-- The pattern of a single character, one of those given. -/
def oneOf (cs : List Char) : RegularExpression Char := (cs.map char).sum

/-- The pattern repeated, at least once. -/
def repeated (P : RegularExpression Char) : RegularExpression Char := P * P.star

/-- The pattern `[a-z]`. -/
def letterPattern : RegularExpression Char := oneOf ('a' ...= 'z').toList

/-- The pattern `[a-z0-9]`. -/
def snakeCharPattern : RegularExpression Char := oneOf (('a' ...= 'z').toList ++ ('0' ...= '9').toList)

/-- The pattern `[a-z][a-z0-9]*(_[a-z0-9]+)+`. -/
def snakePattern : RegularExpression Char :=
  letterPattern * snakeCharPattern.star * repeated (char '_' * repeated snakeCharPattern)

theorem mem_matches_oneOf {cs : List Char} {s : Text} :
    s ∈ (oneOf cs).matches' ↔ ∃ c ∈ cs, s = [c] := by
  induction cs with
  | nil => simp [oneOf]
  | cons c cs ih =>
    have hcons : oneOf (c :: cs) = char c + oneOf cs := by simp [oneOf]
    have hchar : s ∈ (char c).matches' ↔ s = [c] := Iff.rfl
    rw [hcons, matches'_add, Language.mem_add, ih, hchar]
    simp

theorem mem_matches_oneOf_mul {cs : List Char} {P : RegularExpression Char} {s : Text} :
    s ∈ (oneOf cs * P).matches' ↔ ∃ c ∈ cs, ∃ rest ∈ P.matches', s = c :: rest := by
  rw [matches'_mul, Language.mem_mul]
  simp only [mem_matches_oneOf]
  constructor
  · rintro ⟨-, ⟨c, hc, rfl⟩, rest, hrest, rfl⟩
    exact ⟨c, hc, rest, hrest, rfl⟩
  · rintro ⟨c, hc, rest, hrest, rfl⟩
    exact ⟨[c], ⟨c, hc, rfl⟩, rest, hrest, rfl⟩

theorem mem_matches_repeated {P : RegularExpression Char} {s : Text} :
    s ∈ (repeated P).matches' ↔
      ∃ pieces : List Text, pieces ≠ [] ∧ s = pieces.flatten ∧ ∀ piece ∈ pieces, piece ∈ P.matches' := by
  rw [repeated, matches'_mul, matches'_star, Language.mem_mul]
  constructor
  · rintro ⟨piece, hpiece, rest, hrest, rfl⟩
    obtain ⟨pieces, rfl, hpieces⟩ := Language.mem_kstar.1 hrest
    exact ⟨piece :: pieces, by simp, by simp, List.forall_mem_cons.2 ⟨hpiece, hpieces⟩⟩
  · rintro ⟨pieces, hne, rfl, hpieces⟩
    obtain ⟨piece, rest, rfl⟩ := List.exists_cons_of_ne_nil hne
    obtain ⟨hpiece, hrest⟩ := List.forall_mem_cons.1 hpieces
    exact ⟨piece, hpiece, rest.flatten, Language.join_mem_kstar hrest, by simp⟩

/-- Characters of a class, as many as there are, are a text of that class. -/
theorem exists_flatten_oneOf {cs : List Char} {s : Text} :
    (∃ pieces : List Text, s = pieces.flatten ∧ ∀ piece ∈ pieces, piece ∈ (oneOf cs).matches') ↔
      ∀ c ∈ s, c ∈ cs := by
  simp only [mem_matches_oneOf]
  constructor
  · rintro ⟨pieces, rfl, hpieces⟩ c hc
    obtain ⟨piece, hpiece, hc⟩ := List.mem_flatten.1 hc
    obtain ⟨d, hd, rfl⟩ := hpieces piece hpiece
    rwa [List.mem_singleton.1 hc]
  · intro hs
    exact ⟨s.map ([·]), (List.flatMap_singleton' s).symm, by simpa using hs⟩

/-! ### The characters of the pattern -/

theorem mem_letters {c : Char} : c ∈ ('a' ...= 'z').toList ↔ c.isLower := by
  rw [Std.Rcc.mem_toList_iff_mem, isLower_iff_toNat]
  exact Iff.rfl

theorem mem_digits {c : Char} : c ∈ ('0' ...= '9').toList ↔ c.isDigit := by
  rw [Std.Rcc.mem_toList_iff_mem, Char.isDigit_iff_toNat]
  exact Iff.rfl

theorem mem_snakeChars {c : Char} :
    c ∈ ('a' ...= 'z').toList ++ ('0' ...= '9').toList ↔ isSnakeChar c := by
  rw [List.mem_append, mem_letters, mem_digits, isSnakeChar, Bool.or_eq_true]

theorem mem_matches_star_snakeChar {s : Text} :
    s ∈ snakeCharPattern.star.matches' ↔ s.all isSnakeChar := by
  rw [matches'_star, Language.mem_kstar, snakeCharPattern, exists_flatten_oneOf, List.all_eq_true]
  simp only [mem_snakeChars]

/-- The first segment of a name, by its pattern. -/
theorem isFirstSegment_iff_matches {s : Text} :
    isFirstSegment s ↔ s ∈ (letterPattern * snakeCharPattern.star).matches' := by
  simp only [letterPattern, mem_matches_oneOf_mul, mem_matches_star_snakeChar, mem_letters]
  constructor
  · intro h
    cases s with
    | nil => cases h
    | cons c cs =>
      simp only [isFirstSegment, List.head?_cons, Option.any_some, List.all_cons, Bool.and_eq_true] at h
      exact ⟨c, h.1, cs, h.2.2, rfl⟩
  · rintro ⟨c, hc, cs, hcs, rfl⟩
    simp [isFirstSegment, hc, hcs, isSnakeChar]

/-- The other segments of a name, by their pattern. -/
theorem isSegment_iff_matches {s : Text} : isSegment s ↔ s ∈ (repeated snakeCharPattern).matches' := by
  have hrepeated : repeated snakeCharPattern =
      oneOf (('a' ...= 'z').toList ++ ('0' ...= '9').toList) * snakeCharPattern.star := rfl
  simp only [hrepeated, mem_matches_oneOf_mul, mem_matches_star_snakeChar, mem_snakeChars]
  constructor
  · intro h
    cases s with
    | nil => cases h
    | cons c cs =>
      simp only [isSegment, List.all_cons, Bool.and_eq_true] at h
      exact ⟨c, h.2.1, cs, h.2.2, rfl⟩
  · rintro ⟨c, hc, cs, hcs, rfl⟩
    simp [isSegment, hc, hcs]

/-! ### The test and the pattern -/

/-- An underscore and a segment, by their pattern. -/
theorem mem_matches_group {s : Text} : s ∈ (char '_' * repeated snakeCharPattern).matches' ↔
    ∃ segment, isSegment segment ∧ s = '_' :: segment := by
  rw [matches'_mul, Language.mem_mul]
  simp only [← isSegment_iff_matches]
  constructor
  · rintro ⟨-, rfl, segment, hsegment, rfl⟩
    exact ⟨segment, hsegment, rfl⟩
  · rintro ⟨segment, hsegment, rfl⟩
    exact ⟨['_'], rfl, segment, hsegment, rfl⟩

theorem mem_matches_groups {s : Text} :
    s ∈ (repeated (char '_' * repeated snakeCharPattern)).matches' ↔
      ∃ rest : List Text, rest ≠ [] ∧ s = rest.flatMap ('_' :: ·) ∧ ∀ segment ∈ rest, isSegment segment := by
  simp only [mem_matches_repeated, mem_matches_group]
  constructor
  · rintro ⟨groups, hne, rfl, hgroups⟩
    -- each group less its underscore
    have htail : ∀ group ∈ groups, '_' :: group.tail = group := by
      intro group hgroup
      obtain ⟨segment, -, rfl⟩ := hgroups group hgroup
      rfl
    refine ⟨groups.map List.tail, by simpa using hne, ?_, ?_⟩
    · rw [List.flatMap_map, List.flatMap_congr htail, List.flatMap_id']
    · intro segment hsegment
      obtain ⟨group, hgroup, rfl⟩ := List.mem_map.1 hsegment
      obtain ⟨body, hbody, rfl⟩ := hgroups group hgroup
      exact hbody
  · rintro ⟨rest, hne, rfl, hrest⟩
    refine ⟨rest.map ('_' :: ·), by simpa using hne, List.flatMap_def .., ?_⟩
    intro group hgroup
    obtain ⟨segment, hsegment, rfl⟩ := List.mem_map.1 hgroup
    exact ⟨segment, hrest segment hsegment, rfl⟩

/-- **The names in snake_case are the texts that match the pattern `[a-z][a-z0-9]*(_[a-z0-9]+)+`.** -/
theorem isSnake_iff_matches (s : Text) : isSnake s ↔ s ∈ snakePattern.matches' := by
  rw [isSnake_iff_segments, snakePattern, matches'_mul, Language.mem_mul]
  simp only [Text.join_cons, ← isFirstSegment_iff_matches, mem_matches_groups]
  constructor
  · rintro ⟨first, rest, rfl, hfirst, hne, hrest⟩
    exact ⟨first, hfirst, _, ⟨rest, hne, rfl, hrest⟩, rfl⟩
  · rintro ⟨first, hfirst, -, ⟨rest, hne, rfl, hrest⟩, rfl⟩
    exact ⟨first, rest, rfl, hfirst, hne, hrest⟩

/-! ### Folding twice -/

/-- An underscore is kept where no lower case letter follows. -/
theorem camel_underscore {cs : Text} (hcs : cs.head?.any Char.isLower = false) :
    camel ('_' :: cs) = '_' :: camel cs := by
  cases cs with
  | nil => simp [camel]
  | cons c cs =>
    have hc : c.isLower = false := by simpa using hcs
    simp [camel, hc]

theorem toUpper_ne_underscore {c : Char} (hc : c.isLower) : c.toUpper ≠ '_' := by
  have hup := isUpper_toUpper hc
  intro h
  rw [h] at hup
  cases hup

/-- The fold leaves a lower case letter at the front only where it found one, so none comes to stand
behind an underscore that was kept. -/
theorem head?_camel (s : Text) : (camel s).head?.any Char.isLower = s.head?.any Char.isLower := by
  fun_cases camel s with
  | case1 => rfl
  | case2 c cs hc =>
    have hup := isUpper_iff_toNat.1 (isUpper_toUpper hc)
    refine Bool.eq_false_iff.2 fun hlower => ?_
    have := isLower_iff_toNat.1 hlower
    omega
  | case3 c cs hc => rfl
  | case4 c cs _ => rfl

/-- **A folded name is not folded again.** -/
theorem camel_camel (s : Text) : camel (camel s) = camel s := by
  fun_induction camel s with
  | case1 => rfl
  | case2 c cs hc ih => rw [camel_cons_of_ne (toUpper_ne_underscore hc), ih]
  | case3 c cs hc ih =>
    have hhead : (camel (c :: cs)).head?.any Char.isLower = false := by
      rw [head?_camel]
      simpa using hc
    rw [camel_underscore hhead, ih]
  | case4 c cs hfold ih =>
    by_cases hc : c = '_'
    · -- an underscore that is not looked behind is the last character
      have hcs : cs = [] := by
        cases cs with
        | nil => rfl
        | cons d ds => exact (hfold d ds hc rfl).elim
      subst hc hcs
      rfl
    · rw [camel_cons_of_ne hc, ih]

theorem isSnake_camel_tfae {s : Text} (hs : isSnake s) :
    [isSnake (camel s) = true, camel s = s,
      ∀ before after, s = before ++ '_' :: after → after.head?.any Char.isDigit].TFAE := by
  tfae_have 1 → 2 := camel_eq_of_isSnake
  tfae_have 2 → 1 := fun h => h.symm ▸ hs
  tfae_have 2 ↔ 3 := (camel_eq_self_iff_isNumbered hs).trans isNumbered_iff
  tfae_finish

/-- **What the casings leave as it is.**  A folded name, whatever it was, holds no underscore before a lower
case letter and is its own fold.  A name in snake_case that is still in it when folded has not changed, and
these are the names with a digit behind each underscore.  In PascalCase it is never in snake_case and begins
with a capital.  Both results are names. -/
theorem casing_fixed_points (s : Text) :
    (∀ before c after, camel s = before ++ '_' :: c :: after → c.isLower = false) ∧
    camel (camel s) = camel s ∧
    (isSnake s →
      [isSnake (camel s) = true, camel s = s,
        ∀ before after, s = before ++ '_' :: after → after.head?.any Char.isDigit].TFAE ∧
      isSnake (pascal s) = false ∧
      (pascal s).head?.any Char.isUpper ∧
      isName (camel s) ∧ isName (pascal s)) := by
  refine ⟨camel_eq_self_iff.1 (camel_camel s), camel_camel s, fun hs => ?_⟩
  have hcapital : (pascal s).head?.any Char.isUpper := by
    obtain ⟨c, cs, -, hc, hpascal⟩ := pascal_of_isSnake hs
    simpa [hpascal] using isUpper_toUpper hc
  exact ⟨isSnake_camel_tfae hs, not_isSnake_pascal hs, hcapital, isName_camel hs, isName_pascal hs⟩

/-- One name whose underscores are folded in part, and one that stays as it is. -/
theorem casing_fixed_points_lines :
    (isSnake "address_2_line".toList ∧ camel "address_2_line".toList = "address_2Line".toList ∧
      isSnake "address_2Line".toList = false ∧ isSnake (pascal "address_2_line".toList) = false) ∧
    isSnake "release_1_2".toList ∧ camel "release_1_2".toList = "release_1_2".toList ∧
      isName (pascal "release_1_2".toList) := by
  have hline : isSnake "address_2_line".toList := by decide +kernel
  have hrelease : isSnake "release_1_2".toList := by decide +kernel
  have hcamel : camel "address_2_line".toList = "address_2Line".toList := by decide +kernel
  obtain ⟨hfold, hpascal, -⟩ := (casing_fixed_points "address_2_line".toList).2.2 hline
  obtain ⟨hstay, -, -, -, hname⟩ := (casing_fixed_points "release_1_2".toList).2.2 hrelease
  refine ⟨⟨hline, hcamel, ?_, hpascal⟩, hrelease, (hstay.out 0 1).1 (by decide +kernel), hname⟩
  rw [← hcamel]
  exact Bool.eq_false_iff.2 fun h => absurd ((hfold.out 0 1).1 h) (by decide +kernel)

end Name

end Recase
