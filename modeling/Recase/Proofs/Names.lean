import Recase.Edit
import Recase.Proofs.Texts

/-!
# Names before and after recasing

A renamed name is written where a name in snake_case stood.  What the rest of the theory needs of
it is little:

* `Edit.isName_result` — it is a name again, with a letter at its beginning;
* `Edit.result_eq_of_isSnake` — if it is still in snake_case, nothing changed;
* `Name.camel_eq_self_iff_isNumbered` — the names that stay have a digit after each underscore.

The second fact is the reason why a second pass is harmless: a name such as `a_1` is renamed every
time, and each time to itself.
-/

namespace Recase

/-! ### Classes of characters -/

theorem isLower_iff_toNat {c : Char} : c.isLower ↔ 97 ≤ c.toNat ∧ c.toNat ≤ 122 := by
  simp [Char.isLower, UInt32.le_iff_toNat_le]

theorem isUpper_iff_toNat {c : Char} : c.isUpper ↔ 65 ≤ c.toNat ∧ c.toNat ≤ 90 := by
  simp [Char.isUpper, UInt32.le_iff_toNat_le]

theorem isBlank_iff_toNat {c : Char} :
    isBlank c ↔ ∃ r ∈ blankRanges, r.1 ≤ c.toNat ∧ c.toNat ≤ r.2 := by
  simp [isBlank]

namespace Name

theorem isPart_iff_toNat {c : Char} : isPart c ↔
    (65 ≤ c.toNat ∧ c.toNat ≤ 90) ∨ (97 ≤ c.toNat ∧ c.toNat ≤ 122) ∨
      (48 ≤ c.toNat ∧ c.toNat ≤ 57) ∨ c.toNat = 95 := by
  have hu : c.toNat = 95 ↔ c = '_' := Char.toNat_inj (d := '_')
  simp only [isPart, Char.isAlphanum, Char.isAlpha, Bool.or_eq_true, isUpper_iff_toNat,
    isLower_iff_toNat, Char.isDigit_iff_toNat, beq_iff_eq, hu, or_assoc]
  rfl

theorem isBlank_of_isPart {c : Char} (h : isPart c) : isBlank c = false := by
  rw [isPart_iff_toNat] at h
  refine Bool.eq_false_iff.2 fun hb => ?_
  obtain ⟨r, hr, h1, h2⟩ := isBlank_iff_toNat.1 hb
  simp only [blankRanges, List.mem_cons, List.not_mem_nil, or_false] at hr
  rcases hr with rfl | rfl | rfl | rfl | rfl | rfl | rfl | rfl | rfl | rfl <;> simp at h1 h2 <;> omega

theorem isPart_of_isBlank {c : Char} (h : isBlank c) : isPart c = false := by
  refine Bool.eq_false_iff.2 fun hp => ?_
  rw [isBlank_of_isPart hp] at h
  cases h

theorem isStart_of_isAlpha {c : Char} (h : c.isAlpha) : isStart c := by simp [isStart, h]

theorem isStart_of_isLower {c : Char} (h : c.isLower) : isStart c :=
  isStart_of_isAlpha (by simp [Char.isAlpha, h])

theorem isPart_of_isDigit {c : Char} (h : c.isDigit) : isPart c := by
  simp [isPart, Char.isAlphanum, h]

theorem isUpper_toUpper {c : Char} (h : c.isLower) : c.toUpper.isUpper := by
  simp [Char.isAlpha, h]

theorem isPart_toUpper {c : Char} (h : c.isLower) : isPart c.toUpper := by
  refine isPart_of_isStart (isStart_of_isAlpha ?_)
  simp [Char.isAlpha, h]

/-! ### Names -/

/-- Whether the text is a name: it begins as one and goes on as one. -/
def isName : Text → Bool
  | [] => false
  | c :: cs => isStart c && cs.all isPart

theorem isName_cons {c : Char} {cs : Text} :
    isName (c :: cs) ↔ isStart c ∧ ∀ d ∈ cs, isPart d := by simp [isName]

theorem isPart_of_mem {s : Text} (hs : isName s) : ∀ c ∈ s, isPart c := by
  cases s with
  | nil => simp
  | cons d cs =>
    obtain ⟨hd, hcs⟩ := isName_cons.1 hs
    intro c hc
    rcases List.mem_cons.1 hc with rfl | hc
    · exact isPart_of_isStart hd
    · exact hcs c hc

theorem ne_nil_of_isName {s : Text} (hs : isName s) : s ≠ [] := by
  rintro rfl
  cases hs

/-- No name holds a character that is not one of names. -/
theorem not_mem_of_isName {c : Char} {s : Text} (hs : isName s) (hc : isPart c = false) : c ∉ s := by
  intro h
  rw [isPart_of_mem hs c h] at hc
  cases hc

/-- Trimming at the end stops at a name. -/
theorem trimEnd_append {name : Text} (hn : isName name) (s t : Text) :
    Text.trimEnd (s ++ (name ++ t)) = s ++ (name ++ t.trimEnd) := by
  have hne := ne_nil_of_isName hn
  have hlast : isBlank (name.getLast hne) = false :=
    isBlank_of_isPart (isPart_of_mem hn _ (List.getLast_mem hne))
  have hsplit : ∀ r : Text, s ++ (name ++ r) = (s ++ name.dropLast) ++ name.getLast hne :: r := by
    intro r
    conv_lhs => rw [← List.dropLast_concat_getLast hne]
    simp
  rw [hsplit, Text.trimEnd_append_cons hlast, ← hsplit]

/-! ### Names in snake_case -/

theorem isSnake_iff {s : Text} : isSnake s ↔
    ∃ first rest, s.split '_' = first :: rest ∧ isFirstSegment first ∧ rest ≠ [] ∧
      ∀ segment ∈ rest, isSegment segment := by
  unfold isSnake
  cases s.split '_' with
  | nil => simp
  | cons first rest => simp [and_assoc]

theorem isSnakeChar_of_mem_segment {first : Text} {rest : List Text} (hfirst : isFirstSegment first)
    (hrest : ∀ segment ∈ rest, isSegment segment) {segment : Text} (hsegment : segment ∈ first :: rest)
    {c : Char} (hc : c ∈ segment) : isSnakeChar c := by
  have hall : segment.all isSnakeChar := by
    rcases List.mem_cons.1 hsegment with rfl | hsegment
    · exact (Bool.and_eq_true_iff.1 hfirst).2
    · exact (Bool.and_eq_true_iff.1 (hrest segment hsegment)).2
  exact List.all_eq_true.1 hall c hc

/-- A name in snake_case is put together from its segments. -/
theorem isSnake_iff_segments {s : Text} : isSnake s ↔
    ∃ first rest, s = Text.join '_' (first :: rest) ∧ isFirstSegment first ∧ rest ≠ [] ∧
      ∀ segment ∈ rest, isSegment segment := by
  rw [isSnake_iff]
  constructor
  · rintro ⟨first, rest, hsplit, hsegments⟩
    exact ⟨first, rest, Text.eq_join_of_split_eq hsplit, hsegments⟩
  · rintro ⟨first, rest, rfl, hfirst, hne, hrest⟩
    refine ⟨first, rest, List.splitOn_intercalate '_' (fun piece hpiece hmem => ?_) (by simp), hfirst,
      hne, hrest⟩
    -- an underscore is none of the characters of a segment
    have hunderscore := isSnakeChar_of_mem_segment hfirst hrest hpiece hmem
    cases hunderscore

theorem exists_cons_of_isSnake {s : Text} (hs : isSnake s) : ∃ c cs, s = c :: cs ∧ c.isLower := by
  obtain ⟨first, rest, rfl, hfirst, -⟩ := isSnake_iff_segments.1 hs
  rw [Text.join_cons]
  cases first with
  | nil => simp [isFirstSegment] at hfirst
  | cons c cs =>
    refine ⟨c, _, rfl, ?_⟩
    simp only [isFirstSegment, List.head?_cons, Option.any_some, Bool.and_eq_true] at hfirst
    exact hfirst.1

theorem isSnakeChar_of_mem {s : Text} (hs : isSnake s) {c : Char} (hc : c ∈ s) :
    c = '_' ∨ isSnakeChar c := by
  obtain ⟨first, rest, rfl, hfirst, -, hrest⟩ := isSnake_iff_segments.1 hs
  refine (Text.mem_join hc).imp_right ?_
  rintro ⟨piece, hpiece, hc⟩
  exact isSnakeChar_of_mem_segment hfirst hrest hpiece hc

theorem isSnakeChar_of_underscore {s before after : Text} {c : Char} (hs : isSnake s)
    (h : s = before ++ '_' :: c :: after) : isSnakeChar c := by
  obtain ⟨first, rest, hsplit, -, -, hrest⟩ := isSnake_iff.1 hs
  obtain ⟨piece, pieces, hbefore⟩ := List.exists_cons_of_ne_nil (List.splitOn_ne_nil '_' before)
  obtain ⟨head, tail, hafter⟩ := List.exists_cons_of_ne_nil (List.splitOn_ne_nil '_' after)
  rw [h, Text.split, List.splitOn_append_cons_self, hbefore] at hsplit
  obtain ⟨-, rfl⟩ := List.cons.inj hsplit
  -- the segment after the underscore begins with the character
  rw [List.splitOn_cons_eq_if_modifyHead] at hrest
  by_cases hc : c = '_'
  · have := hrest [] (List.mem_append_right _ (by simp [hc]))
    cases this
  · have := hrest (c :: head) (List.mem_append_right _ (by simp [hc, hafter]))
    simp only [isSegment, List.all_cons, Bool.and_eq_true] at this
    exact this.2.1

theorem isUpper_of_mem_snake {s : Text} (hs : isSnake s) {c : Char} (hc : c ∈ s) :
    c.isUpper = false := by
  refine Bool.eq_false_iff.2 fun hu => ?_
  rcases isSnakeChar_of_mem hs hc with rfl | h
  · cases hu
  · rw [isUpper_iff_toNat] at hu
    simp only [isSnakeChar, Bool.or_eq_true, isLower_iff_toNat, Char.isDigit_iff_toNat] at h
    have h0 : '0'.toNat = 48 := rfl
    have h9 : '9'.toNat = 57 := rfl
    omega

theorem isPart_of_isSnakeChar {c : Char} (h : isSnakeChar c) : isPart c := by
  simp only [isSnakeChar, Bool.or_eq_true] at h
  exact h.elim (fun h => isPart_of_isStart (isStart_of_isLower h)) isPart_of_isDigit

theorem isName_of_isSnake {s : Text} (hs : isSnake s) : isName s := by
  obtain ⟨c, cs, rfl, hc⟩ := exists_cons_of_isSnake hs
  refine isName_cons.2 ⟨isStart_of_isLower hc, fun d hd => ?_⟩
  rcases isSnakeChar_of_mem hs (List.mem_cons_of_mem _ hd) with rfl | hd
  · rfl
  · exact isPart_of_isSnakeChar hd

/-! ### The casings -/

theorem camel_cons_of_ne {c : Char} (hc : c ≠ '_') (cs : Text) : camel (c :: cs) = c :: camel cs := by
  cases cs <;> simp [camel, hc]

theorem camel_cons {c : Char} (hc : c.isLower) (cs : Text) : camel (c :: cs) = c :: camel cs := by
  refine camel_cons_of_ne ?_ cs
  rintro rfl
  cases hc

theorem isPart_of_mem_camel {s : Text} (hs : ∀ c ∈ s, isPart c) : ∀ c ∈ camel s, isPart c := by
  fun_induction camel s with
  | case1 => simp
  | case2 c cs hc ih =>
    simp only [List.forall_mem_cons] at hs ⊢
    exact ⟨isPart_toUpper hc, ih hs.2.2⟩
  | case3 c cs hc ih =>
    simp only [List.forall_mem_cons] at hs ih ⊢
    exact ⟨hs.1, ih hs.2⟩
  | case4 c cs _ ih =>
    simp only [List.forall_mem_cons] at hs ⊢
    exact ⟨hs.1, ih hs.2⟩

/-- Each underscore that is folded leaves a capital behind. -/
theorem camel_eq_self {s : Text} (hs : ∀ c ∈ camel s, c.isUpper = false) : camel s = s := by
  fun_induction camel s with
  | case1 => rfl
  | case2 c cs hc _ =>
    have := hs c.toUpper (List.mem_cons_self ..)
    simp [Char.isAlpha, hc] at this
  | case3 c cs hc ih => rw [ih fun d hd => hs d (List.mem_cons_of_mem _ hd)]
  | case4 c cs _ ih => rw [ih fun d hd => hs d (List.mem_cons_of_mem _ hd)]

/-- A name that holds no underscore before a lower case letter stays as it is, and no other does. -/
theorem camel_eq_self_iff {s : Text} :
    camel s = s ↔ ∀ before c after, s = before ++ '_' :: c :: after → c.isLower = false := by
  fun_induction camel s with
  | case1 => simp
  | case2 c cs hc _ =>
    refine iff_of_false (fun h => ?_) (fun h => ?_)
    · have hup : c.toUpper.isAlpha := by simp [Char.isAlpha, hc]
      rw [(List.cons.inj h).1] at hup
      cases hup
    · rw [h [] c cs rfl] at hc
      cases hc
  | case3 c cs hc ih =>
    rw [List.cons.injEq, and_iff_right rfl, ih]
    constructor
    · intro h before d after heq
      cases before with
      | nil =>
        obtain ⟨rfl, -⟩ : c = d ∧ cs = after := by simpa using heq
        exact eq_false_of_ne_true hc
      | cons b before => exact h before d after (List.cons.inj heq).2
    · intro h before d after heq
      exact h ('_' :: before) d after (by rw [heq]; rfl)
  | case4 c cs hfold ih =>
    rw [List.cons.injEq, and_iff_right rfl, ih]
    constructor
    · intro h before d after heq
      cases before with
      | nil => exact (hfold d after (List.cons.inj heq).1 (List.cons.inj heq).2).elim
      | cons b before => exact h before d after (List.cons.inj heq).2
    · intro h before d after heq
      exact h (c :: before) d after (by rw [heq]; rfl)

/-- A name in snake_case stays as it is iff a digit follows each of its underscores. -/
theorem camel_eq_self_iff_isDigit {s : Text} (hs : isSnake s) :
    camel s = s ↔ ∀ before c after, s = before ++ '_' :: c :: after → c.isDigit := by
  rw [camel_eq_self_iff]
  refine forall_congr' fun before => forall_congr' fun c => forall_congr' fun after =>
    forall_congr' fun h => ?_
  have hc := isSnakeChar_of_underscore hs h
  simp only [isSnakeChar, Bool.or_eq_true] at hc
  constructor
  · intro hlower
    rw [hlower] at hc
    simpa using hc
  · intro hdigit
    refine Bool.eq_false_iff.2 fun hlower => ?_
    rw [isLower_iff_toNat] at hlower
    rw [Char.isDigit_iff_toNat] at hdigit
    have h9 : '9'.toNat = 57 := rfl
    omega

/-- Whether a digit follows each underscore of the name. -/
def isNumbered : Text → Bool
  | [] => true
  | c :: cs => (c != '_' || cs.head?.any Char.isDigit) && isNumbered cs

theorem isNumbered_iff {s : Text} :
    isNumbered s ↔ ∀ before after, s = before ++ '_' :: after → after.head?.any Char.isDigit := by
  induction s with
  | nil => simp [isNumbered]
  | cons c cs ih =>
    rw [isNumbered, Bool.and_eq_true, ih]
    constructor
    · rintro ⟨hc, hcs⟩ before after heq
      cases before with
      | nil =>
        obtain ⟨rfl, rfl⟩ := List.cons.inj heq
        simpa using hc
      | cons b before => exact hcs before after (List.cons.inj heq).2
    · intro h
      refine ⟨?_, fun before after heq => h (c :: before) after (by rw [heq]; rfl)⟩
      by_cases hc : c = '_'
      · subst hc
        simpa using h [] cs rfl
      · simp [hc]

/-- A name in snake_case does not end with an underscore. -/
theorem exists_cons_of_underscore {s before after : Text} (hs : isSnake s)
    (h : s = before ++ '_' :: after) : ∃ c rest, after = c :: rest := by
  refine List.exists_cons_of_ne_nil ?_
  rintro rfl
  obtain ⟨first, rest, hsplit, -, -, hrest⟩ := isSnake_iff.1 hs
  obtain ⟨piece, pieces, hbefore⟩ := List.exists_cons_of_ne_nil (List.splitOn_ne_nil '_' before)
  rw [h, Text.split, List.splitOn_append_cons_self, hbefore] at hsplit
  obtain ⟨-, rfl⟩ := List.cons.inj hsplit
  -- the last segment would be empty
  have hlast := hrest [] (List.mem_append_right _ (List.mem_singleton.2 rfl))
  cases hlast

theorem camel_eq_self_iff_isNumbered {s : Text} (hs : isSnake s) : camel s = s ↔ isNumbered s := by
  rw [camel_eq_self_iff_isDigit hs, isNumbered_iff]
  constructor
  · intro h before after heq
    obtain ⟨c, rest, rfl⟩ := exists_cons_of_underscore hs heq
    simpa using h before c rest heq
  · intro h before c after heq
    simpa using h before (c :: after) heq

theorem isName_camel {s : Text} (hs : isSnake s) : isName (camel s) := by
  have hpart := isPart_of_mem_camel (isPart_of_mem (isName_of_isSnake hs))
  obtain ⟨c, cs, rfl, hc⟩ := exists_cons_of_isSnake hs
  rw [camel_cons hc] at hpart ⊢
  exact isName_cons.2 ⟨isStart_of_isLower hc, (List.forall_mem_cons.1 hpart).2⟩

theorem pascal_of_isSnake {s : Text} (hs : isSnake s) :
    ∃ c cs, camel s = c :: cs ∧ c.isLower ∧ pascal s = c.toUpper :: cs := by
  obtain ⟨c, cs, rfl, hc⟩ := exists_cons_of_isSnake hs
  have hcamel := camel_cons hc cs
  refine ⟨c, camel cs, hcamel, hc, ?_⟩
  have hascii : c.toNat < 0x80 := by have := isLower_iff_toNat.1 hc; omega
  rw [pascal, hcamel]
  simp [uppercase_of_ascii hascii]

theorem pascal_ne_camel {s : Text} (hs : isSnake s) : pascal s ≠ camel s := by
  obtain ⟨c, cs, hcamel, hc, hpascal⟩ := pascal_of_isSnake hs
  rw [hcamel, hpascal]
  intro h
  have hup := isUpper_toUpper hc
  rw [(List.cons.inj h).1, isUpper_iff_toNat] at hup
  rw [isLower_iff_toNat] at hc
  omega

theorem isName_pascal {s : Text} (hs : isSnake s) : isName (pascal s) := by
  obtain ⟨c, cs, hcamel, hc, hpascal⟩ := pascal_of_isSnake hs
  have := isName_camel hs
  rw [hcamel, isName_cons] at this
  rw [hpascal, isName_cons]
  exact ⟨isStart_of_isAlpha (by simp [Char.isAlpha, hc]), this.2⟩

theorem not_isSnake_pascal {s : Text} (hs : isSnake s) : isSnake (pascal s) = false := by
  obtain ⟨c, cs, -, hc, hpascal⟩ := pascal_of_isSnake hs
  refine Bool.eq_false_iff.2 fun h => ?_
  have := isUpper_of_mem_snake h (hpascal ▸ List.mem_cons_self ..)
  simp [Char.isAlpha, hc] at this

theorem pascal_ne_self {s : Text} (hs : isSnake s) : pascal s ≠ s := by
  intro h
  have hnot := not_isSnake_pascal hs
  rw [h, hs] at hnot
  cases hnot

theorem camel_eq_of_isSnake {s : Text} (hs : isSnake (camel s)) : camel s = s :=
  camel_eq_self fun _ => isUpper_of_mem_snake hs

end Name

/-! ### What an edit writes -/

theorem fieldMapAttribute_eq (name : Text) :
    fieldMapAttribute name = ['@', 'm', 'a', 'p', '(', '"'] ++ name ++ ['"', ')'] := by
  -- no `unfold`: the equation of a definition with string literals is slow to state
  delta fieldMapAttribute
  simp

theorem modelMapAttribute_eq (name : Text) :
    modelMapAttribute name = ['@', '@', 'm', 'a', 'p', '(', '"'] ++ name ++ ['"', ')'] := by
  delta modelMapAttribute
  simp

/-- Whether the edit renames a name in snake_case, as all edits do that add no attribute. -/
def Edit.isRename (e : Edit) : Bool := e.kind.casing?.isSome && Name.isSnake e.name

namespace Edit

theorem isRename_iff {e : Edit} : e.isRename ↔
    ∃ casing, e.kind.casing? = some casing ∧ Name.isSnake e.name := by
  simp [isRename, Option.isSome_iff_exists]

theorem isName_name {e : Edit} (he : e.isRename) : Name.isName e.name := by
  obtain ⟨-, -, hs⟩ := isRename_iff.1 he
  exact Name.isName_of_isSnake hs

theorem isName_result {e : Edit} (he : e.isRename) : Name.isName e.result := by
  obtain ⟨casing, hc, hs⟩ := isRename_iff.1 he
  rw [result_eq_apply hc]
  cases casing with
  | camel => exact Name.isName_camel hs
  | pascal => exact Name.isName_pascal hs

/-- A name that stays in snake_case is not changed. -/
theorem result_eq_of_isSnake {e : Edit} (he : e.isRename) (h : Name.isSnake e.result) :
    e.result = e.name := by
  obtain ⟨casing, hc, hs⟩ := isRename_iff.1 he
  rw [result_eq_apply hc] at h ⊢
  cases casing with
  | camel => exact Name.camel_eq_of_isSnake h
  | pascal => rw [Casing.apply, Name.not_isSnake_pascal hs] at h; cases h

end Edit

end Recase
