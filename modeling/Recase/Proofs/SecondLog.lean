import Recase.Proofs.Idempotence

/-!
# The log of the second pass

A schema that was recased stays as it is, but its second log need not be empty: a name such as `a_1` is
in snake_case and is renamed every time, to itself.  Nothing else is logged.  An entry that writes what
it replaces neither adds an attribute nor writes PascalCase, and its name has a digit after each
underscore.

Such a name was there from the start.  The first pass writes names that are no longer in snake_case, or
that are the old ones, and the attributes that it adds hold only the name `map`.

* `Edit.IsExact.of_result_eq` — the entries that write what they replace;
* `namesOf` — the names of a schema;
* `name_mem_of_mem_edits` — the log names what stands in the line;
* `mem_tokenize_of_mem_lines`, `mem_namesOf_of_isSnake` — a step, and then the pass, adds no name in
  snake_case.
-/

namespace Recase

open Token

/-! ### Entries that write what they replace -/

/-- The kinds of edits that may leave a name as it is: those that write camelCase. -/
def camelKinds : List EditKind := [.enum, .type, .field, .fieldReference]

/-- **An entry that writes what it replaces renames a numbered name to camelCase.** -/
theorem Edit.IsExact.of_result_eq {e : Edit} (he : e.IsExact) (hsame : e.result = e.name) :
    e.kind ∈ camelKinds ∧ Name.isSnake e.name ∧ Name.isNumbered e.name := by
  obtain ⟨kind, name⟩ := e
  have hcamel : Name.isSnake name → Name.camel name = name →
      Name.isSnake name ∧ Name.isNumbered name :=
    fun hs h => ⟨hs, (Name.camel_eq_self_iff_isNumbered hs).1 h⟩
  cases kind with
  | model | typeReference => exact absurd hsame (Name.pascal_ne_self he.1)
  | enum | type | field | fieldReference => exact ⟨by simp [camelKinds], hcamel he.1 hsame⟩
  | fieldMap => exact absurd hsame (fieldMap_result_ne name)
  | modelMap => exact absurd hsame (modelMap_result_ne name)

/-! ### Names of a schema -/

/-- The name that the token is. -/
def Token.name? : Token → Option Text
  | .name s => some s
  | _ => none

/-- The names in the lines of the schema, from left to right. -/
def namesOf (schema : Text) : List Text :=
  (schema.split '\n').flatMap fun raw => (tokenize (splitReturn raw).1).filterMap Token.name?

theorem Token.name?_eq_some_iff {t : Token} {s : Text} : t.name? = some s ↔ t = .name s := by
  cases t <;> simp [name?]

theorem mem_namesOf_iff {schema s : Text} :
    s ∈ namesOf schema ↔ ∃ raw ∈ schema.split '\n', .name s ∈ tokenize (splitReturn raw).1 := by
  simp [namesOf, List.mem_flatMap, List.mem_filterMap, name?_eq_some_iff]

/-! ### What the log names -/

theorem Renames.name_mem {ts us : List Token} {es : List Edit} (h : Renames ts es us) :
    ∀ e ∈ es, .name e.name ∈ ts := by
  induction h with
  | nil => simp
  | keep t _ ih => exact fun e he => List.mem_cons_of_mem _ (ih e he)
  | rename _ _ ih =>
    refine List.forall_mem_cons.2 ⟨List.mem_cons_self .., fun e he => ?_⟩
    exact List.mem_cons_of_mem _ (ih e he)

theorem Replays.name_mem {line out : Text} {es : List Edit} (h : Replays line es out) :
    ∀ e ∈ es, .name e.name ∈ tokenize line := by
  cases h with
  | renamed h => exact h.name_mem
  | @mapped name es us h =>
    have hfield : .name name ∈ tokenize line := h.name_mem ⟨.field, name⟩ (List.mem_cons_self ..)
    rw [List.forall_mem_append, List.forall_mem_singleton]
    exact ⟨h.name_mem, hfield⟩

/-- The name of an entry stands in its line, unless the entry is one for a line above. -/
theorem name_mem_of_mem_edits {ctx : Context} {raw : Text} {e : Edit}
    (he : e ∈ (recaseLine ctx raw).edits) (hkind : e.kind ≠ .modelMap) :
    .name e.name ∈ tokenize (splitReturn raw).1 := by
  rcases hraw : splitReturn raw with ⟨line, eol⟩
  rcases recaseLine_cases ctx hraw with ⟨name, -, -, heq⟩ | ⟨-, out, -, hreplays⟩
  · rw [heq] at he
    rw [List.mem_singleton.1 he] at hkind
    exact absurd rfl hkind
  · exact hreplays.name_mem e he

/-! ### No new names in snake_case -/

theorem Renames.mem_of_isSnake {ts us : List Token} {es : List Edit} (h : Renames ts es us) {s : Text}
    (hs : Name.isSnake s) (hmem : .name s ∈ us) : .name s ∈ ts := by
  induction h with
  | nil => exact hmem
  | keep t _ ih =>
    rcases List.mem_cons.1 hmem with rfl | hmem
    · exact List.mem_cons_self ..
    · exact List.mem_cons_of_mem _ (ih hmem)
  | @rename e ts us es he _ ih =>
    rcases List.mem_cons.1 hmem with heq | hmem
    · -- what is written is still in snake_case, so it is what was there
      obtain rfl : s = e.result := Token.name.inj heq
      rw [Edit.result_eq_of_isSnake he hs]
      exact List.mem_cons_self ..
    · exact List.mem_cons_of_mem _ (ih hmem)

/-- The names in a tail that names its column are those that it had and `map`. -/
theorem mem_of_mem_tokensNamingColumn {r : RecasedText} {column s : Text}
    (h : .name s ∈ r.tokensNamingColumn column) : .name s ∈ r.tokens ∨ s = "map".toList := by
  rw [RecasedText.tokensNamingColumn, List.mem_append, List.mem_append] at h
  rcases h with h | h | h
  · obtain ⟨rest, hrest⟩ := body_prefix (r := r)
    rw [← hrest]
    exact Or.inl (List.mem_append_left _ h)
  · exact Or.inr (by simpa [columnTokens] using h)
  · cases hcomment : r.comment? <;> simp [hcomment, commentTokens] at h

theorem Replays.mem_of_isSnake {line out : Text} {es : List Edit} (h : Replays line es out)
    (hclosed : ∀ t ∈ tokenize line, t.isUnclosed = false) {s : Text} (hs : Name.isSnake s)
    (hmem : .name s ∈ tokenize out) : .name s ∈ tokenize line := by
  cases h with
  | renamed h =>
    rw [tokenize_concat (h.isLexed (isLexed_tokenize line))] at hmem
    exact h.mem_of_isSnake hs hmem
  | @mapped name es us h =>
    have hname : Name.isName name :=
      Edit.isName_name (h.isRename_of_mem ⟨.field, name⟩ (List.mem_cons_self ..))
    have hread : tokenize ((RecasedText.mk us []).textNamingColumn name) =
        (RecasedText.mk us []).tokensNamingColumn name :=
      tokenize_textNamingColumn (h.isLexed (isLexed_tokenize line)) (h.isUnclosed_of_mem hclosed) hname
    change .name s ∈ tokenize ((RecasedText.mk us []).textNamingColumn name) at hmem
    rw [hread] at hmem
    rcases mem_of_mem_tokensNamingColumn hmem with hmem | rfl
    · exact h.mem_of_isSnake hs hmem
    · cases hs

/-- The only name in a line that names a table is `map`. -/
theorem eq_map_of_mem_tableLine {line eol name s : Text} (hend : IsEnding line eol)
    (hname : Name.isName name) (h : .name s ∈ tokenize (splitReturn (tableLine line eol name)).1) :
    s = "map".toList := by
  have hattribute : modelMapAttribute name = '@' :: fieldMapAttribute name := by
    rw [modelMapAttribute_eq, fieldMapAttribute_eq]
    rfl
  have hmark : tokenize ('@' :: fieldMapAttribute name) =
      .mark '@' :: tokenize (fieldMapAttribute name) := tokenize_text_append (t := .mark '@') rfl rfl
  rw [splitReturn_tableLine hend, tokenize_eq_append_trimStart,
    trimStart_append_modelMapAttribute (isBlank_of_mem_tableIndent line), hattribute, hmark,
    tokenize_fieldMapAttribute hname, List.mem_append] at h
  rcases h with h | h
  · unfold indentTokens at h
    split at h <;> simp at h
  · simpa [columnTokens] using h

/-- **A step adds no name in snake_case.** -/
theorem mem_tokenize_of_mem_lines {ctx : Context} (hctx : ctx.IsSound) {raw : Text}
    (hclosed : ∀ t ∈ tokenize (splitReturn raw).1, t.isUnclosed = false) {l : Text}
    (hl : l ∈ (recaseLine ctx raw).lines) {s : Text} (hs : Name.isSnake s)
    (hmem : .name s ∈ tokenize (splitReturn l).1) : .name s ∈ tokenize (splitReturn raw).1 := by
  rcases hraw : splitReturn raw with ⟨line, eol⟩
  rw [hraw] at hclosed
  obtain ⟨-, hend⟩ := append_of_splitReturn hraw
  rcases mem_lines_recaseLine hraw hl with ⟨name, rfl, rfl⟩ | ⟨es, out, rfl, hreplays⟩
  · have hname := Name.isName_of_isSnake (hctx _ rfl name rfl)
    rw [eq_map_of_mem_tableLine hend hname hmem] at hs
    cases hs
  · rw [splitReturn_append (hreplays.isEnding hend)] at hmem
    exact hreplays.mem_of_isSnake hclosed hs hmem

/-! ### The second pass -/

section SecondPass

variable {schema : Text}
  (hclosed : ∀ raw ∈ schema.split '\n', ∀ t ∈ tokenize (splitReturn raw).1, t.isUnclosed = false)

include hclosed

/-- **The pass adds no name in snake_case.** -/
theorem mem_namesOf_of_isSnake {s : Text} (hs : Name.isSnake s)
    (h : s ∈ namesOf (recase schema).output) : s ∈ namesOf schema := by
  obtain ⟨l, hl, hmem⟩ := mem_namesOf_iff.1 h
  rw [split_output] at hl
  obtain ⟨r, hr, hl⟩ := List.mem_flatMap.1 hl
  obtain ⟨ctx, raw, hctx, hraw, rfl⟩ := exists_of_mem_recaseLines isSound_topLevel hr
  exact mem_namesOf_iff.2 ⟨raw, hraw, mem_tokenize_of_mem_lines hctx (hclosed raw hraw) hl hs hmem⟩

/-- What the second log holds: numbered names that the schema had, renamed to themselves. -/
theorem of_mem_second_changes {c : Change} (hc : c ∈ (recase (recase schema).output).changes) :
    c.edit.kind ∈ camelKinds ∧ c.edit.result = c.edit.name ∧ Name.isSnake c.edit.name ∧
      Name.isNumbered c.edit.name ∧ c.edit.name ∈ namesOf schema := by
  obtain ⟨ctx, raw, hraw, hstep, he⟩ := exists_of_mem_changes hc
  -- the second pass changes no line, so none of its edits changes anything
  have hkeeps := (keepsLines_recaseLines .topLevel hclosed).1
  rw [← split_output] at hkeeps
  have hsame := (flatMap_lines_eq_iff .topLevel _).1 hkeeps _ hstep c.edit he
  obtain ⟨hkind, hs, hnumbered⟩ := (isExact_of_mem_edits c.edit he).of_result_eq hsame
  have hrename : c.edit.kind ≠ .modelMap := by
    intro h
    rw [h] at hkind
    exact absurd hkind (by decide)
  have hname : c.edit.name ∈ namesOf (recase schema).output :=
    mem_namesOf_iff.2 ⟨raw, hraw, name_mem_of_mem_edits he hrename⟩
  exact ⟨hkind, hsame, hs, hnumbered, mem_namesOf_of_isSnake hclosed hs hname⟩

end SecondPass

/-- **The second pass logs only numbered names that are renamed to themselves**, in the places where
camelCase is written.  If the schema has no such name, then the second log is empty. -/
theorem second_changes_silent (schema : Text)
    (hclosed : ∀ raw ∈ schema.split '\n', ∀ t ∈ tokenize (splitReturn raw).1, t.isUnclosed = false) :
    (∀ c ∈ (recase (recase schema).output).changes,
      c.edit.kind ∈ camelKinds ∧ c.edit.result = c.edit.name ∧
        Name.isSnake c.edit.name ∧ Name.isNumbered c.edit.name) ∧
    ((∀ name ∈ namesOf schema, Name.isSnake name → Name.isNumbered name = false) →
      (recase (recase schema).output).changes = []) := by
  refine ⟨fun c hc => ?_, fun hnone => ?_⟩
  · obtain ⟨hkind, hsame, hs, hnumbered, -⟩ := of_mem_second_changes hclosed hc
    exact ⟨hkind, hsame, hs, hnumbered⟩
  · refine List.eq_nil_iff_forall_not_mem.2 fun c hc => ?_
    obtain ⟨-, -, hs, hnumbered, hname⟩ := of_mem_second_changes hclosed hc
    rw [hnone _ hname hs] at hnumbered
    cases hnumbered

/-- A schema in which a letter follows an underscore of every name that has one. -/
def blogAuthors : Text :=
  Text.join '\n' (["model blog_author \x7b", "  user_name String // name", "  all_posts blog_post[]",
    "  @@index([user_name])", "\x7d", "enum user_role \x7b", "  role_a1", "\x7d"].map String.toList)

/-- A schema whose second log is not empty, and one whose second log is. -/
theorem second_changes_userLog :
    ((∀ raw ∈ userLog.split '\n', ∀ t ∈ tokenize (splitReturn raw).1, t.isUnclosed = false) ∧
      (recase (recase userLog).output).changes ≠ [] ∧
      ∀ c ∈ (recase (recase userLog).output).changes,
        c.edit.kind ∈ camelKinds ∧ c.edit.result = c.edit.name ∧
          Name.isSnake c.edit.name ∧ Name.isNumbered c.edit.name) ∧
    (∀ name ∈ namesOf blogAuthors, Name.isSnake name → Name.isNumbered name = false) ∧
      (recase blogAuthors).changes ≠ [] ∧ (recase (recase blogAuthors).output).changes = [] := by
  have hlog : ∀ raw ∈ userLog.split '\n', ∀ t ∈ tokenize (splitReturn raw).1,
      t.isUnclosed = false := by decide +kernel
  have hnames : ∀ name ∈ namesOf blogAuthors, Name.isSnake name → Name.isNumbered name = false := by
    decide +kernel
  refine ⟨⟨hlog, by decide +kernel, (second_changes_silent userLog hlog).1⟩, hnames, by decide +kernel, ?_⟩
  exact (second_changes_silent blogAuthors (by decide +kernel)).2 hnames

end Recase
