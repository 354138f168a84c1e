import Recase.Proofs.Steps

/-!
# The log of a recasing

The log is all that is known of a recasing besides the two texts.  It says what happened: line by line
the output is what the input and the edits logged for the line say, and the text changed iff one of the
edits changed something.

* `editsIn_numberEdits` — the edits of a line are found in the log by their line number;
* `ReplaysLines`, `replaysLines_recaseLines` — the lines of the output from those of the input and the log;
* `Replays.eq_iff`, `flatMap_lines_eq_iff` — no two edits undo each other, in a line or across lines.
-/

namespace Recase

open Token

/-! ### Numbering -/

theorem map_edit_numberEdits (first : Nat) (rs : List RecasedLine) :
    (numberEdits first rs).map (·.edit) = rs.flatMap (·.edits) := by
  induction rs generalizing first with
  | nil => rfl
  | cons r rs ih => simp [numberEdits, ih, Function.comp_def]

theorem line_of_mem_numberEdits {first : Nat} {rs : List RecasedLine} {c : Change}
    (h : c ∈ numberEdits first rs) : first ≤ c.line ∧ c.line < first + rs.length := by
  induction rs generalizing first with
  | nil => cases h
  | cons r rs ih =>
    rw [numberEdits, List.mem_append] at h
    rw [List.length_cons]
    rcases h with h | h
    · obtain ⟨e, -, rfl⟩ := List.mem_map.1 h
      simp only
      omega
    · have := ih h
      omega

theorem pairwise_line_numberEdits (first : Nat) (rs : List RecasedLine) :
    ((numberEdits first rs).map (·.line)).Pairwise (· ≤ ·) := by
  induction rs generalizing first with
  | nil => exact .nil
  | cons r rs ih =>
    rw [numberEdits, List.map_append, List.pairwise_append]
    refine ⟨?_, ih _, ?_⟩
    · rw [List.map_map, List.pairwise_map]
      exact List.pairwise_of_forall fun _ _ => le_rfl
    · intro m hm n hn
      obtain ⟨c, hc, rfl⟩ := List.mem_map.1 hn
      have := line_of_mem_numberEdits hc
      simp only [List.map_map, List.mem_map] at hm
      obtain ⟨e, -, rfl⟩ := hm
      simp only [Function.comp_apply]
      omega

/-- The edits of a line are those that carry its number. -/
theorem filter_line_numberEdits (first : Nat) (rs : List RecasedLine) (i : Nat) :
    (numberEdits first rs).filter (·.line = first + i) =
      (rs[i]?.elim [] (·.edits)).map (⟨first + i, ·⟩) := by
  induction rs generalizing first i with
  | nil => rfl
  | cons r rs ih =>
    rw [numberEdits, List.filter_append]
    cases i with
    | zero =>
      have hrest : (numberEdits (first + 1) rs).filter (·.line = first + 0) = [] := by
        refine List.filter_eq_nil_iff.2 fun c hc => ?_
        have := line_of_mem_numberEdits hc
        simp only [decide_eq_true_eq]
        omega
      rw [hrest, List.append_nil, List.filter_eq_self.2]
      · rfl
      · simp
    | succ i =>
      have hhead : (r.edits.map (Change.mk first)).filter (·.line = first + (i + 1)) = [] := by
        refine List.filter_eq_nil_iff.2 fun c hc => ?_
        obtain ⟨e, -, rfl⟩ := List.mem_map.1 hc
        simp
      rw [hhead, List.nil_append, show first + (i + 1) = first + 1 + i by omega, ih]
      rfl

/-- The edits that the log has for the line with the given number, but for the line above it. -/
def editsIn (changes : List Change) (n : Nat) : List Edit :=
  (changes.filter fun c => c.line = n ∧ c.edit.kind ≠ .modelMap).map (·.edit)

theorem editsIn_numberEdits (first : Nat) (rs : List RecasedLine) (i : Nat) :
    editsIn (numberEdits first rs) (first + i) =
      (rs[i]?.elim [] (·.edits)).filter (·.kind ≠ .modelMap) := by
  have hfilter : (numberEdits first rs).filter
      (fun c => c.line = first + i ∧ c.edit.kind ≠ .modelMap) =
      ((numberEdits first rs).filter (·.line = first + i)).filter (·.edit.kind ≠ .modelMap) := by
    rw [List.filter_filter]
    refine List.filter_congr fun c _ => ?_
    simp [and_comm]
  rw [editsIn, hfilter, filter_line_numberEdits, List.filter_map, List.map_map]
  simp [Function.comp_def]

/-! ### Single edits -/

/-- What an entry of the log is: a name in snake_case with the result of its casing, or a name with
the attribute that keeps it. -/
def Edit.IsExact (e : Edit) : Prop :=
  match e.kind with
  | .model | .typeReference => Name.isSnake e.name ∧ e.result = Name.pascal e.name
  | .enum | .type | .field | .fieldReference => Name.isSnake e.name ∧ e.result = Name.camel e.name
  | .fieldMap => e.result = fieldMapAttribute e.name
  | .modelMap => e.result = modelMapAttribute e.name

theorem Edit.isExact_of_isRename {e : Edit} (he : e.isRename) : e.IsExact := by
  obtain ⟨casing, hc, hs⟩ := isRename_iff.1 he
  obtain ⟨kind, name⟩ := e
  cases kind <;> cases hc <;> exact ⟨hs, rfl⟩

theorem Edit.kind_ne_of_isRename {e : Edit} (he : e.isRename) : e.kind ≠ .modelMap := by
  obtain ⟨casing, hc, -⟩ := isRename_iff.1 he
  rintro h
  rw [h] at hc
  cases hc

theorem length_fieldMapAttribute (name : Text) : (fieldMapAttribute name).length = name.length + 8 := by
  simp [fieldMapAttribute_eq]

theorem length_modelMapAttribute (name : Text) : (modelMapAttribute name).length = name.length + 9 := by
  simp [modelMapAttribute_eq]

theorem fieldMap_result_ne (name : Text) : (Edit.mk .fieldMap name).result ≠ name := by
  intro h
  have := congrArg List.length h
  rw [show (Edit.mk .fieldMap name).result = fieldMapAttribute name from rfl,
    length_fieldMapAttribute] at this
  omega

theorem modelMap_result_ne (name : Text) : (Edit.mk .modelMap name).result ≠ name := by
  intro h
  have := congrArg List.length h
  rw [show (Edit.mk .modelMap name).result = modelMapAttribute name from rfl,
    length_modelMapAttribute] at this
  omega

namespace Replays

variable {line out : Text} {es : List Edit}

theorem isExact_of_mem (h : Replays line es out) : ∀ e ∈ es, e.IsExact ∧ e.kind ≠ .modelMap := by
  intro e he
  cases h with
  | renamed h =>
    have := h.isRename_of_mem e he
    exact ⟨Edit.isExact_of_isRename this, Edit.kind_ne_of_isRename this⟩
  | mapped h =>
    rcases List.mem_append.1 he with he | he
    · have := h.isRename_of_mem e he
      exact ⟨Edit.isExact_of_isRename this, Edit.kind_ne_of_isRename this⟩
    · rw [List.mem_singleton.1 he]
      exact ⟨rfl, by simp⟩

/-- **A line that gets an attribute is not the line that it was**: it has one `@` more. -/
theorem count_withAttribute {us : List Token} (hus : IsLexed us) (name : Text) :
    (concat us).count '@' < (withAttribute us (fieldMapAttribute name)).count '@' := by
  have hblank : isBlank '@' = false := rfl
  have hsplit : (concat us).count '@' =
      (concat (us.takeWhile (!·.isComment))).count '@' +
        (concat (us.find? (·.isComment)).toList).count '@' := by
    conv_lhs => rw [← hus.takeWhile_append_comment, concat_append, List.count_append]
  have hadded : 0 < (fieldMapAttribute name).count '@' := by
    rw [List.count_pos_iff, fieldMapAttribute_eq]
    simp
  rw [hsplit, withAttribute, List.count_append, List.count_append, List.count_cons,
    Text.count_trimEnd hblank]
  cases us.find? (·.isComment) with
  | none => simpa using hadded
  | some t =>
    simp only [Option.toList_some, concat_cons, concat_nil, List.append_nil, List.count_cons,
      Text.count_trimEnd hblank]
    omega

/-- **The line is the same iff every edit writes what it replaces.** -/
theorem eq_iff (h : Replays line es out) : out = line ↔ ∀ e ∈ es, e.result = e.name := by
  cases h with
  | renamed h =>
    have := h.concat_eq_iff (isLexed_tokenize line)
    rwa [concat_tokenize] at this
  | @mapped name es us h =>
    constructor
    · intro heq
      have hcount := count_withAttribute (h.isLexed (isLexed_tokenize line)) name
      rw [h.count_concat rfl, concat_tokenize] at hcount
      have hsame : (withAttribute us (fieldMapAttribute name)).count '@' = line.count '@' :=
        congrArg _ heq
      omega
    · intro hall
      exact absurd (hall ⟨.fieldMap, name⟩ (by simp)) (fieldMap_result_ne name)

end Replays

/-! ### Replaying the log -/

/-- The lines `outs` are the lines `lines`, numbered from `n`, after the changes of the log. -/
inductive ReplaysLines (changes : List Change) : Nat → List Text → List Text → Prop
  | nil (n : Nat) : ReplaysLines changes n [] []
  /-- The edits of the line are made in it, and its ending is put back. -/
  | inPlace {n : Nat} {raw line eol out : Text} {lines outs : List Text}
      (hraw : splitReturn raw = (line, eol)) (hline : Replays line (editsIn changes n) out)
      (hnone : ∀ c ∈ changes, c.line = n → c.edit.kind ≠ .modelMap)
      (h : ReplaysLines changes (n + 1) lines outs) :
      ReplaysLines changes n (raw :: lines) ((out ++ eol) :: outs)
  /-- A line that names the table of a model is put above. -/
  | underTable {n : Nat} {raw line eol name out : Text} {lines outs : List Text}
      (hraw : splitReturn raw = (line, eol)) (hline : Replays line (editsIn changes n) out)
      (htable : ⟨n, .modelMap, name⟩ ∈ changes)
      (h : ReplaysLines changes (n + 1) lines outs) :
      ReplaysLines changes n (raw :: lines) (tableLine line eol name :: (out ++ eol) :: outs)

theorem editsIn_append_of_lt {before after : List Change} {n : Nat} (h : ∀ c ∈ before, c.line < n) :
    editsIn (before ++ after) n = editsIn after n := by
  rw [editsIn, List.filter_append, List.filter_eq_nil_iff.2, List.nil_append, editsIn]
  intro c hc
  have := h c hc
  simp only [decide_eq_true_eq, not_and]
  omega

/-- The edits of the first line, in a log that begins with those of the lines before. -/
theorem editsIn_recaseLines {before : List Change} {n : Nat} (h : ∀ c ∈ before, c.line < n)
    (r : RecasedLine) (rs : List RecasedLine) :
    editsIn (before ++ numberEdits n (r :: rs)) n = r.edits.filter (·.kind ≠ .modelMap) := by
  rw [editsIn_append_of_lt h]
  exact editsIn_numberEdits n (r :: rs) 0

theorem mem_numberEdits_of_line_eq {before : List Change} {n : Nat} (h : ∀ c ∈ before, c.line < n)
    {r : RecasedLine} {rs : List RecasedLine} {c : Change}
    (hc : c ∈ before ++ numberEdits n (r :: rs)) (hn : c.line = n) : c.edit ∈ r.edits := by
  rw [numberEdits, List.mem_append, List.mem_append] at hc
  rcases hc with hc | hc | hc
  · have := h c hc
    omega
  · obtain ⟨e, he, rfl⟩ := List.mem_map.1 hc
    exact he
  · have := line_of_mem_numberEdits hc
    omega

/-- The lines from the `n`-th on are replayed by the log, if what the log has before them belongs to
earlier lines. -/
theorem replaysLines_recaseLines (ctx : Context) (lines : List Text) (n : Nat) (before : List Change)
    (hbefore : ∀ c ∈ before, c.line < n) :
    ReplaysLines (before ++ numberEdits n (recaseLines ctx lines)) n lines
      ((recaseLines ctx lines).flatMap RecasedLine.lines) := by
  induction lines generalizing ctx n before with
  | nil => exact .nil n
  | cons raw lines ih =>
    rcases hraw : splitReturn raw with ⟨line, eol⟩
    obtain ⟨happend, -⟩ := append_of_splitReturn hraw
    rw [recaseLines]
    -- the rest of the lines, with the edits of this one moved to what came before
    have hrest := ih (recaseLine ctx raw).next (n + 1)
      (before ++ (recaseLine ctx raw).edits.map (Change.mk n)) (by
        intro c hc
        rcases List.mem_append.1 hc with hc | hc
        · have := hbefore c hc
          omega
        · obtain ⟨e, -, rfl⟩ := List.mem_map.1 hc
          exact Nat.lt_succ_self n)
    rw [List.append_assoc, ← numberEdits] at hrest
    have hedits := editsIn_recaseLines hbefore (recaseLine ctx raw)
      (recaseLines (recaseLine ctx raw).next lines)
    rw [List.flatMap_cons]
    rcases recaseLine_cases ctx hraw with ⟨name, -, -, heq⟩ | ⟨habove, out, hout, hreplays⟩
    · have hlines : (recaseLine ctx raw).lines = [tableLine line eol name, line ++ eol] := by
        rw [heq]
        rfl
      rw [hlines]
      refine .underTable hraw ?_ ?_ hrest
      · rw [hedits, heq]
        exact replays_self line
      · refine List.mem_append_right _ (List.mem_append_left _ ?_)
        rw [heq]
        exact List.mem_singleton.2 rfl
    · have hlines : (recaseLine ctx raw).lines = [out ++ eol] := by
        rw [RecasedLine.lines, habove, hout]
        rfl
      rw [hlines]
      refine .inPlace hraw ?_ ?_ hrest
      · rw [hedits, List.filter_eq_self.2]
        · exact hreplays
        · intro e he
          simpa using (hreplays.isExact_of_mem e he).2
      · intro c hc hn
        exact (hreplays.isExact_of_mem _ (mem_numberEdits_of_line_eq hbefore hc hn)).2

theorem isExact_of_mem_edits {ctx : Context} {raw : Text} :
    ∀ e ∈ (recaseLine ctx raw).edits, e.IsExact := by
  rcases h : splitReturn raw with ⟨line, eol⟩
  intro e he
  rcases recaseLine_cases ctx h with ⟨name, -, -, heq⟩ | ⟨-, out, -, hreplays⟩
  · rw [heq] at he
    rw [List.mem_singleton.1 he]
    rfl
  · exact (hreplays.isExact_of_mem e he).1

/-- Every entry of the log was made by a step at a line of the schema. -/
theorem exists_of_mem_changes {schema : Text} {c : Change} (hc : c ∈ (recase schema).changes) :
    ∃ ctx raw, raw ∈ schema.split '\n' ∧
      recaseLine ctx raw ∈ recaseLines .topLevel (schema.split '\n') ∧
      c.edit ∈ (recaseLine ctx raw).edits := by
  have hedit : c.edit ∈ (recase schema).changes.map (·.edit) := List.mem_map_of_mem hc
  rw [recase, map_edit_numberEdits] at hedit
  obtain ⟨r, hr, he⟩ := List.mem_flatMap.1 hedit
  obtain ⟨ctx, raw, -, hraw, rfl⟩ := exists_of_mem_recaseLines isSound_topLevel hr
  exact ⟨ctx, raw, hraw, hr, he⟩

/-- **The log is exact and can be replayed.**  Its line numbers ascend and are those of lines; its
renames are of names in snake_case, to what their kinds say; and with it every line of the schema
gives its line of the output. -/
theorem changes_replay_output (schema : Text) :
    ((recase schema).changes.map (·.line)).Pairwise (· ≤ ·) ∧
    (∀ c ∈ (recase schema).changes,
      1 ≤ c.line ∧ c.line ≤ (schema.split '\n').length ∧ c.edit.IsExact) ∧
    ReplaysLines (recase schema).changes 1 (schema.split '\n') ((recase schema).output.split '\n') := by
  refine ⟨pairwise_line_numberEdits 1 _, fun c hc => ?_, ?_⟩
  · have hline := line_of_mem_numberEdits hc
    rw [length_recaseLines] at hline
    obtain ⟨ctx, raw, -, -, hedit⟩ := exists_of_mem_changes hc
    exact ⟨by omega, by omega, isExact_of_mem_edits _ hedit⟩
  · rw [split_output]
    exact replaysLines_recaseLines .topLevel (schema.split '\n') 1 [] (by simp)

/-! ### The text and the log -/

theorem lines_recaseLine_eq_iff (ctx : Context) (raw : Text) :
    (recaseLine ctx raw).lines = [raw] ↔ ∀ e ∈ (recaseLine ctx raw).edits, e.result = e.name := by
  rcases h : splitReturn raw with ⟨line, eol⟩
  obtain ⟨hraw, -⟩ := append_of_splitReturn h
  rcases recaseLine_cases ctx h with ⟨name, -, -, heq⟩ | ⟨habove, out, hout, hreplays⟩
  · have hne := modelMap_result_ne name
    simp only [heq, RecasedLine.lines]
    simpa using hne
  · rw [← hreplays.eq_iff, RecasedLine.lines, habove, hout, hraw]
    simp

theorem length_le_flatMap_lines (rs : List RecasedLine) :
    rs.length ≤ (rs.flatMap RecasedLine.lines).length := by
  induction rs with
  | nil => simp
  | cons r rs ih =>
    simp only [List.flatMap_cons, List.length_append, List.length_cons, RecasedLine.lines]
    omega

/-- No line above another makes up for what the others lost: all lines of the result are those of the
schema iff each step gives its own line. -/
theorem flatMap_lines_eq_iff (ctx : Context) (lines : List Text) :
    (recaseLines ctx lines).flatMap RecasedLine.lines = lines ↔
      ∀ r ∈ recaseLines ctx lines, ∀ e ∈ r.edits, e.result = e.name := by
  induction lines generalizing ctx with
  | nil => simp [recaseLines]
  | cons raw lines ih =>
    rw [recaseLines, List.flatMap_cons, List.forall_mem_cons, ← lines_recaseLine_eq_iff, ← ih]
    constructor
    · intro h
      have hlen := congrArg List.length h
      have hle := length_le_flatMap_lines (recaseLines (recaseLine ctx raw).next lines)
      rw [length_recaseLines] at hle
      rw [List.length_append, List.length_cons] at hlen
      have hpos : (recaseLine ctx raw).lines.length = 1 := by
        have : (recaseLine ctx raw).lines.length ≥ 1 := by simp [RecasedLine.lines]
        omega
      have hcons : (recaseLine ctx raw).lines ++
          (recaseLines (recaseLine ctx raw).next lines).flatMap RecasedLine.lines =
          [raw] ++ lines := h
      exact List.append_inj hcons hpos
    · rintro ⟨h1, h2⟩
      rw [h1, h2]
      rfl

theorem output_eq_iff (schema : Text) : (recase schema).output = schema ↔
    ∀ c ∈ (recase schema).changes, c.edit.result = c.edit.name := by
  have hsplit : (recase schema).output = schema ↔
      (recase schema).output.split '\n' = schema.split '\n' := by
    exact ⟨congrArg _, Text.eq_of_split_eq⟩
  have hedits : (recase schema).changes.map (·.edit) =
      (recaseLines .topLevel (schema.split '\n')).flatMap (·.edits) := map_edit_numberEdits 1 _
  rw [hsplit, split_output, flatMap_lines_eq_iff]
  have hmem : ∀ P : Edit → Prop, (∀ c ∈ (recase schema).changes, P c.edit) ↔
      ∀ e ∈ (recase schema).changes.map (·.edit), P e := by
    intro P
    simp
  rw [hmem (fun e => e.result = e.name), hedits]
  simp only [List.mem_flatMap]
  constructor
  · rintro h e ⟨r, hr, he⟩
    exact h r hr e he
  · intro h r hr e he
    exact h e ⟨r, hr, he⟩

/-- **The text changed iff the log has an edit that changed something.**  In particular an empty log,
or one whose names are all renamed to themselves, means that the output is the input. -/
theorem changed_iff_exists_ne (schema : Text) : (recase schema).changed ↔
    ∃ c ∈ (recase schema).changes, c.edit.name ≠ c.edit.result := by
  have h := output_eq_iff schema
  have hchanged : (recase schema).changed ↔ ¬ (recase schema).output = schema := by
    simp [Recasing.changed, recase]
  rw [hchanged, h]
  simp only [not_forall, exists_prop, ne_comm]

end Recase
