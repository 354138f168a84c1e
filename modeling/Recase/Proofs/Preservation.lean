import Recase.Proofs.Places

/-!
# What recasing preserves

Two things are the same in a schema and in its output.  The first are the blocks: when the output is
read in its turn, every line opens and closes what the line it comes from did, and the lines that were
put in open and close nothing.  The second are the lines that hold nothing to rename, which is a matter
of the line and of the block that it stands in.

* `strictMono_outputIndex`, `exists_of_getElem?_output` — the lines of the output, by where they come
  from;
* `blockAt_succ_output`, `exists_place_above` — the blocks after a line and around a line put above it;
* `blocks_preserved` — the blocks of the output;
* `LeavesAlone` — the lines that hold nothing to rename;
* `isUntouched_recaseLine` — such a line in a step;
* `lines_left_alone` — such a line in the output and in the log.
-/

namespace Recase

/-! ### Where the lines of the output come from -/

theorem strictMono_outputIndex (schema : Text) : StrictMono (outputIndex schema) := by
  intro i j hij
  have hsub : ((tableChanges (recase schema).changes).filter (·.line ≤ i + 1)).length ≤
      ((tableChanges (recase schema).changes).filter (·.line ≤ j + 1)).length := by
    refine (List.monotone_filter_right _ fun c hc => ?_).length_le
    simp only [decide_eq_true_eq] at hc ⊢
    omega
  unfold outputIndex
  omega

/-- A line of the result is one of the lines of some step. -/
theorem exists_take_flatMap_lines {rs : List RecasedLine} {k : Nat}
    (hk : k < (rs.flatMap RecasedLine.lines).length) :
    ∃ i, i < rs.length ∧ ((rs.take i).flatMap RecasedLine.lines).length ≤ k ∧
      k < ((rs.take (i + 1)).flatMap RecasedLine.lines).length := by
  induction rs generalizing k with
  | nil => simp at hk
  | cons r rs ih =>
    rw [List.flatMap_cons, List.length_append] at hk
    by_cases hr : k < r.lines.length
    · exact ⟨0, by simp, by simp, by simpa using hr⟩
    · obtain ⟨i, hi, hle, hlt⟩ := ih (k := k - r.lines.length) (by omega)
      have hcons : ∀ j, (((r :: rs).take (j + 1)).flatMap RecasedLine.lines).length =
          r.lines.length + ((rs.take j).flatMap RecasedLine.lines).length := by simp
      refine ⟨i + 1, by simpa using hi, ?_, ?_⟩
      · rw [hcons]
        omega
      · rw [hcons]
        omega

section Places

variable {schema raw l : Text} {i k : Nat}

/-- A line that was put above another stands right before it, in the block of that line. -/
theorem exists_place_above (h : (schema.split '\n')[i]? = some raw)
    (habove : (recaseLine (contextAt schema i) raw).above = some l) :
    ∃ k, outputIndex schema i = k + 1 ∧ ((recase schema).output.split '\n')[k]? = some l ∧
      blockAt (recase schema).output k = blockAt schema i := by
  obtain ⟨after, hsplit, hindex⟩ := exists_split_output_eq h
  rw [habove, Option.toList_some] at hsplit hindex
  set before := (recaseLines .topLevel ((schema.split '\n').take i)).flatMap RecasedLine.lines
    with hbefore
  refine ⟨before.length, by simpa using hindex, ?_, ?_⟩
  · rw [hsplit]
    simp
  · rw [blockAt, hsplit, List.append_assoc, List.take_left, hbefore]
    exact foldl_next_recaseLines .topLevel _

/-- **Every line of the output is what a line became, or was put right above it.** -/
theorem exists_of_getElem?_output (h : ((recase schema).output.split '\n')[k]? = some l) :
    ∃ i raw, (schema.split '\n')[i]? = some raw ∧ (outputIndex schema i = k ∨
      outputIndex schema i = k + 1 ∧ (recaseLine (contextAt schema i) raw).above = some l) := by
  obtain ⟨hk, -⟩ := List.getElem?_eq_some_iff.1 h
  rw [split_output] at hk
  obtain ⟨i, hi, hle, hlt⟩ := exists_take_flatMap_lines hk
  rw [length_recaseLines] at hi
  rw [take_recaseLines] at hle hlt
  have hraw := List.getElem?_eq_getElem hi
  refine ⟨i, _, hraw, ?_⟩
  rw [← outputIndex_add_one hi] at hlt
  cases habove : (recaseLine (contextAt schema i) (schema.split '\n')[i]).above with
  | none =>
    obtain ⟨-, -, hindex⟩ := exists_split_output_eq hraw
    rw [habove, Option.toList_none, List.append_nil] at hindex
    omega
  | some l' =>
    by_cases hlast : outputIndex schema i = k
    · exact Or.inl hlast
    · -- there are two lines, and this is the first of them
      obtain ⟨k', hindex, hl', -⟩ := exists_place_above hraw habove
      obtain ⟨-, -, hlength⟩ := exists_split_output_eq hraw
      rw [habove, Option.toList_some, List.length_append, List.length_singleton] at hlength
      obtain rfl : k = k' := by omega
      exact Or.inr ⟨hindex, hl'.symm.trans h⟩

/-! ### Blocks before and after a line -/

theorem blockAt_succ (h : (schema.split '\n')[i]? = some raw) :
    blockAt schema (i + 1) = (blockAt schema i).next raw := by
  obtain ⟨hi, hget⟩ := List.getElem?_eq_some_iff.1 h
  rw [blockAt, List.take_succ_eq_append_getElem hi, hget, List.foldl_append]
  rfl

/-- **After what a line becomes the block is the one after the line.** -/
theorem blockAt_succ_output (h : (schema.split '\n')[i]? = some raw) :
    blockAt (recase schema).output (outputIndex schema i + 1) = blockAt schema (i + 1) := by
  have hstep := (next_recaseLine_block (contextAt schema i) raw).2
  rw [block_contextAt] at hstep
  rw [blockAt_succ (getElem?_output h), blockAt_output h, hstep, blockAt_succ h]

/-- A line is put above another only in a model, and names its table. -/
theorem of_above_eq_some (habove : (recaseLine (contextAt schema i) raw).above = some l) :
    namesTable (splitReturn l).1 ∧ blockAt schema i = .model := by
  rcases hraw : splitReturn raw with ⟨line, eol⟩
  obtain ⟨-, hend⟩ := append_of_splitReturn hraw
  rcases recaseLine_cases (contextAt schema i) hraw with ⟨name, -, hctx, heq⟩ | ⟨hnone, -⟩
  · rw [heq] at habove
    cases habove
    refine ⟨?_, ?_⟩
    · rw [splitReturn_tableLine hend]
      exact namesTable_indent_append (isBlank_of_mem_tableIndent line) name
    · rw [← block_contextAt, hctx]
      rfl
  · rw [hnone] at habove
    cases habove

end Places

/-- **The output has the blocks of the schema.**  The lines of the schema have places in the output, in the
same order; reading the output, the block before and after each of these places is that before and after
the line.  What stands at any other place names a table, inside a model that it does not close. -/
theorem blocks_preserved (schema : Text) :
    StrictMono (outputIndex schema) ∧
    (∀ i raw, (schema.split '\n')[i]? = some raw →
      ((recase schema).output.split '\n')[outputIndex schema i]? =
        some (recaseLine (contextAt schema i) raw).line ∧
      (contextAt (recase schema).output (outputIndex schema i)).block = (contextAt schema i).block ∧
      (contextAt (recase schema).output (outputIndex schema i + 1)).block =
        (contextAt schema (i + 1)).block) ∧
    (∀ k l, ((recase schema).output.split '\n')[k]? = some l →
      (∀ i < (schema.split '\n').length, outputIndex schema i ≠ k) →
      namesTable (splitReturn l).1 ∧
      (contextAt (recase schema).output k).block = .model ∧
      (contextAt (recase schema).output (k + 1)).block = .model) := by
  simp only [block_contextAt]
  refine ⟨strictMono_outputIndex schema, fun i raw h => ?_, fun k l h hother => ?_⟩
  · exact ⟨getElem?_output h, blockAt_output h, blockAt_succ_output h⟩
  · obtain ⟨i, raw, hraw, hplace | ⟨hplace, habove⟩⟩ := exists_of_getElem?_output h
    · obtain ⟨hi, -⟩ := List.getElem?_eq_some_iff.1 hraw
      exact absurd hplace (hother i hi)
    · obtain ⟨htable, hmodel⟩ := of_above_eq_some habove
      obtain ⟨k', hindex, -, hblock⟩ := exists_place_above hraw habove
      obtain rfl : k = k' := by omega
      refine ⟨htable, hblock.trans hmodel, ?_⟩
      rw [← hplace, blockAt_output hraw, hmodel]

/-- A renamed model, and an enum whose lines look like those of a model. -/
def lookalikes : Text :=
  Text.join '\n' (["model user_log \x7b", "  // user_id Int", "\x7d\r", "enum Kind \x7b",
    "  model log_kind \x7b", "  user_id Int\r", "\x7d"].map String.toList)

/-- The line that was put above the brace, in a schema with a renamed model. -/
theorem blocks_preserved_lookalikes :
    ((recase lookalikes).output.split '\n')[2]? = some "  @@map(\"user_log\")\r".toList ∧
      (∀ i < (lookalikes.split '\n').length, outputIndex lookalikes i ≠ 2) ∧
      (contextAt (recase lookalikes).output 2).block = .model ∧
      (contextAt (recase lookalikes).output 3).block = .model := by
  have hread : ((recase lookalikes).output.split '\n')[2]? =
      some "  @@map(\"user_log\")\r".toList := by decide +kernel
  have hother : ∀ i < (lookalikes.split '\n').length, outputIndex lookalikes i ≠ 2 := by
    decide +kernel
  obtain ⟨-, hblocks⟩ := (blocks_preserved lookalikes).2.2 2 _ hread hother
  exact ⟨hread, hother, hblocks⟩

/-! ### Lines that hold nothing to rename -/

/-- The lines that recasing leaves alone, by the block that they stand in. -/
inductive LeavesAlone : Block → Text → Prop
  /-- A closing brace, wherever it stands. -/
  | brace {b : Block} {line : Text} (h : line.trim = ['}']) : LeavesAlone b line
  /-- Outside of all blocks, a line that opens none. -/
  | outside {line : Text} (h : Block.ofHeading? line.trim = none) : LeavesAlone .topLevel line
  /-- The heading of a generator or a data source. -/
  | settings {b : Block} {line : Text} (hb : b ∈ [Block.generator, .datasource])
      (h : Block.ofHeading? line.trim = some b) : LeavesAlone .topLevel line
  /-- Any line of an enum, a generator or a data source. -/
  | body {b : Block} {line : Text} (hb : b ∈ [Block.enum, .generator, .datasource]) : LeavesAlone b line
  /-- A line of a composite type that is not a field in snake_case. -/
  | typeLine {line : Text} (h : ∀ f, FieldDecl.parse? line = some f → Name.isSnake f.name = false) :
      LeavesAlone .type line
  /-- A line of a model that neither lists fields nor is one. -/
  | modelLine {line : Text} (hlist : listsFields line = false) (hfield : FieldDecl.parse? line = none) :
      LeavesAlone .model line

/-- The step gave the line back, and what it logged at most was a line put above. -/
def RecasedLine.IsUntouched (raw : Text) (r : RecasedLine) : Prop :=
  r.line = raw ∧ ∀ e ∈ r.edits, e.kind = .modelMap

section Step

variable {line eol : Text}

theorem isUntouched_keep (raw : Text) (next : Context) : (RecasedLine.keep raw next).IsUntouched raw :=
  ⟨rfl, by simp [RecasedLine.keep]⟩

theorem isUntouched_recaseClosing (ctx : Context) (line eol : Text) :
    (recaseClosing ctx line eol).IsUntouched (line ++ eol) := by
  rcases recaseClosing_cases ctx line eol with ⟨name, -, heq⟩ | heq
  · rw [heq]
    exact ⟨rfl, by simp⟩
  · rw [heq]
    exact isUntouched_keep _ _

theorem isUntouched_recaseHeading {b : Block} (hb : b ∈ [Block.generator, .datasource]) :
    (recaseHeading b line eol).IsUntouched (line ++ eol) := by
  rcases recaseHeading_cases b line eol with ⟨kind, heading, hkind, -⟩ | heq
  · -- no kind of edit renames these blocks
    have hnone : b.headingKind? = none := by
      simp only [List.mem_cons, List.not_mem_nil, or_false] at hb
      rcases hb with rfl | rfl <;> rfl
    rw [hnone] at hkind
    cases hkind
  · rw [heq]
    exact isUntouched_keep _ _

theorem isUntouched_recaseTypeLine
    (h : ∀ f, FieldDecl.parse? line = some f → Name.isSnake f.name = false) :
    (recaseTypeLine line eol).IsUntouched (line ++ eol) := by
  cases hparse : FieldDecl.parse? line with
  | none =>
    simp only [recaseTypeLine, hparse]
    exact isUntouched_keep _ _
  | some f =>
    simp only [recaseTypeLine, hparse, h f hparse]
    exact isUntouched_keep _ _

theorem isUntouched_recaseModelLine (state : ModelState) (hlist : listsFields line = false)
    (hfield : FieldDecl.parse? line = none) :
    (recaseModelLine state line eol).IsUntouched (line ++ eol) := by
  simp only [recaseModelLine, hlist, hfield, Bool.false_eq_true, if_false]
  split
  · exact isUntouched_keep _ _
  · exact isUntouched_keep _ _

/-- **A line that is left alone is given back by the step.** -/
theorem isUntouched_recaseLine {ctx : Context} {raw : Text} (hraw : splitReturn raw = (line, eol))
    (h : LeavesAlone ctx.block line) : (recaseLine ctx raw).IsUntouched raw := by
  rw [recaseLine_of_splitReturn ctx hraw, (append_of_splitReturn hraw).1]
  by_cases hbrace : line.trim = ['}']
  · rw [if_pos hbrace]
    exact isUntouched_recaseClosing ctx line eol
  rw [if_neg hbrace]
  cases ctx with
  | topLevel =>
    cases h with
    | brace h => exact absurd h hbrace
    | outside h =>
      simp only [h]
      exact isUntouched_keep _ _
    | settings hb h =>
      simp only [h]
      exact isUntouched_recaseHeading hb
    | body hb => exact absurd hb (by decide)
  | model state =>
    cases h with
    | brace h => exact absurd h hbrace
    | body hb => exact absurd hb (by simp [Context.block])
    | modelLine hlist hfield => exact isUntouched_recaseModelLine state hlist hfield
  | type =>
    cases h with
    | brace h => exact absurd h hbrace
    | body hb => exact absurd hb (by decide)
    | typeLine h => exact isUntouched_recaseTypeLine h
  | enum | generator | datasource => exact isUntouched_keep _ _

end Step

/-- The entries of the log with the number of a line are those of its step. -/
theorem mem_edits_of_mem_changes {schema raw : Text} {i : Nat}
    (h : (schema.split '\n')[i]? = some raw) {c : Change} (hc : c ∈ (recase schema).changes)
    (hline : c.line = i + 1) : c.edit ∈ (recaseLine (contextAt schema i) raw).edits := by
  have hfilter := filter_line_numberEdits 1 (recaseLines .topLevel (schema.split '\n')) i
  rw [getElem?_recaseLines, h, Option.map_some, Option.elim_some] at hfilter
  have hmem : c ∈ (recase schema).changes.filter (·.line = 1 + i) := by
    refine List.mem_filter.2 ⟨hc, ?_⟩
    simp only [decide_eq_true_eq]
    omega
  rw [recase, hfilter] at hmem
  obtain ⟨e, he, rfl⟩ := List.mem_map.1 hmem
  exact he

/-- **The lines that hold nothing to rename are copied.**  Each of them stands at its place in the output
with the ending that it had, and no name in it and no attribute of it is in the log. -/
theorem lines_left_alone (schema : Text) {i : Nat} {raw : Text}
    (hraw : (schema.split '\n')[i]? = some raw)
    (h : LeavesAlone (blockAt schema i) (splitReturn raw).1) :
    ((recase schema).output.split '\n')[outputIndex schema i]? = some raw ∧
      ∀ c ∈ (recase schema).changes, c.line = i + 1 → c.edit.kind = .modelMap := by
  rw [← block_contextAt] at h
  obtain ⟨hline, hedits⟩ := isUntouched_recaseLine rfl h
  refine ⟨?_, fun c hc hnumber => hedits c.edit (mem_edits_of_mem_changes hraw hc hnumber)⟩
  rw [getElem?_output hraw, hline]

/-- The line that looks like a field is copied, and so is the brace that gets a line above it. -/
theorem lines_left_alone_lookalikes :
    (LeavesAlone (blockAt lookalikes 5) "  user_id Int".toList ∧ outputIndex lookalikes 5 = 6 ∧
      ((recase lookalikes).output.split '\n')[6]? = some "  user_id Int\r".toList ∧
      ∀ c ∈ (recase lookalikes).changes, c.line = 6 → c.edit.kind = .modelMap) ∧
    (LeavesAlone (blockAt lookalikes 2) "\x7d".toList ∧ outputIndex lookalikes 2 = 3 ∧
      ((recase lookalikes).output.split '\n')[3]? = some "\x7d\r".toList ∧
      ∀ c ∈ (recase lookalikes).changes, c.line = 3 → c.edit.kind = .modelMap) := by
  have hbody : LeavesAlone (blockAt lookalikes 5) "  user_id Int".toList := .body (by decide +kernel)
  have hbrace : LeavesAlone (blockAt lookalikes 2) "\x7d".toList := .brace (by decide +kernel)
  have hread5 : (lookalikes.split '\n')[5]? = some "  user_id Int\r".toList := by decide +kernel
  have hread2 : (lookalikes.split '\n')[2]? = some "\x7d\r".toList := by decide +kernel
  have hplace5 : outputIndex lookalikes 5 = 6 := by decide +kernel
  have hplace2 : outputIndex lookalikes 2 = 3 := by decide +kernel
  obtain ⟨hline5, hlog5⟩ := lines_left_alone lookalikes hread5 hbody
  obtain ⟨hline2, hlog2⟩ := lines_left_alone lookalikes hread2 hbrace
  rw [hplace5] at hline5
  rw [hplace2] at hline2
  exact ⟨⟨hbody, hplace5, hline5, hlog5⟩, hbrace, hplace2, hline2, hlog2⟩

end Recase
