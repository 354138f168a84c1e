import Recase.Proofs.ChangeLog
import Recase.Proofs.OpenBlocks

/-!
# The lines that name tables

A line is put above the brace of a model when the model was renamed and none of its lines names its
table.  The pass decides this from what it remembers; here it is read off the lines themselves.

* `tables_recaseLine` — what a step puts above its line and logs for it;
* `contextAfter_eq_iff_lacksTable` — the lines before a brace that gets such a line.
-/

namespace Recase

/-! ### One step -/

/-- The name that a line above this one gives to a table. -/
def Context.tableName? (ctx : Context) (raw : Text) : Option Text :=
  match closesBlock raw, ctx with
  | true, .model { oldName? := some name, tableNamed := false } => some name
  | _, _ => none

theorem Context.tableName?_eq_some_iff {ctx : Context} {raw name : Text} :
    ctx.tableName? raw = some name ↔ closesBlock raw ∧ ctx = .model ⟨some name, false⟩ := by
  unfold Context.tableName?
  split
  · next hclose => simp [hclose]
  · next hother =>
    refine iff_of_false (by simp) ?_
    rintro ⟨hclose, rfl⟩
    exact hother name hclose rfl

/-- **What a step puts above its line, and what it logs for that.** -/
theorem tables_recaseLine (ctx : Context) (raw : Text) :
    (recaseLine ctx raw).above =
      (ctx.tableName? raw).map (tableLine (splitReturn raw).1 (splitReturn raw).2) ∧
    (recaseLine ctx raw).edits.filter (·.kind = .modelMap) =
      (ctx.tableName? raw).toList.map (Edit.mk .modelMap) := by
  rcases hraw : splitReturn raw with ⟨line, eol⟩
  rcases recaseLine_cases ctx hraw with ⟨name, hbrace, hctx, heq⟩ | ⟨habove, out, -, hreplays⟩
  · have hname : ctx.tableName? raw = some name :=
      Context.tableName?_eq_some_iff.2 ⟨by simpa [closesBlock, hraw] using hbrace, hctx⟩
    rw [heq, hname]
    exact ⟨rfl, rfl⟩
  · have hname : ctx.tableName? raw = none := by
      refine Option.eq_none_iff_forall_ne_some.2 fun name hname => ?_
      obtain ⟨hclose, rfl⟩ := Context.tableName?_eq_some_iff.1 hname
      have hbrace : line.trim = ['}'] := by simpa [closesBlock, hraw] using hclose
      rw [recaseLine_of_splitReturn _ hraw, if_pos hbrace] at habove
      cases habove
    rw [habove, hname]
    refine ⟨rfl, List.filter_eq_nil_iff.2 fun e he => ?_⟩
    simpa using (hreplays.isExact_of_mem e he).2

theorem length_lines_recaseLine (ctx : Context) (raw : Text) :
    (recaseLine ctx raw).lines.length =
      1 + ((recaseLine ctx raw).edits.filter (·.kind = .modelMap)).length := by
  obtain ⟨habove, hedits⟩ := tables_recaseLine ctx raw
  rw [RecasedLine.lines, habove, hedits]
  cases ctx.tableName? raw <;> rfl

/-! ### All lines -/

/-- The entries of the log for lines that name tables. -/
def tableChanges (changes : List Change) : List Change := changes.filter (·.edit.kind = .modelMap)

/-- The result has a line more for each of these entries. -/
theorem length_flatMap_lines (ctx : Context) (lines : List Text) (first : Nat) :
    ((recaseLines ctx lines).flatMap RecasedLine.lines).length =
      lines.length + (tableChanges (numberEdits first (recaseLines ctx lines))).length := by
  induction lines generalizing ctx first with
  | nil => rfl
  | cons raw lines ih =>
    have hmap : tableChanges ((recaseLine ctx raw).edits.map (Change.mk first)) =
        ((recaseLine ctx raw).edits.filter (·.kind = .modelMap)).map (Change.mk first) :=
      List.filter_map
    have happend : ∀ as bs, tableChanges (as ++ bs) = tableChanges as ++ tableChanges bs :=
      fun _ _ => List.filter_append ..
    rw [recaseLines, List.flatMap_cons, List.length_append, ih _ (first + 1),
      length_lines_recaseLine, numberEdits, happend, hmap, List.length_append, List.length_map,
      List.length_cons]
    omega

/-- The lines end in a model that was called `name`, which is in snake_case, and none of its lines names
its table. -/
def LacksTable (before : List Text) (name : Text) : Prop :=
  ∃ pre opener body, before = pre ++ opener :: body ∧ OpensModel pre opener body ∧
    (∃ heading, Heading.parse? (splitReturn opener).1 = some heading ∧ heading.name = name) ∧
    Name.isSnake name ∧ ∀ raw ∈ body, namesTable (splitReturn raw).1 = false

theorem contextAfter_eq_iff_lacksTable {before : List Text} {name : Text} :
    contextAfter .topLevel before = .model ⟨some name, false⟩ ↔ LacksTable before name := by
  rw [contextAfter_eq_model_iff]
  refine exists_congr fun pre => exists_congr fun opener => exists_congr fun body => ?_
  refine and_congr_right fun _ => and_congr_right fun _ => ?_
  rw [← and_assoc, ← renamedName?_eq_some_iff]
  simp only [ModelState.ofLines, ModelState.mk.injEq]
  refine and_congr eq_comm ?_
  rw [eq_comm, List.any_eq_false]
  simp

/-- The entry of the log for the line above the `i`-th one. -/
theorem tableChanges_recaseLines {lines : List Text} {i : Nat} {raw : Text} (h : lines[i]? = some raw) :
    (tableChanges (numberEdits 1 (recaseLines .topLevel lines))).filter (·.line = i + 1) =
      ((contextAfter .topLevel (lines.take i)).tableName? raw).toList.map
        (⟨i + 1, .modelMap, ·⟩) := by
  have hswap : (tableChanges (numberEdits 1 (recaseLines .topLevel lines))).filter (·.line = i + 1) =
      tableChanges ((numberEdits 1 (recaseLines .topLevel lines)).filter (·.line = 1 + i)) := by
    rw [tableChanges, tableChanges, List.filter_comm, Nat.add_comm]
  rw [hswap, filter_line_numberEdits, getElem?_recaseLines, h]
  simp only [Option.map_some, Option.elim_some]
  rw [tableChanges, List.filter_map, Nat.add_comm 1 i]
  have hedits := (tables_recaseLine (contextAfter .topLevel (lines.take i)) raw).2
  rw [show ((fun c : Change => decide (c.edit.kind = .modelMap)) ∘ Change.mk (i + 1)) =
    fun e : Edit => decide (e.kind = .modelMap) from rfl, hedits, List.map_map]
  rfl

/-- Every such entry is that of a brace. -/
theorem exists_closesBlock_of_mem {lines : List Text} {c : Change}
    (hc : c ∈ tableChanges (numberEdits 1 (recaseLines .topLevel lines))) :
    ∃ i raw, c.line = i + 1 ∧ lines[i]? = some raw ∧ closesBlock raw := by
  have hline := line_of_mem_numberEdits (List.mem_of_mem_filter hc)
  rw [length_recaseLines] at hline
  obtain ⟨i, hi⟩ : ∃ i, c.line = i + 1 := ⟨c.line - 1, by omega⟩
  obtain ⟨raw, hraw⟩ : ∃ raw, lines[i]? = some raw :=
    ⟨_, List.getElem?_eq_getElem (by omega : i < lines.length)⟩
  have hmem : c ∈ (tableChanges (numberEdits 1 (recaseLines .topLevel lines))).filter
      (·.line = i + 1) := List.mem_filter.2 ⟨hc, by simpa using hi⟩
  rw [tableChanges_recaseLines hraw] at hmem
  obtain ⟨name, hname, -⟩ := List.mem_map.1 hmem
  exact ⟨i, raw, hi, hraw, (Context.tableName?_eq_some_iff.1 (Option.mem_toList.1 hname)).1⟩

/-- **Exactly the renamed models that do not name their tables get a line that does.**  The lines of the
output are those of the schema, each recased and in their order, and above some of them one more line.
It stands above the brace of a model that lacks it, and nowhere else; it has the brace's indentation and
ending; and it is logged once, with the number of the brace.  A model without a brace gets none. -/
theorem table_lines_exact (schema : Text) :
    let lines := schema.split '\n'
    let recased := recaseLines .topLevel lines
    let tables := tableChanges (recase schema).changes
    (recase schema).output.split '\n' = recased.flatMap (fun r => r.above.toList ++ [r.line]) ∧
    recased.length = lines.length ∧
    (∀ i raw, lines[i]? = some raw → ∃ name?,
      (∀ name, name? = some name ↔ closesBlock raw ∧ LacksTable (lines.take i) name) ∧
      recased[i]?.map (·.above) =
        some (name?.map (tableLine (splitReturn raw).1 (splitReturn raw).2)) ∧
      tables.filter (·.line = i + 1) = name?.toList.map (⟨i + 1, .modelMap, ·⟩)) ∧
    ((recase schema).output.split '\n').length = lines.length + tables.length ∧
    (∀ pre opener body, lines = pre ++ opener :: body → OpensModel pre opener body →
      ∀ c ∈ tables, c.line ≤ pre.length) := by
  intro lines recased tables
  refine ⟨split_output schema, length_recaseLines _ _, fun i raw h => ?_, ?_, ?_⟩
  · refine ⟨(contextAfter .topLevel (lines.take i)).tableName? raw, fun name => ?_, ?_,
      tableChanges_recaseLines h⟩
    · rw [Context.tableName?_eq_some_iff, contextAfter_eq_iff_lacksTable]
    · rw [getElem?_recaseLines, h, Option.map_some, Option.map_some, (tables_recaseLine _ raw).1]
  · rw [split_output]
    exact length_flatMap_lines .topLevel lines 1
  · intro pre opener body hlines hmodel c hc
    obtain ⟨i, raw, hi, hraw, hclose⟩ := exists_closesBlock_of_mem hc
    have hat : (pre ++ opener :: body)[i]? = some raw := hlines ▸ hraw
    have := hmodel.lt_length hat hclose
    omega

end Recase
