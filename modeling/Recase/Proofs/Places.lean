import Recase.Proofs.Idempotence
import Recase.Proofs.TableNames

/-!
# Lines and their places in the output

Lines are put into the output, so a line of the schema moves down by as many lines as came in above
it.  Here it is found again, and the output is read as a schema in its turn: at the new place of a
line stands what the line became, and it stands in the same block.

* `blockAt`, `lineAt?` — the lines of a schema, counted from zero, and their blocks;
* `outputIndex` — the place of a line in the output, by the log;
* `lineAt?_output` — what stands there;
* `next_recaseLine_block`, `foldl_next_recaseLines` — a step opens and closes what its line did, and so
  do all of them;
* `blockAt_output` — the block in which it stands.
-/

namespace Recase

open Token

/-! ### Lines and blocks of a schema -/

/-- The block that the `i`-th line of the schema stands in. -/
def blockAt (schema : Text) (i : Nat) : Block :=
  ((schema.split '\n').take i).foldl Block.next .topLevel

/-- The `i`-th line of the schema without its ending. -/
def lineAt? (schema : Text) (i : Nat) : Option Text :=
  (schema.split '\n')[i]?.map fun raw => (splitReturn raw).1

/-- The context in which the `i`-th line of the schema is recased. -/
def contextAt (schema : Text) (i : Nat) : Context :=
  contextAfter .topLevel ((schema.split '\n').take i)

/-- The place in the output of what the `i`-th line becomes: every line that was put above it or above
an earlier one moves it down. -/
def outputIndex (schema : Text) (i : Nat) : Nat :=
  i + ((tableChanges (recase schema).changes).filter (·.line ≤ i + 1)).length

theorem block_contextAt (schema : Text) (i : Nat) : (contextAt schema i).block = blockAt schema i :=
  block_contextAfter .topLevel _

theorem exists_contextAt_eq_model {schema : Text} {i : Nat} (h : blockAt schema i = .model) :
    ∃ state, contextAt schema i = .model state := by
  rw [← block_contextAt] at h
  cases hctx : contextAt schema i with
  | model state => exact ⟨state, rfl⟩
  | _ => rw [hctx] at h; cases h

theorem contextAt_eq_enum {schema : Text} {i : Nat} (h : blockAt schema i = .enum) :
    contextAt schema i = .enum := by
  rw [← block_contextAt] at h
  cases hctx : contextAt schema i with
  | enum => rfl
  | _ => rw [hctx] at h; cases h

/-! ### What stands at the new place -/

theorem take_recaseLines (ctx : Context) (lines : List Text) (k : Nat) :
    (recaseLines ctx lines).take k = recaseLines ctx (lines.take k) := by
  induction lines generalizing ctx k with
  | nil => simp [recaseLines]
  | cons raw lines ih =>
    cases k with
    | zero => rfl
    | succ k => simp [recaseLines, ih]

theorem filter_line_lt_numberEdits (first : Nat) (rs : List RecasedLine) (k : Nat) :
    (numberEdits first rs).filter (·.line < first + k) = numberEdits first (rs.take k) := by
  induction rs generalizing first k with
  | nil => simp [numberEdits]
  | cons r rs ih =>
    cases k with
    | zero =>
      refine List.filter_eq_nil_iff.2 fun c hc => ?_
      have := line_of_mem_numberEdits hc
      simp only [decide_eq_true_eq]
      omega
    | succ k =>
      have hhead : (r.edits.map (Change.mk first)).filter (·.line < first + (k + 1)) =
          r.edits.map (Change.mk first) := by
        refine List.filter_eq_self.2 fun c hc => ?_
        obtain ⟨e, -, rfl⟩ := List.mem_map.1 hc
        simp
      rw [List.take_succ_cons, numberEdits, List.filter_append, hhead, numberEdits, ← ih,
        show first + (k + 1) = first + 1 + k by omega]

section Output

variable {schema raw : Text} {i : Nat}

/-- The lines up to the `i`-th give as many lines of the output as its place says. -/
theorem outputIndex_add_one (hi : i < (schema.split '\n').length) :
    outputIndex schema i + 1 =
      ((recaseLines .topLevel ((schema.split '\n').take (i + 1))).flatMap RecasedLine.lines).length := by
  have hfilter : (tableChanges (recase schema).changes).filter (·.line ≤ i + 1) =
      tableChanges (numberEdits 1 (recaseLines .topLevel ((schema.split '\n').take (i + 1)))) := by
    rw [← take_recaseLines, ← filter_line_lt_numberEdits, tableChanges, tableChanges, List.filter_comm]
    refine congrArg _ (List.filter_congr fun c _ => ?_)
    simp only [decide_eq_decide]
    omega
  rw [length_flatMap_lines _ _ 1, outputIndex, hfilter, List.length_take]
  omega

/-- The output, cut at what the `i`-th line becomes. -/
theorem exists_split_output_eq (h : (schema.split '\n')[i]? = some raw) : ∃ after,
    (recase schema).output.split '\n' =
      ((recaseLines .topLevel ((schema.split '\n').take i)).flatMap RecasedLine.lines ++
        (recaseLine (contextAt schema i) raw).above.toList) ++
          (recaseLine (contextAt schema i) raw).line :: after ∧
    outputIndex schema i =
      ((recaseLines .topLevel ((schema.split '\n').take i)).flatMap RecasedLine.lines ++
        (recaseLine (contextAt schema i) raw).above.toList).length := by
  obtain ⟨hi, hget⟩ := List.getElem?_eq_some_iff.1 h
  have htake : (schema.split '\n').take (i + 1) = (schema.split '\n').take i ++ [raw] := by
    rw [List.take_succ_eq_append_getElem hi, hget]
  have hlines : (recaseLines .topLevel ((schema.split '\n').take (i + 1))).flatMap RecasedLine.lines =
      ((recaseLines .topLevel ((schema.split '\n').take i)).flatMap RecasedLine.lines ++
        (recaseLine (contextAt schema i) raw).above.toList) ++
          [(recaseLine (contextAt schema i) raw).line] := by
    rw [htake, recaseLines_append, List.flatMap_append]
    simp [recaseLines, RecasedLine.lines, contextAt]
  refine ⟨(recaseLines (contextAfter .topLevel ((schema.split '\n').take (i + 1)))
    ((schema.split '\n').drop (i + 1))).flatMap RecasedLine.lines, ?_, ?_⟩
  · rw [split_output]
    conv_lhs => rw [← List.take_append_drop (i + 1) (schema.split '\n')]
    rw [recaseLines_append, List.flatMap_append, hlines]
    simp
  · have := outputIndex_add_one hi
    rw [hlines, List.length_append, List.length_singleton] at this
    omega

theorem getElem?_output (h : (schema.split '\n')[i]? = some raw) :
    ((recase schema).output.split '\n')[outputIndex schema i]? =
      some (recaseLine (contextAt schema i) raw).line := by
  obtain ⟨after, hsplit, hindex⟩ := exists_split_output_eq h
  rw [hsplit, hindex, List.getElem?_append_right le_rfl, Nat.sub_self]
  rfl

/-- **What stands at the new place of a line.** -/
theorem lineAt?_output (h : (schema.split '\n')[i]? = some raw) :
    lineAt? (recase schema).output (outputIndex schema i) =
      some (splitReturn (recaseLine (contextAt schema i) raw).line).1 := by
  rw [lineAt?, getElem?_output h]
  rfl

end Output

/-! ### Braces -/

theorem Text.trim_ne_brace_of_mem {s : Text} {c : Char} (hc : c ∈ s) (hblank : isBlank c = false)
    (hbrace : c ≠ '}') : s.trim ≠ ['}'] := by
  intro h
  obtain ⟨t, ht, hs⟩ := Text.exists_trimEnd_append s.trimStart
  rw [← Text.indent_append_trimStart s, hs, ← Text.trim, h, List.mem_append, List.mem_append] at hc
  rcases hc with hc | hc | hc
  · rw [Text.isBlank_of_mem_indent hc] at hblank
    cases hblank
  · exact hbrace (List.mem_singleton.1 hc)
  · rw [ht c hc] at hblank
    cases hblank

theorem Text.trim_ne_brace_of_subset {s name : Text} (hname : Name.isName name) (hsub : name ⊆ s) :
    s.trim ≠ ['}'] := by
  obtain ⟨c, cs, rfl⟩ := List.exists_cons_of_ne_nil (Name.ne_nil_of_isName hname)
  have hpart := Name.isPart_of_mem hname c (List.mem_cons_self ..)
  refine Text.trim_ne_brace_of_mem (hsub (List.mem_cons_self ..)) (Name.isBlank_of_isPart hpart) ?_
  rintro rfl
  cases hpart

/-- The name that an edit replaces stands in the old text, the one that it writes in the new. -/
theorem Renames.subset_of_mem {ts us : List Token} {es : List Edit} (h : Renames ts es us) {e : Edit}
    (he : e ∈ es) : e.name ⊆ concat ts ∧ e.result ⊆ concat us := by
  induction h with
  | nil => cases he
  | keep t _ ih =>
    obtain ⟨h1, h2⟩ := ih he
    rw [concat_cons, concat_cons]
    exact ⟨List.subset_append_of_subset_right _ h1, List.subset_append_of_subset_right _ h2⟩
  | rename _ _ ih =>
    rw [concat_cons, concat_cons]
    rcases List.mem_cons.1 he with rfl | he
    · exact ⟨List.subset_append_left _ _, List.subset_append_left _ _⟩
    · obtain ⟨h1, h2⟩ := ih he
      exact ⟨List.subset_append_of_subset_right _ h1, List.subset_append_of_subset_right _ h2⟩

/-- A line with an edit is no brace, neither before nor after. -/
theorem Replays.trim_eq_brace_iff {line out : Text} {es : List Edit} (h : Replays line es out) :
    out.trim = ['}'] ↔ line.trim = ['}'] := by
  cases h with
  | renamed h =>
    rcases es with _ | ⟨e, es⟩
    · rw [h.eq_iff.2 (by simp), concat_tokenize]
    · have he := h.isRename_of_mem e (List.mem_cons_self ..)
      obtain ⟨hold, hnew⟩ := h.subset_of_mem (List.mem_cons_self ..)
      rw [concat_tokenize] at hold
      exact iff_of_false (Text.trim_ne_brace_of_subset (Edit.isName_result he) hnew)
        (Text.trim_ne_brace_of_subset (Edit.isName_name he) hold)
  | @mapped name es us h =>
    have he := h.isRename_of_mem _ (List.mem_cons_self ..)
    have hold := (h.subset_of_mem (List.mem_cons_self ..)).1
    rw [concat_tokenize] at hold
    refine iff_of_false (Text.trim_ne_brace_of_mem (c := '@') ?_ rfl (by decide))
      (Text.trim_ne_brace_of_subset (Edit.isName_name he) hold)
    simp [withAttribute, Edit.result, fieldMapAttribute_eq]

theorem closesBlock_recaseLine (ctx : Context) (raw : Text) :
    closesBlock (recaseLine ctx raw).line = closesBlock raw := by
  rcases hraw : splitReturn raw with ⟨line, eol⟩
  obtain ⟨happend, hend⟩ := append_of_splitReturn hraw
  rcases recaseLine_cases ctx hraw with ⟨name, -, -, heq⟩ | ⟨-, out, hout, hreplays⟩
  · rw [heq, happend]
  · have hread := splitReturn_append (hreplays.isEnding hend)
    simp only [closesBlock, hout, hread, hraw, hreplays.trim_eq_brace_iff]

/-! ### Blocks -/

/-- A heading opens after renaming what it opened before. -/
theorem ofHeading?_recaseLine (raw : Text) :
    Block.ofHeading? (splitReturn (recaseLine .topLevel raw).line).1.trim =
      Block.ofHeading? (splitReturn raw).1.trim := by
  rcases hraw : splitReturn raw with ⟨line, eol⟩
  obtain ⟨rfl, hend⟩ := append_of_splitReturn hraw
  cases hb : Block.ofHeading? line.trim with
  | none =>
    have hkeep : (recaseLine .topLevel (line ++ eol)).line = line ++ eol := by
      rw [recaseLine_of_splitReturn _ hraw]
      split
      · rcases recaseClosing_cases .topLevel line eol with ⟨name, h, -⟩ | heq
        · cases h
        · rw [heq]
          rfl
      · simp only [hb]
        rfl
    rw [hkeep, hraw, hb]
  | some b =>
    have hplace : (recaseHeading b line eol).InPlace line eol := inPlace_recaseHeading hb
    rw [recaseLine_heading hraw hb]
    rcases recaseHeading_cases b line eol with ⟨kind, heading, hkind, hparse, hs, heq⟩ | heq
    · rw [heq] at hplace ⊢
      have hname := Edit.isName_result (isRename_heading hkind hs)
      rw [hplace.splitReturn hend rfl, (Heading.parse?_rename hparse hname).2, hb]
    · rw [heq]
      exact (congrArg (fun p : Text × Text => Block.ofHeading? p.1.trim) hraw).trans hb

theorem next_tableLine {line eol : Text} (hend : IsEnding line eol) (name : Text) :
    Block.next .model (tableLine line eol name) = .model := by
  have hkeeps := (keeps_tableLine hend name ⟨none, false⟩).2
  rw [next_recaseLine] at hkeeps
  have hblock := block_after (.model ⟨none, false⟩) (tableLine line eol name)
  rw [hkeeps] at hblock
  exact hblock.symm

/-- **A step opens and closes what its line did**, and a line put above changes nothing. -/
theorem next_recaseLine_block (ctx : Context) (raw : Text) :
    (recaseLine ctx raw).above.toList.foldl Block.next ctx.block = ctx.block ∧
      ctx.block.next (recaseLine ctx raw).line = ctx.block.next raw := by
  constructor
  · rcases hraw : splitReturn raw with ⟨line, eol⟩
    obtain ⟨-, hend⟩ := append_of_splitReturn hraw
    rcases recaseLine_cases ctx hraw with ⟨name, -, rfl, heq⟩ | ⟨habove, -⟩
    · rw [heq]
      exact next_tableLine hend name
    · rw [habove]
      rfl
  · by_cases htop : ctx.block = .topLevel
    · rw [eq_topLevel_of_block htop]
      simp only [Block.next, closesBlock_recaseLine, ofHeading?_recaseLine]
    · simp only [Block.next, closesBlock_recaseLine, htop, if_false]

theorem foldl_next_recaseLines (ctx : Context) (lines : List Text) :
    ((recaseLines ctx lines).flatMap RecasedLine.lines).foldl Block.next ctx.block =
      lines.foldl Block.next ctx.block := by
  induction lines generalizing ctx with
  | nil => rfl
  | cons raw lines ih =>
    obtain ⟨habove, hline⟩ := next_recaseLine_block ctx raw
    rw [recaseLines, List.flatMap_cons, List.foldl_append, RecasedLine.lines, List.foldl_append, habove,
      List.foldl_cons, List.foldl_nil, hline, List.foldl_cons, ← block_after, ← next_recaseLine]
    exact ih _

/-- **What a line becomes stands in the block that the line stood in.** -/
theorem blockAt_output {schema raw : Text} {i : Nat} (h : (schema.split '\n')[i]? = some raw) :
    blockAt (recase schema).output (outputIndex schema i) = blockAt schema i := by
  obtain ⟨after, hsplit, hindex⟩ := exists_split_output_eq h
  have hblock : ((schema.split '\n').take i).foldl Block.next Context.topLevel.block =
      (contextAt schema i).block := (block_contextAt schema i).symm
  rw [blockAt, hsplit, hindex, List.take_left, List.foldl_append]
  rw [show (Block.topLevel : Block) = Context.topLevel.block from rfl, foldl_next_recaseLines, hblock,
    (next_recaseLine_block _ raw).1, block_contextAt]

end Recase
