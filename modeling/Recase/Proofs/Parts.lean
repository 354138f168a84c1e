import Recase.Proofs.TableNames

/-!
# Schemas in parts

A schema is recased in one pass, from its first line to its last.  So a part of it becomes the same
whatever follows, and of what comes before it only the context matters that the lines leave behind.
At the top level there is nothing to remember: a part that ends there, be its braces matched or not,
has no bearing on the next one, except that it moves the lines down.

* `recaseFrom` — recasing a part in a context;
* `numberEdits_add` — numbers of lines, moved down;
* `output_recaseFrom_append`, `changes_recaseFrom_append` — a part cut at a line feed;
* `recase_append` — a schema cut at a line feed.
-/

namespace Recase

/-! ### Recasing in a context -/

/-- What a part of a schema becomes after lines that leave the context behind. -/
def recaseFrom (ctx : Context) (part : Text) : Recasing where
  input := part
  output := Text.join '\n' ((recaseLines ctx (part.split '\n')).flatMap RecasedLine.lines)
  changes := numberEdits 1 (recaseLines ctx (part.split '\n'))

theorem recaseFrom_topLevel (schema : Text) : recaseFrom .topLevel schema = recase schema := rfl

/-- The change with its line moved down. -/
def Change.moveDown (n : Nat) (c : Change) : Change := { c with line := c.line + n }

theorem numberEdits_add (first n : Nat) (rs : List RecasedLine) :
    numberEdits (first + n) rs = (numberEdits first rs).map (Change.moveDown n) := by
  induction rs generalizing first with
  | nil => rfl
  | cons r rs ih =>
    have hhead : r.edits.map (Change.mk (first + n)) =
        (r.edits.map (Change.mk first)).map (Change.moveDown n) := by
      rw [List.map_map]
      rfl
    rw [numberEdits, numberEdits, List.map_append, ← ih (first + 1), hhead,
      show first + n + 1 = first + 1 + n by omega]

theorem flatMap_lines_ne_nil (ctx : Context) (part : Text) :
    (recaseLines ctx (part.split '\n')).flatMap RecasedLine.lines ≠ [] := by
  intro h
  have hle := length_le_flatMap_lines (recaseLines ctx (part.split '\n'))
  rw [h, length_recaseLines, List.length_nil] at hle
  have hpos : 0 < (part.split '\n').length := List.length_pos_iff.2 (List.splitOn_ne_nil '\n' part)
  omega

/-! ### A cut at a line feed -/

section Append

variable (ctx : Context) (a b : Text)

theorem output_recaseFrom_append :
    (recaseFrom ctx (a ++ '\n' :: b)).output =
      (recaseFrom ctx a).output ++
        '\n' :: (recaseFrom (contextAfter ctx (a.split '\n')) b).output := by
  simp only [recaseFrom, List.splitOn_append_cons_self]
  rw [recaseLines_append, List.flatMap_append]
  exact Text.join_append '\n' (flatMap_lines_ne_nil ctx a) (flatMap_lines_ne_nil _ b)

theorem changes_recaseFrom_append :
    (recaseFrom ctx (a ++ '\n' :: b)).changes =
      (recaseFrom ctx a).changes ++
        (recaseFrom (contextAfter ctx (a.split '\n')) b).changes.map
          (Change.moveDown (a.split '\n').length) := by
  simp only [recaseFrom, List.splitOn_append_cons_self]
  rw [recaseLines_append, numberEdits_append, length_recaseLines, numberEdits_add]

end Append

/-- **What follows a part does not change what becomes of it, and a part that ends at the top level does
not change what becomes of the rest.**  The log of the rest then differs in the numbers of its lines
only. -/
theorem recase_append (a b : Text) :
    (recase a).output ++ ['\n'] <+: (recase (a ++ '\n' :: b)).output ∧
    (recase a).changes <+: (recase (a ++ '\n' :: b)).changes ∧
    ((contextAfter .topLevel (a.split '\n')).block = .topLevel →
      (recase (a ++ '\n' :: b)).output = (recase a).output ++ '\n' :: (recase b).output ∧
      (recase (a ++ '\n' :: b)).changes =
        (recase a).changes ++ (recase b).changes.map (Change.moveDown (a.split '\n').length)) := by
  have houtput := output_recaseFrom_append .topLevel a b
  have hchanges := changes_recaseFrom_append .topLevel a b
  rw [recaseFrom_topLevel, recaseFrom_topLevel] at houtput hchanges
  refine ⟨?_, ?_, fun hblock => ?_⟩
  · rw [houtput]
    exact ⟨_, List.append_assoc ..⟩
  · rw [hchanges]
    exact List.prefix_append _ _
  · rw [eq_topLevel_of_block hblock, recaseFrom_topLevel] at houtput hchanges
    exact ⟨houtput, hchanges⟩

/-- A part with a brace too many, a model without a name and one that was renamed. -/
def closedPart : Text :=
  Text.join '\n' (["\x7d", "model \x7b", "  log_id Int", " \x7d", "model user_log \x7b", "\t\x7d // end",
    "  log_id Int", "\x7d\r"].map String.toList)

/-- A part whose last block is not closed. -/
def openPart : Text :=
  Text.join '\n' (["enum log_kind \x7b", "\x7d", "model log_entry \x7b", "  log_id Int"].map String.toList)

theorem recase_append_closedPart :
    (contextAfter .topLevel (closedPart.split '\n')).block = .topLevel ∧
      (recase closedPart).changes ≠ [] ∧ (recase openPart).changes ≠ [] ∧
      (recase (closedPart ++ '\n' :: openPart)).output =
        (recase closedPart).output ++ '\n' :: (recase openPart).output ∧
      (recase (closedPart ++ '\n' :: openPart)).changes =
        (recase closedPart).changes ++ (recase openPart).changes.map (Change.moveDown 8) := by
  have hblock : (contextAfter .topLevel (closedPart.split '\n')).block = .topLevel := by decide +kernel
  have hlength : (closedPart.split '\n').length = 8 := by decide +kernel
  obtain ⟨houtput, hchanges⟩ := (recase_append closedPart openPart).2.2 hblock
  rw [hlength] at hchanges
  exact ⟨hblock, by decide +kernel, by decide +kernel, houtput, hchanges⟩

end Recase
