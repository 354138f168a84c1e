import Recase.Command
import Recase.Proofs.Idempotence
import Recase.Proofs.Updates

/-!
# Runs on a directory tree

A run reads the schema, recases it and, in the mode for it, writes the result.  There are four courses that
it can take (`Course`), and everything else follows from them: which runs change the tree, what the exit
code says, and that a run after a run finds nothing to do.

* `course_recaseAt` — reading and recasing has four courses;
* `recaseAt_after_write` — what a run wrote is found, checked and left alone by the next;
* `Command.Fails` — the reasons for an exit code other than zero;
* `Command.run_modes` — what the flags of a command decide, and what they do not.
-/

namespace Recase

/-! ### Reading and saving -/

section

variable {t t' : FileTree} {path : Path} {file : SchemaFile}

/-- Reading leaves the tree as it is. -/
theorem exists_onTree_load (path : Path) (t : FileTree) :
    ∃ r, onTree (SchemaFile.load path) t = (r, t) := ⟨_, SchemaFile.run_load path t⟩

theorem onTree_load_eq_ok_iff : onTree (SchemaFile.load path) t = (.ok file, t) ↔
    file.path = path ∧ t.readText path = .ok file.content := by
  have hrun : onTree (SchemaFile.load path) t = _ := SchemaFile.run_load path t
  rw [hrun]
  constructor
  · intro h
    replace h := (Prod.mk.inj h).1
    split at h
    · cases hread : t.readText path with
      | ok content =>
        rw [hread] at h
        cases h
        exact ⟨rfl, rfl⟩
      | error fault =>
        rw [hread] at h
        cases h
    · cases h
  · rintro ⟨rfl, hread⟩
    rw [if_pos (FileTree.pathExists_of_readText hread), hread]
    rfl

/-- What was saved is read back. -/
theorem onTree_load_of_save {schema : Text} {outcome : WriteOutcome}
    (h : onTree (SchemaFile.save path schema) t = (.ok outcome, t')) :
    onTree (SchemaFile.load path) t' = (.ok ⟨path, String.ofList schema⟩, t') := by
  rcases hupdate : onTree (updateFile path (String.ofList schema)) t with ⟨r, t''⟩
  have hsave : onTree (SchemaFile.save path schema) t = _ := SchemaFile.run_save path schema hupdate
  rw [hsave] at h
  cases r with
  | error fault => cases h
  | ok outcome =>
    cases h
    exact onTree_load_eq_ok_iff.2 ⟨rfl, readText_of_updateFile hupdate⟩

/-- Saving what was read leaves the tree as it is. -/
theorem onTree_save_of_load (h : onTree (SchemaFile.load path) t = (.ok file, t)) :
    onTree (SchemaFile.save path file.content.toList) t = (.ok .unchanged, t) := by
  obtain ⟨-, hread⟩ := onTree_load_eq_ok_iff.1 h
  rw [← String.ofList_toList (s := file.content)] at hread
  exact SchemaFile.run_save path _ (run_updateFile_of_readText hread)

end

/-! ### The four courses of a run -/

/-- The course of a run that ends with the given result and tree. -/
inductive Course (schema target : Path) (mode : Mode) (verbose : Bool) (t : FileTree) :
    Except SchemaError Report × FileTree → Prop
  /-- The schema was not read. -/
  | unread {e : SchemaError} (hload : onTree (SchemaFile.load schema) t = (.error e, t)) :
      Course schema target mode verbose t (.error e, t)
  /-- Nothing was to be written. -/
  | shown {file : SchemaFile} (hload : onTree (SchemaFile.load schema) t = (.ok file, t))
      (hmode : mode ≠ .write) :
      Course schema target mode verbose t
        (.ok ⟨file.path, target, mode, verbose, file.recasing, none⟩, t)
  /-- The result is in the target. -/
  | saved {file : SchemaFile} {outcome : WriteOutcome} {t' : FileTree}
      (hload : onTree (SchemaFile.load schema) t = (.ok file, t)) (hmode : mode = .write)
      (hsave : onTree (SchemaFile.save target file.recasing.output) t = (.ok outcome, t')) :
      Course schema target mode verbose t
        (.ok ⟨file.path, target, mode, verbose, file.recasing, some outcome⟩, t')
  /-- The result was not written. -/
  | unsaved {file : SchemaFile} {e : SchemaError} {t' : FileTree}
      (hload : onTree (SchemaFile.load schema) t = (.ok file, t)) (hmode : mode = .write)
      (hsave : onTree (SchemaFile.save target file.recasing.output) t = (.error e, t')) :
      Course schema target mode verbose t (.error e, t')

section

variable {schema target : Path} {mode : Mode} {verbose : Bool} {t : FileTree}

theorem onTree_recaseAt_of_error {e : SchemaError}
    (h : onTree (SchemaFile.load schema) t = (.error e, t)) :
    onTree (recaseAt schema target mode verbose) t = (.error e, t) := by
  have hrun : (SchemaFile.load schema : StateM FileTree _).run t = pure (.error e, t) := h
  simp [onTree, recaseAt, hrun]

theorem onTree_recaseAt_of_ok {file : SchemaFile}
    (h : onTree (SchemaFile.load schema) t = (.ok file, t)) :
    onTree (recaseAt schema target mode verbose) t = onTree (file.recase target mode verbose) t := by
  have hrun : (SchemaFile.load schema : StateM FileTree _).run t = pure (.ok file, t) := h
  simp [onTree, recaseAt, hrun]

end

/-- **A run takes one of the four courses.** -/
theorem course_recaseAt (schema target : Path) (mode : Mode) (verbose : Bool) (t : FileTree) :
    Course schema target mode verbose t (onTree (recaseAt schema target mode verbose) t) := by
  obtain ⟨r, hload⟩ := exists_onTree_load schema t
  cases r with
  | error e =>
    rw [onTree_recaseAt_of_error hload]
    exact .unread hload
  | ok file =>
    rw [onTree_recaseAt_of_ok hload]
    by_cases hmode : mode = .write
    · subst hmode
      rcases hsave : onTree (SchemaFile.save target file.recasing.output) t with ⟨r, t'⟩
      have hrun : onTree (file.recase target .write verbose) t = _ :=
        SchemaFile.run_recase_write file target verbose hsave
      rw [hrun]
      cases r with
      | error e => exact .unsaved hload rfl hsave
      | ok outcome => exact .saved hload rfl hsave
    · have hrun : onTree (file.recase target mode verbose) t = _ :=
        SchemaFile.run_recase_of_ne_write file target verbose hmode t
      rw [hrun]
      exact .shown hload hmode

/-! ### A run after a run -/

/-- A schema that was recased is not changed again. -/
theorem changed_recase_output {schema : Text}
    (hclosed : ∀ raw ∈ schema.split '\n', ∀ t ∈ tokenize (splitReturn raw).1, t.isUnclosed = false) :
    (recase (recase schema).output).changed = false := by
  have hkeeps := (keepsLines_recaseLines .topLevel hclosed).1
  rw [← split_output] at hkeeps
  refine bne_eq_false_iff_eq.2 ?_
  exact (congrArg (Text.join '\n') hkeeps).trans (List.intercalate_splitOn '\n')

section

variable {path : Path} {file : SchemaFile} {t : FileTree}

/-- A check does nothing but compare. -/
theorem onTree_recaseAt_check (hload : onTree (SchemaFile.load path) t = (.ok file, t)) (target : Path)
    (verbose : Bool) : ∃ r, onTree (recaseAt path target .check verbose) t = (.ok r, t) ∧
      r.recasing = file.recasing := by
  have hmode : Mode.check ≠ .write := by decide
  rw [onTree_recaseAt_of_ok hload]
  exact ⟨_, SchemaFile.run_recase_of_ne_write file target verbose hmode t, rfl⟩

/-- A file whose schema stays as it is stays as it is. -/
theorem onTree_recaseAt_write_self (hload : onTree (SchemaFile.load path) t = (.ok file, t))
    (hsame : file.recasing.changed = false) (verbose : Bool) :
    ∃ r, onTree (recaseAt path path .write verbose) t = (.ok r, t) ∧ r.written = some .unchanged := by
  have hsave := onTree_save_of_load hload
  have houtput : file.recasing.output = file.content.toList := bne_eq_false_iff_eq.1 hsame
  rw [← houtput] at hsave
  rw [onTree_recaseAt_of_ok hload]
  exact ⟨_, SchemaFile.run_recase_write file path verbose hsave, rfl⟩

end

/-- **What a run wrote is found there, passes the check and is left alone.**  The two paths may be the same,
lead to the same file or to different ones; in the schema that was read, no line has a string literal without
its closing quote. -/
theorem recaseAt_after_write {schema target : Path} {verbose : Bool} {t t' : FileTree} {file : SchemaFile}
    {report : Report} (hload : onTree (SchemaFile.load schema) t = (.ok file, t))
    (hclosed : ∀ raw ∈ Text.split '\n' file.content.toList, ∀ tok ∈ tokenize (splitReturn raw).1,
      tok.isUnclosed = false)
    (hwrite : onTree (recaseAt schema target .write verbose) t = (.ok report, t')) :
    (∃ file', onTree (SchemaFile.load target) t' = (.ok file', t') ∧
      file'.content = String.ofList (recase file.content.toList).output) ∧
    (∀ other verbose', ∃ r, onTree (recaseAt target other .check verbose') t' = (.ok r, t') ∧
      r.recasing.changed = false) ∧
    ∀ verbose', ∃ r, onTree (recaseAt target target .write verbose') t' = (.ok r, t') ∧
      r.written = some .unchanged := by
  have hcourse := course_recaseAt schema target .write verbose t
  rw [hwrite] at hcourse
  cases hcourse with
  | shown _ hmode => exact absurd rfl hmode
  | @saved file' outcome _ hload' _ hsave =>
    obtain rfl : file = file' := by simpa using hload.symm.trans hload'
    have hread := onTree_load_of_save hsave
    have hsame : (SchemaFile.recasing ⟨target, String.ofList file.recasing.output⟩).changed = false := by
      rw [SchemaFile.recasing, String.toList_ofList]
      exact changed_recase_output hclosed
    refine ⟨⟨_, hread, rfl⟩, fun other verbose' => ?_, onTree_recaseAt_write_self hread hsame⟩
    obtain ⟨r, hr, hrecasing⟩ := onTree_recaseAt_check hread other verbose'
    exact ⟨r, hr, hrecasing ▸ hsame⟩

/-- A model that is renamed. -/
def logText : String := "model user_log \x7b\n  log_id Int // \"id\n\x7d"

def logPath : Path := .ofString "logs"

/-- Another path to the same file, of use only once there is a directory `old`. -/
def logDetour : Path := .ofString "old/../logs"

/-- A tree whose working directory holds the model in a file and nothing else. -/
def logTree : FileTree := ⟨["work".toList], [(["work".toList, "logs".toList], .file logText.toUTF8)]⟩

theorem onTree_load_logs :
    onTree (SchemaFile.load logPath) logTree = (.ok ⟨logPath, logText⟩, logTree) := by
  have hread : (logTree.readText logPath).toOption = some logText := by decide +kernel
  refine onTree_load_eq_ok_iff.2 ⟨rfl, ?_⟩
  cases h : logTree.readText logPath with
  | error fault =>
    rw [h] at hread
    cases hread
  | ok text =>
    rw [h] at hread
    exact congrArg _ (Option.some.inj hread)

/-- The file cannot be read by way of the missing directory, so it is written there. -/
theorem recaseAt_after_write_logs :
    (logTree.readText logDetour).toOption = none ∧
    (∀ raw ∈ Text.split '\n' logText.toList, ∀ tok ∈ tokenize (splitReturn raw).1,
      tok.isUnclosed = false) ∧
    ∃ report t', onTree (recaseAt logPath logDetour .write true) logTree = (.ok report, t') ∧
      report.written = some .written ∧
      (∃ file', onTree (SchemaFile.load logDetour) t' = (.ok file', t') ∧
        file'.content = String.ofList (recase logText.toList).output) ∧
      (∀ other verbose', ∃ r, onTree (recaseAt logDetour other .check verbose') t' = (.ok r, t') ∧
        r.recasing.changed = false) ∧
      ∀ verbose', ∃ r, onTree (recaseAt logDetour logDetour .write verbose') t' = (.ok r, t') ∧
        r.written = some .unchanged := by
  have hclosed : ∀ raw ∈ Text.split '\n' logText.toList, ∀ tok ∈ tokenize (splitReturn raw).1,
      tok.isUnclosed = false := by decide +kernel
  have hwritten : (onTree (recaseAt logPath logDetour .write true) logTree).1.toOption.bind
      Report.written = some .written := by decide +kernel
  refine ⟨by decide +kernel, hclosed, ?_⟩
  rcases hrun : onTree (recaseAt logPath logDetour .write true) logTree with ⟨_ | report, t'⟩
  · rw [hrun] at hwritten
    cases hwritten
  · rw [hrun] at hwritten
    have hafter := recaseAt_after_write onTree_load_logs hclosed hrun
    exact ⟨report, t', rfl, hwritten, hafter⟩

/-! ### Commands -/

namespace Command

variable (c : Command) (t : FileTree)

/-- **A command takes one of the four courses,** and says what came of it. -/
theorem exists_course_run : ∃ result, Course c.schema c.target c.mode c.verbose t result ∧
    onTree c.run t = (c.outcome result.1, result.2) := by
  exact ⟨_, course_recaseAt c.schema c.target c.mode c.verbose t, rfl⟩

theorem mode_eq_write_iff : c.mode = .write ↔ c.check = false ∧ c.stdout = false := by
  unfold mode
  cases c.check <;> cases c.stdout <;> simp

/-- A command fails if the schema cannot be read, if the result is to be written and cannot be, or if a check
finds that the schema would change. -/
def Fails : Prop :=
  (∃ e, (onTree (SchemaFile.load c.schema) t).1 = .error e) ∨
  (c.check = false ∧ c.stdout = false ∧ ∃ file e, (onTree (SchemaFile.load c.schema) t).1 = .ok file ∧
    (onTree (SchemaFile.save c.target (recase file.content.toList).output) t).1 = .error e) ∨
  (c.check = true ∧ ∃ file, (onTree (SchemaFile.load c.schema) t).1 = .ok file ∧
    (recase file.content.toList).output ≠ file.content.toList)

theorem fails_iff_of_load {file : SchemaFile} (hload : onTree (SchemaFile.load c.schema) t = (.ok file, t)) :
    c.Fails t ↔
      (c.mode = .write ∧ ∃ e, (onTree (SchemaFile.save c.target file.recasing.output) t).1 = .error e) ∨
      (c.check && file.recasing.changed) := by
  unfold Fails
  rw [hload, mode_eq_write_iff]
  simp [SchemaFile.recasing, Recasing.changed, recase, and_assoc]

/-- The tree after a command: that of the write, if there is one, and otherwise the tree before. -/
def treeAfter : FileTree :=
  match (onTree (SchemaFile.load c.schema) t).1 with
  | .error _ => t
  | .ok file =>
    if c.mode = .write then (onTree (SchemaFile.save c.target file.recasing.output) t).2 else t

theorem tree_run : (onTree c.run t).2 = c.treeAfter t := by
  obtain ⟨result, hcourse, hrun⟩ := c.exists_course_run t
  rw [hrun, treeAfter]
  cases hcourse with
  | unread hload => rw [hload]
  | shown hload hmode => simp [hload, hmode]
  | saved hload hmode hsave => simp [hload, hmode, hsave]
  | unsaved hload hmode hsave => simp [hload, hmode, hsave]

theorem exitCode_ofReport (r : Report) :
    (Outcome.ofReport c r).exitCode = if c.check && r.recasing.changed then 1 else 0 := by
  unfold Outcome.ofReport
  simp only
  repeat' split
  all_goals rfl

theorem exitCode_run :
    (onTree c.run t).1.exitCode = 1 ∧ c.Fails t ∨ (onTree c.run t).1.exitCode = 0 ∧ ¬ c.Fails t := by
  obtain ⟨result, hcourse, hrun⟩ := c.exists_course_run t
  rw [hrun]
  cases hcourse with
  | unread hload => exact Or.inl ⟨rfl, Or.inl ⟨_, congrArg Prod.fst hload⟩⟩
  | unsaved hload hmode hsave =>
    rw [c.fails_iff_of_load t hload]
    exact Or.inl ⟨rfl, Or.inl ⟨hmode, _, congrArg Prod.fst hsave⟩⟩
  | saved hload hmode hsave =>
    obtain ⟨hcheck, -⟩ := c.mode_eq_write_iff.1 hmode
    rw [c.fails_iff_of_load t hload, outcome, exitCode_ofReport, hsave, hcheck]
    simp
  | @shown file hload hmode =>
    rw [c.fails_iff_of_load t hload, outcome, exitCode_ofReport]
    cases hfails : c.check && file.recasing.changed <;> simp [hmode]

theorem print_run_of_stdout (hstdout : c.stdout) {file : SchemaFile}
    (hload : onTree (SchemaFile.load c.schema) t = (.ok file, t)) :
    (onTree c.run t).1.stdout = String.ofList (recase file.content.toList).output ∧
      (onTree c.run t).1.stderr = "" := by
  obtain ⟨result, hcourse, hrun⟩ := c.exists_course_run t
  have hnot : c.mode ≠ .write := by
    intro hmode
    rw [(c.mode_eq_write_iff.1 hmode).2] at hstdout
    cases hstdout
  rw [hrun]
  cases hcourse with
  | unread hload' => simp [hload] at hload'
  | saved _ hmode => exact absurd hmode hnot
  | unsaved _ hmode => exact absurd hmode hnot
  | shown hload' =>
    obtain rfl : file = _ := by simpa using hload.symm.trans hload'
    simp only [outcome, Outcome.ofReport, hstdout, if_true, SchemaFile.recasing, and_self]

theorem tree_run_eq_self (h : c.mode ≠ .write ∨ ∃ e, (onTree (SchemaFile.load c.schema) t).1 = .error e) :
    (onTree c.run t).2 = t := by
  rw [tree_run, treeAfter]
  rcases h with hmode | ⟨e, hload⟩
  · simp only [hmode, if_false]
    split <;> rfl
  · rw [hload]

/-- How much is reported has no bearing on the exit code and the tree. -/
theorem run_verbosity (verbose quiet : Bool) :
    (onTree (run { c with verbose, quiet }) t).1.exitCode = (onTree c.run t).1.exitCode ∧
      (onTree (run { c with verbose, quiet }) t).2 = (onTree c.run t).2 := by
  constructor
  · have hfails : Fails { c with verbose, quiet } t ↔ c.Fails t := Iff.rfl
    rcases exitCode_run { c with verbose, quiet } t with ⟨hcode', h'⟩ | ⟨hcode', h'⟩ <;>
      rcases c.exitCode_run t with ⟨hcode, h⟩ | ⟨hcode, h⟩
    · rw [hcode, hcode']
    · exact absurd (hfails.1 h') h
    · exact absurd (hfails.2 h) h'
    · rw [hcode, hcode']
  · rw [tree_run, tree_run]
    rfl

/-- **What the flags decide, and what they do not.**  Nothing is written in a check, when the result is printed
or if the schema cannot be read; the exit code is one exactly if the command fails, and otherwise zero; how
much is reported changes neither the exit code nor the tree, nor what is printed in place of a report.  This
holds of flags that exclude each other too. -/
theorem run_modes :
    (c.check = true ∨ c.stdout = true ∨ (∃ e, (onTree (SchemaFile.load c.schema) t).1 = .error e) →
      (onTree c.run t).2 = t) ∧
    ((onTree c.run t).1.exitCode = 1 ↔ c.Fails t) ∧
    ((onTree c.run t).1.exitCode = 0 ↔ ¬ c.Fails t) ∧
    (∀ verbose quiet, (onTree (run { c with verbose, quiet }) t).1.exitCode = (onTree c.run t).1.exitCode ∧
      (onTree (run { c with verbose, quiet }) t).2 = (onTree c.run t).2) ∧
    (c.stdout = true → ∀ file, (onTree (SchemaFile.load c.schema) t).1 = .ok file →
      (onTree c.run t).1.stdout = String.ofList (recase file.content.toList).output ∧
      (onTree c.run t).1.stderr = "") := by
  refine ⟨fun h => c.tree_run_eq_self t ?_, ?_, ?_, c.run_verbosity t, fun hstdout file hfile => ?_⟩
  · rw [Ne, mode_eq_write_iff]
    rcases h with h | h | h
    · exact Or.inl (by simp [h])
    · exact Or.inl (by simp [h])
    · exact Or.inr h
  · rcases c.exitCode_run t with ⟨hcode, h⟩ | ⟨hcode, h⟩ <;> simp [hcode, h]
  · rcases c.exitCode_run t with ⟨hcode, h⟩ | ⟨hcode, h⟩ <;> simp [hcode, h]
  · obtain ⟨r, hload⟩ := exists_onTree_load c.schema t
    rw [hload] at hfile
    subst hfile
    exact c.print_run_of_stdout t hstdout hload

/-- The result is printed with the exit code zero, and the check ends with one. -/
theorem run_modes_logs :
    ((onTree (run { schema := logPath, stdout := true, quiet := true }) logTree).2 = logTree ∧
      (onTree (run { schema := logPath, stdout := true, quiet := true }) logTree).1.exitCode = 0 ∧
      (onTree (run { schema := logPath, stdout := true, quiet := true }) logTree).1.stdout =
        String.ofList (recase logText.toList).output) ∧
    (onTree (run { schema := logPath, check := true }) logTree).2 = logTree ∧
      (onTree (run { schema := logPath, check := true }) logTree).1.exitCode = 1 := by
  have hload := congrArg Prod.fst onTree_load_logs
  have hchanged : (recase logText.toList).output ≠ logText.toList := by decide +kernel
  constructor
  · obtain ⟨htree, -, hzero, -, hprint⟩ :=
      run_modes { schema := logPath, stdout := true, quiet := true } logTree
    refine ⟨htree (Or.inr (Or.inl rfl)), hzero.2 ?_, (hprint rfl _ hload).1⟩
    rw [fails_iff_of_load _ _ onTree_load_logs]
    simp [mode]
  · obtain ⟨htree, hone, -⟩ := run_modes { schema := logPath, check := true } logTree
    exact ⟨htree (Or.inl rfl), hone.2 (Or.inr (Or.inr ⟨rfl, _, hload, hchanged⟩))⟩

end Command

end Recase
