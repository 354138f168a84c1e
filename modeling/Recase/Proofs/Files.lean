import Mathlib.Data.List.Basic
import Recase.File.System

/-!
# Writing and reading back

A text that was written to a path is read back from it.  The path is followed twice, before and after the
write, and the tree is not the same the second time; but the write puts a file where no directory was, and
only directories are passed on the way.

* `FileTree.IsTarget` — where writing to a path puts the file, and when it can;
* `FileTree.writeText_cases` — a write puts a file or leaves the tree as it is;
* `FileTree.walk_put` — an entry put where no directory is does not disturb a walk through directories;
* `FileTree.IsTarget.readText_put` — what was written is read back.
-/

namespace Recase

namespace FileTree

variable {t t' : FileTree} {p : Path}

/-! ### Where a file is put -/

/-- Writing to the path puts a file of the given name into the directory at the given place. -/
structure IsTarget (t : FileTree) (p : Path) (dir : Place) (name : Text) : Prop where
  fault?_eq : p.fault? = none
  endsInSlash_eq : p.endsInSlash = false
  exists_steps : ∃ dirs, p.steps = dirs ++ [.down name] ∧ t.walk (t.start p) (dirs ++ [.here]) = .ok dir
  byteSize_le : name.byteSize ≤ nameLimit
  entryAt_ne : t.entryAt (dir ++ [name]) ≠ some .directory

theorem exists_isTarget_of_writeBytes {content : ByteArray} (h : t.writeBytes p content = .ok t') :
    ∃ dir name, t.IsTarget p dir name ∧ t' = t.put (dir ++ [name]) (.file content) := by
  unfold writeBytes at h
  split at h
  · cases h
  next hfault =>
  split at h
  · next name hlast =>
    cases hwalk : t.walk (t.start p) (p.steps.dropLast ++ [.here]) with
    | error fault => simp [hwalk, bind, Except.bind] at h
    | ok dir =>
      simp only [hwalk, bind, Except.bind] at h
      split at h
      · cases h
      next hslash =>
      split at h
      · cases h
      next hsize =>
      split at h
      · cases h
      next hentry =>
      cases h
      have hsteps := (List.dropLast_append_getLast? _ hlast).symm
      exact ⟨dir, name, ⟨hfault, eq_false_of_ne_true hslash, ⟨p.steps.dropLast, hsteps, hwalk⟩,
        Nat.le_of_not_lt hsize, hentry⟩, rfl⟩
  · cases hwalk : t.walk (t.start p) p.steps <;> simp [hwalk, bind, Except.bind] at h

/-- A write puts a file into a directory that is there, or leaves the tree as it is. -/
theorem writeText_cases (t : FileTree) (p : Path) (text : String) :
    (∃ dir name, t.IsTarget p dir name ∧
      t.writeText p text = (.ok (), t.put (dir ++ [name]) (.file text.toUTF8))) ∨
    ∃ fault, t.writeText p text = (.error fault, t) := by
  unfold writeText
  cases hbytes : t.writeBytes p text.toUTF8 with
  | error fault => exact Or.inr ⟨fault, rfl⟩
  | ok t' =>
    obtain ⟨dir, name, htarget, rfl⟩ := exists_isTarget_of_writeBytes hbytes
    exact Or.inl ⟨dir, name, htarget, rfl⟩

/-! ### Following a path after a write -/

/-- The steps lead to a directory, and an entry is put where no directory is: the same steps lead there
still. -/
theorem walk_put {q : Place} (hq : t.entryAt q ≠ some .directory) (e : Entry) {place dir : Place}
    {steps : List Step} (h : t.walk place (steps ++ [.here]) = .ok dir) (more : List Step) :
    (t.put q e).walk place (steps ++ more) = (t.put q e).walk dir more := by
  induction steps generalizing place with
  | nil =>
    cases h
    rfl
  | cons step steps ih =>
    cases step with
    | here => exact ih h
    | up => exact ih h
    | down name =>
      simp only [List.cons_append, walk] at h ⊢
      split at h
      · cases h
      next hsize =>
      rw [if_neg hsize]
      split at h
      · cases h
      · next hentry =>
        -- a directory, so it is not the place of the new entry
        have hne : place ++ [name] ≠ q := by
          rintro rfl
          exact hq hentry
        rw [entryAt_put_of_ne t hne, hentry]
        exact ih h
      · simp at h

section IsTarget

variable {dir : Place} {name : Text}

theorem IsTarget.entryAt_put (h : t.IsTarget p dir name) (content : ByteArray) :
    (t.put (dir ++ [name]) (.file content)).entryAt (dir ++ [name]) = some (.file content) := by
  refine entryAt_put_self t (fun hprefix => ?_) (.file content)
  exact h.entryAt_ne (if_pos hprefix)

/-- After the write the path leads to the new file. -/
theorem IsTarget.walk_put (h : t.IsTarget p dir name) (content : ByteArray) :
    (t.put (dir ++ [name]) (.file content)).walk (t.start p) p.stepsToEntry = .ok (dir ++ [name]) := by
  obtain ⟨dirs, hsteps, hwalk⟩ := h.exists_steps
  rw [Path.stepsToEntry, h.endsInSlash_eq, hsteps]
  simp only [Bool.false_eq_true, if_false]
  rw [FileTree.walk_put h.entryAt_ne _ hwalk, walk, if_neg (Nat.not_lt.2 h.byteSize_le),
    h.entryAt_put content]
  rfl

theorem fromUTF8?_toUTF8 (text : String) : String.fromUTF8? text.toUTF8 = some text :=
  dif_pos text.isValidUTF8

/-- **What was written to a path is read back from it.** -/
theorem IsTarget.readText_put (h : t.IsTarget p dir name) (text : String) :
    (t.put (dir ++ [name]) (.file text.toUTF8)).readText p = .ok text := by
  have hstart : (t.put (dir ++ [name]) (.file text.toUTF8)).start p = t.start p := rfl
  have hfind : (t.put (dir ++ [name]) (.file text.toUTF8)).find p = .ok (.file text.toUTF8) := by
    simp only [find, h.fault?_eq, hstart, h.walk_put, bind, Except.bind, h.entryAt_put]
  simp only [readText, hfind, bind, Except.bind, fromUTF8?_toUTF8]

end IsTarget

theorem pathExists_of_readText {text : String} (h : t.readText p = .ok text) : t.pathExists p := by
  unfold pathExists
  cases hfind : t.find p with
  | ok entry => rfl
  | error fault => simp [readText, hfind, bind, Except.bind] at h

end FileTree

end Recase
