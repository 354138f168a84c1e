import Recase.Proofs.Files

/-!
# What an update leaves alone

An update writes a file unless it holds the wanted text already.  It makes the directories that are missing on
the way and then puts one file; and whatever goes wrong goes wrong before the file is touched.

* `onTree` — a program on a directory tree;
* `FileTree.KeepsAt`, `FileTree.GainsDirs` — a tree that differs from another by new directories only;
* `FileTree.gainsDirs_makeDirsFrom` — making directories does no more than that, whether it succeeds or not;
* `Update`, `update_updateFile` — the three things that an update can come to;
* `updateFile_frame` — what they say about the tree before and after.
-/

namespace Recase

/-- The result of a program on a directory tree, and the tree that it leaves. -/
def onTree {α : Type} (program : StateM FileTree α) (t : FileTree) : α × FileTree := (program.run t).run

namespace FileTree

/-! ### New directories -/

/-- The place holds what it held, or a directory where there was nothing. -/
def KeepsAt (t t' : FileTree) (q : Place) : Prop :=
  t'.entryAt q = t.entryAt q ∨ t.entryAt q = none ∧ t'.entryAt q = some .directory

/-- The second tree is the first with more directories. -/
structure GainsDirs (t t' : FileTree) : Prop where
  workDir_eq : t'.workDir = t.workDir
  keepsAt : ∀ q, t.KeepsAt t' q

section GainsDirs

variable {t t' t'' : FileTree} {q : Place}

/-- Nothing that was there is lost or changed. -/
theorem KeepsAt.entryAt_eq_some (h : t.KeepsAt t' q) {e : Entry} (he : t.entryAt q = some e) :
    t'.entryAt q = some e := by
  rcases h with hsame | ⟨hnone, -⟩
  · exact hsame.trans he
  · rw [hnone] at he
    cases he

theorem KeepsAt.trans (h : t.KeepsAt t' q) (h' : t'.KeepsAt t'' q) : t.KeepsAt t'' q := by
  rcases h with hsame | ⟨hnone, hdir⟩
  · unfold KeepsAt
    rw [← hsame]
    exact h'
  · exact Or.inr ⟨hnone, h'.entryAt_eq_some hdir⟩

theorem GainsDirs.refl (t : FileTree) : t.GainsDirs t := ⟨rfl, fun _ => Or.inl rfl⟩

theorem GainsDirs.trans (h : t.GainsDirs t') (h' : t'.GainsDirs t'') : t.GainsDirs t'' :=
  ⟨h'.workDir_eq.trans h.workDir_eq, fun q => (h.keepsAt q).trans (h'.keepsAt q)⟩

theorem gainsDirs_put (hq : t.entryAt q = none) : t.GainsDirs (t.put q .directory) := by
  refine ⟨rfl, fun r => ?_⟩
  by_cases hr : r = q
  · subst hr
    have hprefix : ¬ r <+: t.workDir := by
      intro hprefix
      rw [entryAt, if_pos hprefix] at hq
      cases hq
    exact Or.inr ⟨hq, entryAt_put_self t hprefix .directory⟩
  · exact Or.inl (entryAt_put_of_ne t hr .directory)

/-- An entry put into the tree with more directories changes one place. -/
theorem GainsDirs.keepsAt_put (h : t.GainsDirs t') {p : Place} (hq : q ≠ p) (e : Entry) :
    t.KeepsAt (t'.put p e) q :=
  (h.keepsAt q).trans (Or.inl (entryAt_put_of_ne t' hq e))

end GainsDirs

/-- **Making directories adds directories and does nothing else,** also if it fails on the way. -/
theorem gainsDirs_makeDirsFrom (t : FileTree) (place : Place) (made : Bool) (steps : List Step) :
    t.GainsDirs (t.makeDirsFrom place made steps).2 := by
  induction steps generalizing t place made with
  | nil => exact .refl t
  | cons step steps ih =>
    cases step with
    | here => exact ih t place made
    | up => exact ih t place.dropLast made
    | down name =>
      rw [makeDirsFrom]
      split
      · exact .refl t
      split
      · next hnone => exact (gainsDirs_put hnone).trans (ih _ _ true)
      · exact ih t _ made
      · exact .refl t

theorem gainsDirs_makeParent (t : FileTree) (p : Path) : t.GainsDirs (t.makeParent p).2 := by
  unfold makeParent makeDirs
  split
  · split
    · exact .refl t
    · exact gainsDirs_makeDirsFrom t _ _ _
  · exact .refl t

end FileTree

/-! ### Updates -/

/-- What an update comes to: its result and the tree after it. -/
inductive Update (path : Path) (text : String) (t : FileTree) :
    Except FileFault WriteOutcome × FileTree → Prop
  /-- The file holds the text already. -/
  | unchanged (hread : t.readText path = .ok text) : Update path text t (.ok .unchanged, t)
  /-- Directories were made, and the file was put into one that is there. -/
  | written {t' : FileTree} {dir : Place} {name : Text} (hread : t.readText path ≠ .ok text)
      (hdirs : t.GainsDirs t') (htarget : t'.IsTarget path dir name) :
      Update path text t (.ok .written, t'.put (dir ++ [name]) (.file text.toUTF8))
  /-- Directories were made, but not the file. -/
  | failed {t' : FileTree} {fault : FileFault} (hread : t.readText path ≠ .ok text)
      (hdirs : t.GainsDirs t') : Update path text t (.error fault, t')

/-- **An update comes to one of the three.** -/
theorem update_updateFile (path : Path) (text : String) (t : FileTree) :
    Update path text t (onTree (updateFile path text) t) := by
  have hrun : onTree (updateFile path text) t = _ := run_updateFile path text t
  have hiff : (t.readText path).toOption = some text ↔ t.readText path = .ok text := by
    cases t.readText path <;> simp [Except.toOption]
  rw [hrun]
  simp only [hiff]
  by_cases hread : t.readText path = .ok text
  · rw [if_pos hread]
    exact .unchanged hread
  rw [if_neg hread]
  have hdirs := t.gainsDirs_makeParent path
  rcases hparent : t.makeParent path with ⟨_ | _, t'⟩ <;> rw [hparent] at hdirs
  · exact .failed hread hdirs
  · rcases t'.writeText_cases path text with ⟨dir, name, htarget, hwrite⟩ | ⟨fault, hwrite⟩
    · simp only [hwrite]
      exact .written hread hdirs htarget
    · simp only [hwrite]
      exact .failed hread hdirs

section

variable {path : Path} {text : String} {t t' : FileTree} {outcome : WriteOutcome}

theorem run_updateFile_of_readText (h : t.readText path = .ok text) :
    (updateFile path text : StateM FileTree _).run t = pure (.ok .unchanged, t) := by
  rw [run_updateFile, if_pos (by rw [h]; rfl)]

/-- After an update the file holds the wanted text, whether it was written or held it before. -/
theorem readText_of_updateFile
    (h : (updateFile path text : StateM FileTree _).run t = pure (.ok outcome, t')) :
    t'.readText path = .ok text := by
  have hupdate := update_updateFile path text t
  rw [show onTree (updateFile path text) t = (.ok outcome, t') from h] at hupdate
  cases hupdate with
  | unchanged hread => exact hread
  | written _ _ htarget => exact htarget.readText_put text

end

/-- **What an update does to a tree.**  It leaves the tree alone exactly if the file can be read and holds the
text.  If it writes, the file holds the text afterwards; if it fails, no file is touched.  Every other place
holds what it held, or a directory where there was nothing.  A second update finds nothing to do. -/
theorem updateFile_frame (path : Path) (text : String) (t : FileTree) :
    let result := onTree (updateFile path text) t
    result.2.workDir = t.workDir ∧
    (result.1 = .ok .unchanged ↔ t.readText path = .ok text) ∧
    (result.1 = .ok .unchanged → result.2 = t) ∧
    (result.1 = .ok .written → result.2.readText path = .ok text ∧
      ∃ place, result.2.walk (result.2.start path) path.stepsToEntry = .ok place ∧
        result.2.entryAt place = some (.file text.toUTF8) ∧ t.entryAt place ≠ some .directory ∧
        ∀ q, q ≠ place → t.KeepsAt result.2 q) ∧
    (∀ fault, result.1 = .error fault → ∀ q, t.KeepsAt result.2 q) ∧
    ∀ outcome, result.1 = .ok outcome →
      onTree (updateFile path text) result.2 = (.ok .unchanged, result.2) := by
  intro result
  have hagain : ∀ t', t'.readText path = .ok text →
      onTree (updateFile path text) t' = (.ok .unchanged, t') := fun _ h => run_updateFile_of_readText h
  have hupdate : Update path text t result := update_updateFile path text t
  clear_value result
  cases hupdate with
  | unchanged hread =>
    exact ⟨rfl, iff_of_true rfl hread, fun _ => rfl, by simp, by simp, fun _ _ => hagain _ hread⟩
  | @written t' dir name hread hdirs htarget =>
    have hnew := htarget.readText_put text
    have hnot : t.entryAt (dir ++ [name]) ≠ some .directory := fun hdir =>
      htarget.entryAt_ne ((hdirs.keepsAt _).entryAt_eq_some hdir)
    refine ⟨hdirs.workDir_eq, iff_of_false (by simp) hread, by simp, fun _ => ⟨hnew, ?_⟩, by simp,
      fun _ _ => hagain _ hnew⟩
    exact ⟨dir ++ [name], htarget.walk_put _, htarget.entryAt_put _, hnot, fun q hq =>
      hdirs.keepsAt_put hq _⟩
  | failed hread hdirs =>
    exact ⟨hdirs.workDir_eq, iff_of_false (by simp) hread, by simp, by simp,
      fun _ _ => hdirs.keepsAt, by simp⟩

/-- A tree whose working directory holds one file. -/
def notesTree : FileTree := ⟨["home".toList], [(["home".toList, "notes".toList], .file "old".toUTF8)]⟩

/-- A path to the file, of use only once there is a directory `new`. -/
def notesDetour : Path := .ofString "new/../notes"

/-- A path through the file. -/
def notesBelow : Path := .ofString "new/../notes/today"

/-- The file is written by way of a new directory; below the file nothing can be written, but the directory
on the way is made and stays. -/
theorem updateFile_frame_notes :
    ((onTree (updateFile notesDetour "text") notesTree).1 = .ok .written ∧
      (onTree (updateFile notesDetour "text") notesTree).2.readText notesDetour = .ok "text") ∧
    (onTree (updateFile notesBelow "text") notesTree).1 = .error .alreadyExists ∧
      (onTree (updateFile notesBelow "text") notesTree).2.pathExists (.ofString "new") ∧
      ∀ q, notesTree.KeepsAt (onTree (updateFile notesBelow "text") notesTree).2 q := by
  have hwritten : (onTree (updateFile notesDetour "text") notesTree).1 = .ok .written := by decide +kernel
  have hfailed : (onTree (updateFile notesBelow "text") notesTree).1 = .error .alreadyExists := by
    decide +kernel
  obtain ⟨-, -, -, hwrite, -⟩ := updateFile_frame notesDetour "text" notesTree
  obtain ⟨-, -, -, -, hfail, -⟩ := updateFile_frame notesBelow "text" notesTree
  exact ⟨⟨hwritten, (hwrite hwritten).1⟩, hfailed, by decide +kernel, hfail _ hfailed⟩

end Recase
