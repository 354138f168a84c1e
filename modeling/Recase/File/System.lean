import Recase.File.Tree

/-!
# File systems

The library asks four things of a file system.  They are the operations of a class over the monad in
which the work is done, so that one and the same program runs on the machine and on a `FileTree`, the
state about which its effects can be stated.

`updateFile` leaves a file alone that holds the wanted text already.
-/

namespace Recase

/-- What is asked of a file system. -/
class FileSystem (m : Type → Type) where
  /-- Whether the path leads to something. -/
  pathExists : Path → m Bool
  /-- The text of a file. -/
  readText : Path → m (Except FileFault String)
  /-- Makes a directory and those above it that are missing. -/
  makeDirs : Path → m (Except FileFault Unit)
  /-- Writes the text of a file in a directory that is there. -/
  writeText : Path → String → m (Except FileFault Unit)

/-- A directory tree as a file system. -/
instance : FileSystem (StateM FileTree) where
  pathExists p := fun t => (t.pathExists p, t)
  readText p := fun t => (t.readText p, t)
  makeDirs p := fun t => t.makeDirs p
  writeText p text := fun t => t.writeText p text

/-- What became of a file that was to be written. -/
inductive WriteOutcome where
  | written
  | unchanged
  deriving DecidableEq, Repr

section

variable {m : Type → Type} [Monad m] [FileSystem m]

/-- Makes the directory that the path's file goes into. -/
def makeParent (path : Path) : m (Except FileFault Unit) :=
  match path.parent? with
  | some dir => FileSystem.makeDirs dir
  | none => return .ok ()

/-- Writes the text to the file unless the file holds it already. -/
def updateFile (path : Path) (text : String) : m (Except FileFault WriteOutcome) := do
  let old ← FileSystem.readText path
  if old.toOption = some text then return .ok .unchanged
  else match ← makeParent path with
    | .error fault => return .error fault
    | .ok () => return (← FileSystem.writeText path text).map fun () => .written

end

/-! ### On a directory tree -/

section

variable (path : Path) (text : String) (t : FileTree)

@[simp] theorem run_pathExists :
    (FileSystem.pathExists path : StateM FileTree _).run t = pure (t.pathExists path, t) := rfl

@[simp] theorem run_readText :
    (FileSystem.readText path : StateM FileTree _).run t = pure (t.readText path, t) := rfl

@[simp] theorem run_makeDirs :
    (FileSystem.makeDirs path : StateM FileTree _).run t = pure (t.makeDirs path) := rfl

@[simp] theorem run_writeText :
    (FileSystem.writeText path text : StateM FileTree _).run t = pure (t.writeText path text) := rfl

@[simp] theorem run_makeParent :
    (makeParent path : StateM FileTree _).run t = pure (t.makeParent path) := by
  unfold makeParent FileTree.makeParent
  cases path.parent? <;> rfl

theorem run_updateFile :
    (updateFile path text : StateM FileTree _).run t =
      pure (if (t.readText path).toOption = some text then (.ok .unchanged, t)
        else match t.makeParent path with
          | (.error fault, t') => (.error fault, t')
          | (.ok (), t') =>
            ((t'.writeText path text).1.map fun () => .written, (t'.writeText path text).2)) := by
  by_cases h : (t.readText path).toOption = some text
  · simp [updateFile, h]
  · rcases hm : t.makeParent path with ⟨_ | _, t'⟩ <;> simp [updateFile, h, hm]

end

end Recase
