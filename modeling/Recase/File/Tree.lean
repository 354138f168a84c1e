import Recase.File.Path

/-!
# Directory trees

A directory tree is listed by its places.  A place is the list of names that leads to it from the
root, above which is nothing, so that going up from the root stays there.  One place is the working
directory: it and the places on the way to it are always directories, and a path that does not begin
at the root begins there.

* `FileTree.start`, `FileTree.walk` — where a path begins, and following its steps;
* `FileTree.readText`, `FileTree.writeText`, `FileTree.makeDirs` — the operations of the system, with
  the fault that each reports first.
-/

namespace Recase

/-- A place in a directory tree: the names from the root. -/
abbrev Place := List Text

/-- What stands at a place. -/
inductive Entry where
  | directory
  | file (content : ByteArray)

/-- A directory tree: the place of its working directory, and its other entries. -/
structure FileTree where
  workDir : Place
  entries : List (Place × Entry)

namespace FileTree

/-- The tree that holds a working directory and nothing else. -/
def empty (workDir : Place) : FileTree := ⟨workDir, []⟩

/-- The entry at a place. -/
def entryAt (t : FileTree) (p : Place) : Option Entry :=
  if p <+: t.workDir then some .directory else t.entries.lookup p

/-- The tree with the entry put at the place. -/
def put (t : FileTree) (p : Place) (e : Entry) : FileTree :=
  ⟨t.workDir, (p, e) :: t.entries.filter (·.1 != p)⟩

/-- Names of more bytes are refused. -/
def nameLimit : Nat := 255

/-- The place where following the path begins. -/
def start (t : FileTree) (p : Path) : Place := if p.isAbsolute then [] else t.workDir

/-- Follows the steps from the directory at a place.  Only the last step may lead to a file. -/
def walk (t : FileTree) : Place → List Step → Except FileFault Place
  | place, [] => .ok place
  | place, .here :: steps => t.walk place steps
  | place, .up :: steps => t.walk place.dropLast steps
  | place, .down name :: steps =>
    if nameLimit < name.byteSize then .error .nameTooLong
    else match t.entryAt (place ++ [name]) with
      | none => .error .noSuchEntry
      | some .directory => t.walk (place ++ [name]) steps
      | some (.file _) => if steps.isEmpty then .ok (place ++ [name]) else .error .notADirectory

/-! ### Reading -/

/-- The entry that the path leads to. -/
def find (t : FileTree) (p : Path) : Except FileFault Entry :=
  match p.fault? with
  | some fault => .error fault
  | none => do
    let place ← t.walk (t.start p) p.stepsToEntry
    match t.entryAt place with
    | some entry => .ok entry
    | none => .error .noSuchEntry

def pathExists (t : FileTree) (p : Path) : Bool := (t.find p).isOk

/-- The text of the file that the path leads to. -/
def readText (t : FileTree) (p : Path) : Except FileFault String := do
  match ← t.find p with
  | .directory => .error .isADirectory
  | .file content =>
    match String.fromUTF8? content with
    | some text => .ok text
    | none => .error .notUtf8

/-! ### Writing -/

/-- The tree after the bytes are written to the file at the path, which is made if it is missing.
The directory must be there. -/
def writeBytes (t : FileTree) (p : Path) (content : ByteArray) : Except FileFault FileTree :=
  match p.fault? with
  | some fault => .error fault
  | none =>
    match p.steps.getLast? with
    | some (.down name) => do
      let place ← t.walk (t.start p) (p.steps.dropLast ++ [.here])
      if p.endsInSlash then .error .isADirectory
      else if nameLimit < name.byteSize then .error .nameTooLong
      else match t.entryAt (place ++ [name]) with
        | some .directory => .error .isADirectory
        | _ => .ok (t.put (place ++ [name]) (.file content))
    | _ => do
      let _ ← t.walk (t.start p) p.steps
      .error .isADirectory

/-- Writes the text to the file at the path. -/
def writeText (t : FileTree) (p : Path) (text : String) : Except FileFault Unit × FileTree :=
  match t.writeBytes p text.toUTF8 with
  | .ok t' => (.ok (), t')
  | .error fault => (.error fault, t)

/-- Makes the missing directories along the steps.  A file in the way already exists, if the
directory of its name is to be made: it is the last step, or one after a directory that was made.
Otherwise it is no directory.  Directories made before a fault stay. -/
def makeDirsFrom (t : FileTree) (place : Place) (made : Bool) :
    List Step → Except FileFault Unit × FileTree
  | [] => (.ok (), t)
  | .here :: steps => t.makeDirsFrom place made steps
  | .up :: steps => t.makeDirsFrom place.dropLast made steps
  | .down name :: steps =>
    if nameLimit < name.byteSize then (.error .nameTooLong, t)
    else match t.entryAt (place ++ [name]) with
      | none => (t.put (place ++ [name]) .directory).makeDirsFrom (place ++ [name]) true steps
      | some .directory => t.makeDirsFrom (place ++ [name]) made steps
      | some (.file _) =>
        (.error (if made || steps.all (· = .here) then .alreadyExists else .notADirectory), t)

/-- Makes the directory at the path and those above it that are missing. -/
def makeDirs (t : FileTree) (p : Path) : Except FileFault Unit × FileTree :=
  match p.fault? with
  | some fault => (.error fault, t)
  | none => t.makeDirsFrom (t.start p) false p.steps

/-- Makes the directory that the path's file goes into. -/
def makeParent (t : FileTree) (p : Path) : Except FileFault Unit × FileTree :=
  match p.parent? with
  | some dir => t.makeDirs dir
  | none => (.ok (), t)

/-! ### Listing -/

/-- Whether nothing stands below the place. -/
def isBare (t : FileTree) (p : Place) : Bool := t.entries.all fun e => e.1.dropLast != p

/-- The path from the working directory to a place below it. -/
def pathBelow? (t : FileTree) (p : Place) : Option Text :=
  match t.workDir.isPrefixOf? p with
  | none | some [] => none
  | some below => some (Text.join '/' below)

/-- The files below the working directory with their contents, and with a slash at the end the
directories there that hold nothing. -/
def listing (t : FileTree) : List (Text × Option ByteArray) :=
  t.entries.filterMap fun (p, e) => do
    let path ← t.pathBelow? p
    match e with
    | .file content => some (path, some content)
    | .directory => if t.isBare p then some (path ++ ['/'], none) else none

/-! ### The entry after `put` -/

theorem lookup_filter_ne {p q : Place} (h : q ≠ p) (entries : List (Place × Entry)) :
    (entries.filter (·.1 != p)).lookup q = entries.lookup q := by
  induction entries with
  | nil => rfl
  | cons entry entries ih =>
    obtain ⟨r, e⟩ := entry
    by_cases hr : r = p
    · subst hr
      have hq : (q == r) = false := by simpa using h
      simpa [List.lookup_cons, hq] using ih
    · have hr' : (r != p) = true := by simpa using hr
      simp only [List.filter_cons, hr', if_true, List.lookup_cons, ih]

theorem entryAt_put_self (t : FileTree) {p : Place} (hp : ¬ p <+: t.workDir) (e : Entry) :
    (t.put p e).entryAt p = some e := by
  simp [entryAt, put, hp]

theorem entryAt_put_of_ne (t : FileTree) {p q : Place} (h : q ≠ p) (e : Entry) :
    (t.put p e).entryAt q = t.entryAt q := by
  have hq : (q == p) = false := by simpa using h
  simp [entryAt, put, List.lookup_cons, hq, lookup_filter_ne h]

end FileTree

end Recase
