import Recase.File.Fault
import Recase.Text.Basic

/-!
# Paths

A path is kept as it was written, because it is printed so.  To be followed it is cut at the slashes
into steps: a dot stays, two dots go up, any other segment goes down into the entry of that name, and
an empty segment is no step.  A slash at the beginning says that the steps begin at the root.
-/

namespace Recase

/-- A path, as it was written. -/
structure Path where
  text : Text
  deriving DecidableEq, Repr

/-- One step along a path. -/
inductive Step where
  | here
  | up
  | down (name : Text)
  deriving DecidableEq, Repr

/-- The step that a segment of a path stands for. -/
def Step.ofSegment? : Text → Option Step
  | [] => none
  | ['.'] => some .here
  | ['.', '.'] => some .up
  | name => some (.down name)

namespace Path

def ofString (s : String) : Path := ⟨s.toList⟩

protected def toString (p : Path) : String := String.ofList p.text

instance : ToString Path := ⟨Path.toString⟩

/-- The parts of the path between slashes. -/
def segments (p : Path) : List Text := p.text.split '/'

/-- The steps of the path. -/
def steps (p : Path) : List Step := p.segments.filterMap Step.ofSegment?

/-- A slash at the beginning stands for the root. -/
def isAbsolute (p : Path) : Bool := p.text.head? = some '/'

/-- A slash at the end asks for a directory. -/
def endsInSlash (p : Path) : Bool := p.text.getLast? = some '/'

/-- The steps to what the path names.  A slash at the end is one more step that stays, and only a
directory can be stayed in. -/
def stepsToEntry (p : Path) : List Step := if p.endsInSlash then p.steps ++ [.here] else p.steps

/-- The longest path that the system takes has one byte less. -/
def byteLimit : Nat := 4096

/-- Why the system refuses the path before following it. -/
def fault? (p : Path) : Option FileFault :=
  if '\x00' ∈ p.text then some .nulInPath
  else if p.text.isEmpty then some .noSuchEntry
  else if byteLimit ≤ p.text.byteSize then some .nameTooLong
  else none

/-- Whether a segment names nothing of its own. -/
def isIdle (segment : Text) : Bool := segment.isEmpty || segment = ['.']

/-- The path without its last segment, where idle segments do not count; none if nothing is left. -/
def parent? (p : Path) : Option Path :=
  match ((p.segments.reverse.dropWhile isIdle).drop 1).dropWhile isIdle with
  | [] => none
  | above => some ⟨Text.join '/' above.reverse⟩

end Path

end Recase
