/-!
# Faults of the file system

Why the file system refuses to read or to write.  The wording is that of the operating system, with
its number, where it has one.
-/

namespace Recase

/-- Why a file cannot be read or written. -/
inductive FileFault where
  | noSuchEntry
  | alreadyExists
  | notADirectory
  | isADirectory
  | nameTooLong
  /-- The path holds a NUL character, so it cannot be handed to the system. -/
  | nulInPath
  /-- The bytes of the file are no text. -/
  | notUtf8
  /-- Any other refusal, in the system's words. -/
  | other (text : String)
  deriving DecidableEq, Repr

/-- The wording of the fault. -/
def FileFault.message : FileFault → String
  | noSuchEntry => "No such file or directory (os error 2)"
  | alreadyExists => "File exists (os error 17)"
  | notADirectory => "Not a directory (os error 20)"
  | isADirectory => "Is a directory (os error 21)"
  | nameTooLong => "File name too long (os error 36)"
  | nulInPath => "file name contained an unexpected NUL byte"
  | notUtf8 => "stream did not contain valid UTF-8"
  | other text => text

end Recase
