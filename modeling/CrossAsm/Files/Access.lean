/-!
Access to files: what a program needs of the place where its files are kept, and what can go wrong.
-/
namespace CrossAsm

inductive FileError where
  | notFound | notDirectory | isDirectory | alreadyExists
  /-- A name, or a whole path, has too many bytes. -/
  | nameTooLong
  /-- A path holds the character with number zero. -/
  | zeroInPath
  /-- The contents are no UTF-8 text. -/
  | notText
  /-- Any other, in its own words. -/
  | other (text : String)
  deriving DecidableEq, Repr

namespace FileError

def message : FileError → String
  | notFound => "No such file or directory (os error 2)"
  | notDirectory => "Not a directory (os error 20)"
  | isDirectory => "Is a directory (os error 21)"
  | alreadyExists => "File exists (os error 17)"
  | nameTooLong => "File name too long (os error 36)"
  | zeroInPath => "file name contained an unexpected NUL byte"
  | notText => "stream did not contain valid UTF-8"
  | other text => text

end FileError

/-- Files and directories, found by their paths. -/
class Files (m : Type → Type) where
  read : String → m (Except FileError (Array UInt8))
  write : String → Array UInt8 → m (Except FileError Unit)
  /-- Whether there is a file or a directory. -/
  present : String → m Bool
  createDirectory : String → m (Except FileError Unit)

/-- The text that bytes spell. -/
def decodeText (bytes : Array UInt8) : Except FileError String :=
  match String.fromUTF8? ⟨bytes⟩ with
  | some text => .ok text
  | none => .error .notText

end CrossAsm
