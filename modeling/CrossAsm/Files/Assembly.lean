import CrossAsm.Assembly
import CrossAsm.Files.Access
import CrossAsm.Files.Path

/-!
Assembly of a file into another.
-/
namespace CrossAsm

/-- What is written of an image. -/
inductive OutputFormat where
  /-- The code and data, to be loaded at address zero. -/
  | raw
  | nothing
  deriving DecidableEq, Repr

/-- Why a file was not assembled. -/
inductive FileFailure where
  | unreadable (path : String) (error : FileError)
  | unwritable (path : String) (error : FileError)
  | invalid (name : String) (reports : List Report)
  /-- A displacement lies outside the code. -/
  | misplacedRelocation
  deriving DecidableEq, Repr

namespace FileFailure

def message : FileFailure → String
  | unreadable path error => s!"couldn't read {path}: {error.message}"
  | unwritable path error => s!"couldn't write {path}: {error.message}"
  | invalid name reports => s!"{reports.length} error(s) in {name}"
  | misplacedRelocation => "a displacement lies outside the code"

end FileFailure

/-- The image of a source text that was read from `path`. -/
def assembleContents (memory : Memory) (arch : Arch) (path : String) (contents : Array UInt8) :
    Except FileFailure Image := do
  let source ← (decodeText contents).mapError (.unreadable path)
  let name := (Path.fileName? path).getD "unknown"
  (assemble memory arch name source).mapError fun
    | .reported reports => .invalid name reports
    | .misplacedRelocation => .misplacedRelocation

/-- Assembles the file `path` and writes the image to `out`. -/
def assembleFile {m : Type → Type} [Monad m] [Files m] (memory : Memory) (arch : Arch)
    (format : OutputFormat) (path out : String) : m (Except FileFailure Image) := do
  match ← Files.read path with
  | .error error => return .error (.unreadable path error)
  | .ok contents =>
    match assembleContents memory arch path contents, format with
    | .error failure, _ => return .error failure
    | .ok image, .nothing => return .ok image
    | .ok image, .raw =>
      match ← Files.write out image.code with
      | .error error => return .error (.unwritable out error)
      | .ok _ => return .ok image

end CrossAsm
