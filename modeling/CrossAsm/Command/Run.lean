import CrossAsm.Command.Dump
import CrossAsm.Command.Options
import CrossAsm.Files.Assembly

/-!
The command: it assembles one file and says so. Unless an output file is named, the image goes to a
directory of its own, which is made if need be before the source is read.
-/
namespace CrossAsm

/-- Why the command failed. -/
inductive CommandFailure where
  /-- The path names no file. -/
  | invalidFile
  | directory (error : FileError)
  | assembly (failure : FileFailure)
  deriving DecidableEq, Repr

namespace CommandFailure

def message : CommandFailure → String
  | invalidFile => "path is not an assemblable file"
  | directory _ => "io error"
  | assembly failure => failure.message

end CommandFailure

/-- How the command ends: its exit code, what it printed, and why it failed. -/
structure Outcome where
  exit : Nat
  output : String := ""
  failure : Option CommandFailure := none
  deriving DecidableEq, Repr

namespace Command

def version : String := "vasm 0.1.0\n"

def usage : String :=
  "Assembles textual IR into 8051 or x86-64 machine code\n\n" ++
  "Usage: vasm [OPTIONS] <FILE>\n\n" ++
  "Options:\n" ++
  "  -a, --arch <ARCH>      Target architecture: 8051 (mcs51) or x86_64 (x64)\n" ++
  "  -o, --output <OUTPUT>  Output file, defaults to `ctarget/<name>.<arch>.bin`\n" ++
  "      --hex              Print a hex dump of the generated code\n" ++
  "      --symbols          Print the symbol table\n" ++
  "  -v, --verbose...       More logging, repeat for trace output\n" ++
  "  -h, --help             Print help\n" ++
  "  -V, --version          Print version\n"

/-- The directory of images that have no other place. -/
def targetDirectory : String := "ctarget"

/-- Where the image of a file with this stem goes by default. -/
def defaultOutput (arch : Arch) (stem : String) : String :=
  targetDirectory ++ "/" ++ Path.withExtension stem (arch.name ++ ".bin")

def lines (ls : List String) : String := String.join (ls.map (· ++ "\n"))

/-- What is printed once a file has been assembled. -/
def announce (colours : Bool) (options : Options) (stem out : String) (image : Image) : String :=
  let summary :=
    Colour.brightGreen.paint colours (Dump.padLeft 12 "Assembled") ++
      s!" {stem} for {options.arch.name} ({image.code.size} bytes) -> {out}"
  lines ([summary] ++
    (if options.hex then Dump.bytes colours image else []) ++
    (if options.symbols then Dump.symbols colours image else []))

def failed (failure : CommandFailure) : Outcome := { exit := 1, failure := some failure }

variable {m : Type → Type} [Monad m] [Files m] (memory : Memory)

/-- Makes the target directory, if there is none. -/
def makeTarget : m (Except FileError Unit) := do
  if ← Files.present targetDirectory then return .ok () else Files.createDirectory targetDirectory

def assembleTo (colours : Bool) (options : Options) (stem out : String) : m Outcome := do
  match ← assembleFile memory options.arch .raw options.file out with
  | .error failure => return failed (.assembly failure)
  | .ok image => return { exit := 0, output := announce colours options stem out image }

def run (colours : Bool) (options : Options) : m Outcome := do
  match Path.fileStem? options.file with
  | none => return failed .invalidFile
  | some stem =>
    match options.output with
    | some out => assembleTo memory colours options stem out
    | none =>
      match ← makeTarget with
      | .error error => return failed (.directory error)
      | .ok _ => assembleTo memory colours options stem (defaultOutput options.arch stem)

/-- The command with the given arguments. Wrong usage ends it with exit code 2. -/
def execute (colours : Bool) (arguments : List String) : m Outcome :=
  match Options.ofArguments? arguments with
  | none => pure { exit := 2 }
  | some .version => pure { exit := 0, output := version }
  | some .help => pure { exit := 0, output := usage }
  | some (.assemble options) => run memory colours options

end Command

end CrossAsm
