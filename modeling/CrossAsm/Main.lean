import CrossAsm.Command.Run

/-!
The command line program.
-/
namespace CrossAsm

def fileError : IO.Error → FileError
  | .noFileOrDirectory .. => .notFound
  | .inappropriateType _ 21 _ => .isDirectory
  | .inappropriateType .. => .notDirectory
  | .alreadyExists .. => .alreadyExists
  | e => .other (toString e)

/-- Runs an action and keeps its error. -/
def attempt {α : Type} (act : IO α) : IO (Except FileError α) := do
  try
    return .ok (← act)
  catch e => return .error (fileError e)

instance : Files IO where
  read path := attempt do return (← IO.FS.readBinFile path).data
  write path contents := attempt (IO.FS.writeBinFile path ⟨contents⟩)
  present path := do
    match ← attempt (IO.FS.Handle.mk path .read) with
    | .ok _ => return true
    | .error _ => return false
  createDirectory path := attempt (IO.FS.createDir path)

/-- Prints the data of a report. -/
def showReport (r : Report) : String :=
  let title := String.join ((r.code.map fun c => "[" ++ c.text ++ "] ").toList ++ r.message.toList)
  let labels := r.labels.map fun l => s!"  {l.span.start}..{l.span.stop}: {l.text}\n"
  r.source ++ ": " ++ title ++ "\n" ++ String.join labels

end CrossAsm

open CrossAsm in
def main (arguments : List String) : IO UInt32 := do
  let stdout ← IO.getStdout
  let stderr ← IO.getStderr
  let outcome ← Command.execute .ofProcess (← stdout.isTty) arguments
  stdout.putStr outcome.output
  if outcome.exit = 2 then stderr.putStr Command.usage
  match outcome.failure with
  | none => pure ()
  | some failure =>
    if let .assembly (.invalid _ reports) := failure then
      for report in reports do stderr.putStr (showReport report)
    stderr.putStrLn ("Error: " ++ failure.message)
  return UInt32.ofNat outcome.exit
