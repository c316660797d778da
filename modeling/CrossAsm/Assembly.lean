import CrossAsm.Generation
import CrossAsm.Program.Source

/-!
Assembly of a source text: analysis makes a program of it, and synthesis makes an image of the program.
All that is wrong with it comes as reports: one for each line that the parser cannot read, or one for the
instruction for which no code can be generated.
-/
namespace CrossAsm

/-- The report on an instruction for which no code can be generated. -/
def Report.ofFault (source : String) (places : LineMap) (arch : Arch) (f : FaultAt) : Report :=
  .single source .generation f.fault.message (places.range f.pos)
    ("while generating code for " ++ arch.name)

/-- Why there is no image of a source text. -/
inductive AssemblyFailure where
  | reported (reports : List Report)
  /-- A displacement lies outside the code. -/
  | misplacedRelocation
  deriving DecidableEq, Repr

def assemble (memory : Memory) (arch : Arch) (name source : String) : Except AssemblyFailure Image := do
  let program ← (Program.ofSource name source).mapError .reported
  (generate memory arch program).mapError fun
    | .rejected fault => .reported [.ofFault name (.ofChars source.toList) arch fault]
    | .misplacedRelocation => .misplacedRelocation

end CrossAsm
