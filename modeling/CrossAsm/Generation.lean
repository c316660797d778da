import CrossAsm.Image
import CrossAsm.Mcs51.Lowering
import CrossAsm.Mcs51.Ram
import CrossAsm.X64.Data
import CrossAsm.X64.Lowering

/-!
The synthesis as a whole, an image from a program: layout, then emission, and on x86-64 the relocations
last.
-/
namespace CrossAsm

/-- Why there is no image. -/
inductive GenerationFailure where
  | rejected (fault : FaultAt)
  /-- A displacement lies outside the code. -/
  | misplacedRelocation
  deriving DecidableEq, Repr

/-- The result of a pass that ended with `fault` or succeeded with `value`. -/
def passed {α : Type} (value : α) : Option FaultAt → Except GenerationFailure α
  | none => .ok value
  | some fault => .error (.rejected fault)

/-- A code buffer for an image; if there is no memory, no instruction is to blame. -/
def imageBuffer (memory : Memory) (capacity : Nat) : Except GenerationFailure CodeBuffer :=
  (CodeBuffer.withCapacity memory capacity).mapError fun fault => .rejected ⟨.nowhere, fault⟩

def Mcs51.generate (memory : Memory) (program : List Instruction) :
    Except GenerationFailure Image := do
  let (layout, fault) := Layout.run sizer Ram.allocator { storage := {} } program
  passed () fault
  let code ← imageBuffer memory layout.pc
  let (out, fault) := (emitter memory).run ⟨layout.symbols, code⟩ program
  passed () fault
  return ⟨.mcs51, out.code.bytes, out.code.size, out.symbols, layout.storage.image⟩

def X64.generate (memory : Memory) (program : List Instruction) :
    Except GenerationFailure Image := do
  let (layout, fault) := Layout.run sizer (Data.allocator memory) { storage := {} } program
  passed () fault
  let symbols := layout.symbols.rebaseData layout.pc
  let code ← imageBuffer memory (layout.pc + layout.storage.size)
  let (out, fault) := (emitter memory).run ⟨symbols, code, []⟩ program
  passed () fault
  match Relocation.resolveAll out.symbols out.code out.relocations with
  | .outside => throw .misplacedRelocation
  | .rejected _ fault => throw (.rejected fault)
  | .resolved code =>
    match CodeBuffer.extend memory layout.storage.bytes code with
    | .error fault _ => throw (.rejected ⟨.nowhere, fault⟩)
    | .ok _ code => return ⟨.x64, code.bytes, layout.pc, out.symbols, []⟩

def generate (memory : Memory) : Arch → List Instruction → Except GenerationFailure Image
  | .mcs51 => Mcs51.generate memory
  | .x64 => X64.generate memory

end CrossAsm
