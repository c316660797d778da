import CrossAsm.Code.Buffer
import CrossAsm.Symbol.Table

/-!
The relocations of the synthesis: displacements that are filled in once every address is known. A
displacement is the distance from the end of the instruction that holds it to a symbol, in four bytes.
-/
namespace CrossAsm

/-- What a relocation may point at. -/
inductive Reference where
  /-- A label. -/
  | code
  /-- A variable or a buffer. -/
  | data
  deriving DecidableEq, Repr

structure Relocation where
  name : String
  /-- Offset of the displacement. -/
  patch : Nat
  /-- Offset just past the instruction. -/
  stop : Nat
  pos : Position
  reference : Reference
  deriving DecidableEq, Repr

namespace Relocation

def target (r : Relocation) (symbols : SymbolTable) : Except Fault Nat :=
  match r.reference with
  | .code => symbols.resolveLabel r.name
  | .data => (symbols.resolveData r.name).map Symbol.address

def displacement (r : Relocation) (symbols : SymbolTable) : Except Fault Int32 := do
  let target ← r.target symbols
  let distance := signedDistance target r.stop
  if -0x80000000 ≤ distance ∧ distance ≤ 0x7FFFFFFF then return Int32.ofInt distance
  else throw (.branchOutOfRange r.name distance (-0x80000000) 0x7FFFFFFF)

def displacementBytes (d : Int32) : List UInt8 := LittleEndian.bytes 4 d.toUInt32.toNat

/-- What filling in relocations comes to. -/
inductive Outcome where
  | resolved (code : CodeBuffer)
  /-- A relocation cannot be resolved; those before it are filled in. -/
  | rejected (code : CodeBuffer) (fault : FaultAt)
  /-- A displacement does not lie inside the code. -/
  | outside
  deriving Repr

/-- Fills in relocations in order, up to the first that fails. -/
def resolveAll (symbols : SymbolTable) (code : CodeBuffer) : List Relocation → Outcome
  | [] => .resolved code
  | r :: rest =>
    match r.displacement symbols with
    | .error fault => .rejected code ⟨r.pos, fault⟩
    | .ok d =>
      match code.patch? r.patch (displacementBytes d) with
      | none => .outside
      | some code => resolveAll symbols code rest

end Relocation

end CrossAsm
