import CrossAsm.Code.Layout
import CrossAsm.X64.Division

/-!
The size table of the x86-64 generator: how many bytes each operation takes. The sizes are stated on their
own; lowering has to keep to them.
-/
namespace CrossAsm.X64

/-- The size of an instruction with a register operand, or with a 32-bit immediate. -/
def operandSize : Operand → Nat
  | .reg _ => 3
  | .imm _ => 7

def sizeOf : Operation → Except Fault Nat
  | .label _ | .var _ _ | .buffer _ _ | .org _ => .ok 0
  | .mov _ src | .binary _ _ src | .cmp _ src => .ok (operandSize src)
  | .load _ p => (generalReg p).map fun base => 3 + base.baseOverhead
  | .store p src => (generalReg p).map fun base => operandSize src + base.baseOverhead
  | .product .mul _ (.reg _) => .ok 4
  | .product .mul _ (.imm _) => .ok 7
  | .product .div dest src => (Division.plan dest src false).map fun p => p.size src
  | .product .mod dest src => (Division.plan dest src true).map fun p => p.size src
  | .unary _ _ => .ok 3
  | .shift _ _ count => (shiftCount .x64 count).map fun _ => 4
  | .jmp _ | .call _ => .ok 5
  | .branch _ _ => .ok 6
  | .ret | .halt | .nop | .push _ | .pop _ => .ok 1
  | .int _ => .ok 2
  | .set _ (.reg _) => .ok 7
  | .set _ (.imm _) => .ok 11
  | .get _ _ => .ok 7
  | op@(.bit _ _) | op@(.bitBranch _ _ _) | op@(.djnz _ _) => .error (.unsupportedOperation op.name)

def sizer : Sizer := ⟨sizeOf, none⟩

end CrossAsm.X64
