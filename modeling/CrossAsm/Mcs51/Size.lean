import CrossAsm.Code.Layout

/-!
The size table of the 8051 generator: how many bytes each operation takes. The sizes are stated on their
own; lowering has to keep to them.
-/
namespace CrossAsm.Mcs51

/-- The size of program memory. -/
def programMemory : Nat := 0x10000

def sizeOf : Operation → Except Fault Nat
  | .label _ | .var _ _ | .buffer _ _ | .org _ => .ok 0
  | .mov _ _ | .load _ _ | .store _ _ => .ok 2
  | .binary .sub _ _ => .ok 5
  | .binary _ _ _ => .ok 4
  | .product .mod _ (.reg _) => .ok 7
  | .product .mod _ (.imm _) => .ok 8
  | .product _ _ (.reg _) => .ok 5
  | .product _ _ (.imm _) => .ok 6
  | .unary .not _ => .ok 3
  | .unary .neg _ => .ok 4
  | .unary _ _ => .ok 1
  -- shifts are unrolled into one rotation per bit
  | .shift _ _ count => (shiftCount .mcs51 count).map (4 + ·)
  | .cmp _ _ => .ok 4
  | .jmp _ | .call _ => .ok 3
  | .branch .greater _ => .ok 6
  | .branch .lessEqual _ => .ok 4
  | .branch _ _ => .ok 2
  | .ret | .nop => .ok 1
  | .halt => .ok 2
  | .push _ | .pop _ => .ok 2
  | .int n => .error (.unsupportedOperation (Operation.int n).name)
  | .set _ (.reg _) => .ok 2
  | .set _ (.imm _) => .ok 3
  | .get _ _ => .ok 2
  | .bit _ _ => .ok 2
  | .bitBranch _ _ _ => .ok 3
  | .djnz _ _ => .ok 2

def sizer : Sizer := ⟨sizeOf, some programMemory⟩

end CrossAsm.Mcs51
