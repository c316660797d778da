import CrossAsm.X64.Register

/-!
Signed division on x86-64. The machine divides `rdx` and `rax` by a register, leaving the quotient in
`rax` and the remainder in `rdx`, so both are saved unless one of them is the destination. The
divisor is first moved to a borrowed register. All this uses the stack, so the stack pointer cannot
take part.
-/
namespace CrossAsm.X64

structure Division where
  dest : GeneralReg
  /-- The borrowed register that holds the divisor. -/
  divisor : GeneralReg
  remainder : Bool
  deriving DecidableEq, Repr

namespace Division

def plan (dest : Register) (src : Operand) (remainder : Bool) : Except Fault Division := do
  let d ← generalReg dest
  let s ← match src with
    | .reg r => (generalReg r).map some
    | .imm _ => .ok none
  if d = .rsp ∨ s = some .rsp then throw (.addressingMode .stackPointerDivision)
  else return ⟨d, .scratch [d], remainder⟩

/-- The registers saved around the division, in the order in which they are pushed. -/
def saved (p : Division) : List GeneralReg := [.rdx, .rax].filter (· != p.dest)

/-- The register in which the machine leaves what is asked for. -/
def result (p : Division) : GeneralReg := if p.remainder then .rdx else .rax

/-- The bytes that the division takes. -/
def size (p : Division) (src : Operand) : Nat :=
  let loadDivisor := match src with
    | .reg _ => 3
    | .imm _ => 7
  let loadDividend := if p.dest = .rax then 0 else 3
  let storeResult := if p.dest = p.result then 0 else 3
  1 + loadDivisor + p.saved.length + loadDividend + 2 + 3 + storeResult + p.saved.length + 1

end Division

end CrossAsm.X64
