import CrossAsm.Fault
import CrossAsm.Program.Operation

/-!
General registers of x86-64: the eight that need no extension bits, numbered as in machine code.
-/
namespace CrossAsm.X64

inductive GeneralReg where
  | rax | rcx | rdx | rbx | rsp | rbp | rsi | rdi
  deriving DecidableEq, Repr

namespace GeneralReg

def code : GeneralReg → UInt8
  | rax => 0
  | rcx => 1
  | rdx => 2
  | rbx => 3
  | rsp => 4
  | rbp => 5
  | rsi => 6
  | rdi => 7

def ofCode? : Nat → Option GeneralReg
  | 0 => some rax
  | 1 => some rcx
  | 2 => some rdx
  | 3 => some rbx
  | 4 => some rsp
  | 5 => some rbp
  | 6 => some rsi
  | 7 => some rdi
  | _ => none

@[simp] theorem ofCode?_code (r : GeneralReg) : ofCode? r.code.toNat = some r := by cases r <;> rfl

def name : GeneralReg → String
  | rax => "rax"
  | rcx => "rcx"
  | rdx => "rdx"
  | rbx => "rbx"
  | rsp => "rsp"
  | rbp => "rbp"
  | rsi => "rsi"
  | rdi => "rdi"

/-- The bytes by which a memory operand based on this register is longer than others: a base byte
for `rsp`, a displacement for `rbp`. -/
def baseOverhead : GeneralReg → Nat
  | rsp | rbp => 1
  | _ => 0

/-- Registers that may be borrowed, in order of preference. -/
def borrowed : List GeneralReg := [rcx, rbx, rsi, rdi]

/-- A register to borrow that is none of `avoid`. -/
def scratch (avoid : List GeneralReg) : GeneralReg :=
  (borrowed.find? fun r => !avoid.contains r).getD rdi

end GeneralReg

/-- The machine register of a program's register. Registers 8 to 15 exist but are not supported. -/
def generalReg (r : Register) : Except Fault GeneralReg :=
  let n := r.number.toNat
  match GeneralReg.ofCode? n with
  | some g => .ok g
  | none => if n ≤ 15 then .error (.unsupportedRegister n) else .error (.registerOutOfRange n 7)

/-- The extension bits of an instruction. -/
structure Rex where
  /-- 64-bit operands. -/
  w : Bool := false
  r : Bool := false
  x : Bool := false
  b : Bool := false
  deriving DecidableEq, Repr

namespace Rex

/-- The byte that stands before the opcode. -/
def byte (e : Rex) : UInt8 :=
  0x40 + (if e.w then 8 else 0) + (if e.r then 4 else 0) + (if e.x then 2 else 0) +
    (if e.b then 1 else 0)

/-- 64-bit operands and no other extension. -/
def wide : Rex := { w := true }

end Rex

end CrossAsm.X64
