import CrossAsm.Code.Buffer
import CrossAsm.Program.Operation

/-!
Registers and native instructions of the 8051, with their bytes. The working registers R0 to R7 of bank 0
occupy the first eight bytes of internal RAM, and two of them can point into RAM. Jump distances count
from the end of the instruction, and absolute addresses stand with their high byte first.
-/
namespace CrossAsm.Mcs51

abbrev WorkReg := Fin 8

/-- R0 or R1. -/
abbrev Pointer := Fin 2

/-- The address of a working register in internal RAM, which is also its number in opcodes. -/
def WorkReg.direct (r : WorkReg) : UInt8 := UInt8.ofNat r.val

def Pointer.code (p : Pointer) : UInt8 := UInt8.ofNat p.val

def workReg (r : Register) : Except Fault WorkReg :=
  if h : r.number.toNat < 8 then .ok ⟨r.number.toNat, h⟩
  else .error (.registerOutOfRange r.number.toNat 7)

def pointer (r : Register) : Except Fault Pointer := do
  let w ← workReg r
  if h : w.val < 2 then return ⟨w.val, h⟩ else throw (.addressingMode (.notPointer w.val))

inductive AluOp where
  | add | subb | anl | orl | xrl
  deriving DecidableEq, Repr

namespace AluOp

/-- The opcode with an immediate. -/
def immediate : AluOp → UInt8
  | add => 0x24
  | subb => 0x94
  | anl => 0x54
  | orl => 0x44
  | xrl => 0x64

/-- The opcode with a register. -/
def register : AluOp → UInt8
  | add => 0x28
  | subb => 0x98
  | anl => 0x58
  | orl => 0x48
  | xrl => 0x68

def ofBinary : BinaryOp → AluOp
  | .add => add
  | .sub => subb
  | .and => anl
  | .or => orl
  | .xor => xrl

end AluOp

inductive Instr where
  | movAReg (r : WorkReg)
  | movRegA (r : WorkReg)
  | movRegImm (r : WorkReg) (data : UInt8)
  | movAIndirect (p : Pointer)
  | movIndirectA (p : Pointer)
  | movIndirectImm (p : Pointer) (data : UInt8)
  | movDirectReg (direct : UInt8) (r : WorkReg)
  | movDirectImm (direct data : UInt8)
  | movRegDirect (r : WorkReg) (direct : UInt8)
  | movADirect (direct : UInt8)
  | aluImm (op : AluOp) (data : UInt8)
  | aluReg (op : AluOp) (r : WorkReg)
  | clrC | cplA | incA | rlA | rrA
  | incReg (r : WorkReg)
  | decReg (r : WorkReg)
  | mulAB | divAB
  | ljmp (address : UInt16)
  | lcall (address : UInt16)
  | sjmp (distance : Int8)
  | jc (distance : Int8)
  | jnc (distance : Int8)
  | jz (distance : Int8)
  | jnz (distance : Int8)
  | jb (bit : UInt8) (distance : Int8)
  | jnb (bit : UInt8) (distance : Int8)
  | djnz (r : WorkReg) (distance : Int8)
  | ret | nop
  | push (direct : UInt8)
  | pop (direct : UInt8)
  | setBit (bit : UInt8)
  | clearBit (bit : UInt8)
  | complementBit (bit : UInt8)
  deriving DecidableEq, Repr

namespace Instr

/-- The two bytes of an address, the high one first. -/
def addressBytes (address : UInt16) : List UInt8 :=
  [UInt8.ofNat (address.toNat / 256), UInt8.ofNat address.toNat]

def bytes : Instr → List UInt8
  | movAReg r => [0xE8 + r.direct]
  | movRegA r => [0xF8 + r.direct]
  | movRegImm r data => [0x78 + r.direct, data]
  | movAIndirect p => [0xE6 + p.code]
  | movIndirectA p => [0xF6 + p.code]
  | movIndirectImm p data => [0x76 + p.code, data]
  | movDirectReg direct r => [0x88 + r.direct, direct]
  | movDirectImm direct data => [0x75, direct, data]
  | movRegDirect r direct => [0xA8 + r.direct, direct]
  | movADirect direct => [0xE5, direct]
  | aluImm op data => [op.immediate, data]
  | aluReg op r => [op.register, r.direct]
  | clrC => [0xC3]
  | cplA => [0xF4]
  | incA => [0x04]
  | rlA => [0x23]
  | rrA => [0x03]
  | incReg r => [0x08 + r.direct]
  | decReg r => [0x18 + r.direct]
  | mulAB => [0xA4]
  | divAB => [0x84]
  | ljmp address => 0x02 :: addressBytes address
  | lcall address => 0x12 :: addressBytes address
  | sjmp distance => [0x80, distance.toUInt8]
  | jc distance => [0x40, distance.toUInt8]
  | jnc distance => [0x50, distance.toUInt8]
  | jz distance => [0x60, distance.toUInt8]
  | jnz distance => [0x70, distance.toUInt8]
  | jb bit distance => [0x20, bit, distance.toUInt8]
  | jnb bit distance => [0x30, bit, distance.toUInt8]
  | djnz r distance => [0xD8 + r.direct, distance.toUInt8]
  | ret => [0x22]
  | nop => [0x00]
  | push direct => [0xC0, direct]
  | pop direct => [0xD0, direct]
  | setBit bit => [0xD2, bit]
  | clearBit bit => [0xC2, bit]
  | complementBit bit => [0xB2, bit]

theorem length_bytes_le (i : Instr) : i.bytes.length ≤ 3 := by
  cases i <;> simp [bytes, addressBytes]

def encode (i : Instr) : Encoding := ⟨i.bytes, Nat.le_trans i.length_bytes_le (by decide)⟩

end Instr

end CrossAsm.Mcs51
