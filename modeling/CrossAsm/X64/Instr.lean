import CrossAsm.Code.Buffer
import CrossAsm.X64.Register

/-!
Native instructions of x86-64 and their bytes. Displacements are left zero; `displacementOffset` says
where they stand, if an instruction has one.
-/
namespace CrossAsm.X64

inductive AluOp where
  | add | or | and | sub | xor | cmp
  deriving DecidableEq, Repr

namespace AluOp

/-- The opcode with two registers. -/
def opcode : AluOp → UInt8
  | add => 0x01
  | or => 0x09
  | and => 0x21
  | sub => 0x29
  | xor => 0x31
  | cmp => 0x39

/-- The opcode extension with an immediate. -/
def extension : AluOp → UInt8
  | add => 0
  | or => 1
  | and => 4
  | sub => 5
  | xor => 6
  | cmp => 7

def ofBinary : BinaryOp → AluOp
  | .add => add
  | .sub => sub
  | .and => and
  | .or => or
  | .xor => xor

end AluOp

/-- Operations on one register that share opcodes and differ in the extension. -/
inductive Group where
  | inc | dec | not | neg | idiv | shl | shr
  deriving DecidableEq, Repr

namespace Group

def opcode : Group → UInt8
  | inc | dec => 0xFF
  | not | neg | idiv => 0xF7
  | shl | shr => 0xC1

def extension : Group → UInt8
  | inc => 0
  | dec => 1
  | not => 2
  | neg => 3
  | shl => 4
  | shr => 5
  | idiv => 7

def ofUnary : UnaryOp → Group
  | .not => not
  | .neg => neg
  | .inc => inc
  | .dec => dec

def ofShift : Shift → Group
  | .left => shl
  | .right => shr

end Group

/-- The number of a signed condition in conditional jumps. -/
def conditionCode : Condition → UInt8
  | .equal => 0x4
  | .notEqual => 0x5
  | .less => 0xC
  | .greaterEqual => 0xD
  | .lessEqual => 0xE
  | .greater => 0xF

inductive Instr where
  | movReg (dest src : GeneralReg)
  | movImm (dest : GeneralReg) (imm : Int32)
  | load (dest base : GeneralReg)
  | store (base src : GeneralReg)
  | storeImm (base : GeneralReg) (imm : Int32)
  | alu (op : AluOp) (dest src : GeneralReg)
  | aluImm (op : AluOp) (dest : GeneralReg) (imm : Int32)
  | group (op : Group) (reg : GeneralReg)
  | shift (op : Group) (reg : GeneralReg) (count : Fin 64)
  | imul (dest src : GeneralReg)
  | imulImm (dest src : GeneralReg) (imm : Int32)
  | cqo
  | push (reg : GeneralReg)
  | pop (reg : GeneralReg)
  | jmp
  | jcc (condition : Condition)
  | call
  | ret
  | nop
  | int (vector : UInt8)
  | storeRip (src : GeneralReg)
  | storeRipImm (imm : Int32)
  | loadRip (dest : GeneralReg)
  | leaRip (dest : GeneralReg)
  deriving DecidableEq, Repr

namespace Instr

/-- The operand byte: a mode, a register or extension, and a register or memory operand. -/
def modrm (mode reg rm : UInt8) : UInt8 := mode * 64 + reg * 8 + rm

/-- Two register operands. -/
def direct (reg rm : UInt8) : UInt8 := modrm 3 reg rm

/-- A memory operand based on a register. -/
def memory (reg : UInt8) : GeneralReg → List UInt8
  | .rsp => [modrm 0 reg 4, 0x24]
  | .rbp => [modrm 1 reg 5, 0x00]
  | base => [modrm 0 reg base.code]

def zeroWord : List UInt8 := [0, 0, 0, 0]

/-- A memory operand at a displacement from the end of the instruction. -/
def ripRelative (reg : UInt8) : List UInt8 := modrm 0 reg 5 :: zeroWord

def immBytes (imm : Int32) : List UInt8 := LittleEndian.bytes 4 imm.toUInt32.toNat

def bytes : Instr → List UInt8
  | movReg dest src => [Rex.wide.byte, 0x89, direct src.code dest.code]
  | movImm dest imm => [Rex.wide.byte, 0xC7, direct 0 dest.code] ++ immBytes imm
  | load dest base => [Rex.wide.byte, 0x8B] ++ memory dest.code base
  | store base src => [Rex.wide.byte, 0x89] ++ memory src.code base
  | storeImm base imm => [Rex.wide.byte, 0xC7] ++ memory 0 base ++ immBytes imm
  | alu op dest src => [Rex.wide.byte, op.opcode, direct src.code dest.code]
  | aluImm op dest imm => [Rex.wide.byte, 0x81, direct op.extension dest.code] ++ immBytes imm
  | group op reg => [Rex.wide.byte, op.opcode, direct op.extension reg.code]
  | shift op reg count =>
    [Rex.wide.byte, op.opcode, direct op.extension reg.code, UInt8.ofNat count.val]
  | imul dest src => [Rex.wide.byte, 0x0F, 0xAF, direct dest.code src.code]
  | imulImm dest src imm => [Rex.wide.byte, 0x69, direct dest.code src.code] ++ immBytes imm
  | cqo => [Rex.wide.byte, 0x99]
  | push reg => [0x50 + reg.code]
  | pop reg => [0x58 + reg.code]
  | jmp => 0xE9 :: zeroWord
  | jcc condition => [0x0F, 0x80 + conditionCode condition] ++ zeroWord
  | call => 0xE8 :: zeroWord
  | ret => [0xC3]
  | nop => [0x90]
  | int vector => [0xCD, vector]
  | storeRip src => [Rex.wide.byte, 0x89] ++ ripRelative src.code
  | storeRipImm imm => [Rex.wide.byte, 0xC7] ++ ripRelative 0 ++ immBytes imm
  | loadRip dest => [Rex.wide.byte, 0x8B] ++ ripRelative dest.code
  | leaRip dest => [Rex.wide.byte, 0x8D] ++ ripRelative dest.code

@[simp] theorem length_immBytes (imm : Int32) : (immBytes imm).length = 4 :=
  LittleEndian.length_bytes ..

theorem length_memory (reg : UInt8) (base : GeneralReg) :
    (memory reg base).length = 1 + base.baseOverhead := by cases base <;> rfl

theorem length_bytes_le (i : Instr) : i.bytes.length ≤ 11 := by
  have overhead_le (r : GeneralReg) : r.baseOverhead ≤ 1 := by cases r <;> decide
  cases i with
  | load dest base | store base src | storeImm base imm =>
    have bound := overhead_le base
    simp [bytes, length_memory]
    omega
  | _ => simp [bytes, zeroWord, ripRelative]

def encode (i : Instr) : Encoding := ⟨i.bytes, Nat.le_trans i.length_bytes_le (by decide)⟩

/-- Where the four bytes of the displacement stand. -/
def displacementOffset : Instr → Option Nat
  | jmp | call => some 1
  | jcc _ => some 2
  | storeRip _ | storeRipImm _ | loadRip _ | leaRip _ => some 3
  | _ => none

end Instr

end CrossAsm.X64
