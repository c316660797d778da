import CrossAsm.Text.Position

/-!
The intermediate representation between analysis and synthesis: the operations of a program, independent
of the machine they are assembled for. Registers are numbered 0 to 255 and literals are signed 64-bit
integers; which of them a machine accepts is decided when code is generated for it.
-/
namespace CrossAsm

structure Register where
  number : UInt8
  deriving DecidableEq, Repr

namespace Register

def text (r : Register) : String := s!"r{r.number.toNat}"

end Register

/-- A register or an immediate. -/
inductive Operand where
  | reg (r : Register)
  | imm (n : Int64)
  deriving DecidableEq, Repr

/-- Operations that combine a register with an operand and need no other register. -/
inductive BinaryOp where
  | add | sub | and | or | xor
  deriving DecidableEq, Repr

namespace BinaryOp

def name : BinaryOp → String
  | add => "add"
  | sub => "sub"
  | and => "and"
  | or => "or"
  | xor => "xor"

end BinaryOp

/-- Multiplication, division and remainder. -/
inductive ProductOp where
  | mul | div | mod
  deriving DecidableEq, Repr

namespace ProductOp

def name : ProductOp → String
  | mul => "mul"
  | div => "div"
  | mod => "mod"

end ProductOp

inductive UnaryOp where
  | not | neg | inc | dec
  deriving DecidableEq, Repr

namespace UnaryOp

def name : UnaryOp → String
  | not => "not"
  | neg => "neg"
  | inc => "inc"
  | dec => "dec"

end UnaryOp

/-- The direction of a logical shift. -/
inductive Shift where
  | left | right
  deriving DecidableEq, Repr

namespace Shift

def name : Shift → String
  | left => "shl"
  | right => "shr"

end Shift

/-- How the operands of the last comparison relate. -/
inductive Condition where
  | equal | notEqual | less | greater | lessEqual | greaterEqual
  deriving DecidableEq, Repr

namespace Condition

/-- The mnemonic of the jump taken under this condition. -/
def name : Condition → String
  | equal => "je"
  | notEqual => "jne"
  | less => "jl"
  | greater => "jg"
  | lessEqual => "jle"
  | greaterEqual => "jge"

end Condition

/-- What is done to one bit. -/
inductive BitOp where
  | set | clear | complement
  deriving DecidableEq, Repr

namespace BitOp

def name : BitOp → String
  | set => "setb"
  | clear => "clrb"
  | complement => "cplb"

end BitOp

inductive Operation where
  | label (name : String)
  | mov (dest : Register) (src : Operand)
  | load (dest pointer : Register)
  | store (pointer : Register) (src : Operand)
  | binary (op : BinaryOp) (dest : Register) (src : Operand)
  | product (op : ProductOp) (dest : Register) (src : Operand)
  | unary (op : UnaryOp) (dest : Register)
  | shift (dir : Shift) (dest : Register) (count : Operand)
  | cmp (left : Register) (right : Operand)
  | jmp (target : String)
  | call (target : String)
  | branch (condition : Condition) (target : String)
  | ret
  | halt
  | nop
  | push (src : Register)
  | pop (dest : Register)
  | int (vector : Int64)
  | var (name : String) (init : Option Int64)
  | buffer (name : String) (length : Int64)
  | set (name : String) (src : Operand)
  | get (dest : Register) (name : String)
  | org (address : Int64)
  | bit (op : BitOp) (address : Int64)
  /-- A jump taken if the bit at the address is set, or if it is clear. -/
  | bitBranch (ifSet : Bool) (address : Int64) (target : String)
  | djnz (counter : Register) (target : String)
  deriving DecidableEq, Repr

/-- An operation and where it stands in the source. -/
structure Instruction where
  op : Operation
  pos : Position
  deriving DecidableEq, Repr

end CrossAsm
