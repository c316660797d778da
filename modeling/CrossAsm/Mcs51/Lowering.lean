import CrossAsm.Code.Emission
import CrossAsm.Mcs51.Instr
import CrossAsm.Mcs51.Size
import CrossAsm.Symbol.Table

/-!
The code generator of the 8051: each operation becomes a short sequence of native instructions that works
in the accumulator. Comparisons leave less-than in the carry and equality in a zero accumulator, where
the branches look for them. All addresses are known by now, so distances are computed at once.
-/
namespace CrossAsm.Mcs51

/-- A data byte; both signed and unsigned values are accepted. -/
def imm8 (n : Int64) : Except Fault UInt8 := (checkRange n.toInt (-128) 255).map UInt8.ofInt

def bitAddress (n : Int64) : Except Fault UInt8 := (checkRange n.toInt 0 255).map UInt8.ofInt

/-- The program address of a label. -/
def absolute (symbols : SymbolTable) (target : String) : Except Fault UInt16 := do
  let address ← symbols.resolveLabel target
  if address ≤ 0xFFFF then return UInt16.ofNat address
  else throw (.immediateOutOfRange (signedAddress address) 0 0xFFFF)

/-- The distance to a label from the end of a jump at offset `stop`. -/
def relative (symbols : SymbolTable) (target : String) (stop : Nat) : Except Fault Int8 := do
  let address ← symbols.resolveLabel target
  let distance := signedDistance address stop
  if -128 ≤ distance ∧ distance ≤ 127 then return Int8.ofInt distance
  else throw (.branchOutOfRange target distance (-128) 127)

abbrev Steps := List (Except Fault Instr)

/-- Combines the accumulator with an operand. -/
def alu (op : AluOp) : Operand → Except Fault Instr
  | .reg r => (workReg r).map (.aluReg op)
  | .imm n => (imm8 n).map (.aluImm op)

/-- Writes an operand to a byte of RAM. -/
def movDirect (direct : UInt8) : Operand → Except Fault Instr
  | .reg r => (workReg r).map (.movDirectReg direct)
  | .imm n => (imm8 n).map (.movDirectImm direct)

/-- Takes a register through the accumulator. -/
def throughA (dest : Register) (work : Steps) : Steps :=
  require (workReg dest) fun d => .ok (.movAReg d) :: (work ++ [.ok (.movRegA d)])

/-- The direct address of the register B. -/
def registerB : UInt8 := 0xF0

/-- The bits that a logical shift by `count` may leave set. -/
def shiftMask (dir : Shift) (count : Nat) : UInt8 :=
  match dir with
  | .left => 0xFF <<< UInt8.ofNat count
  | .right => 0xFF >>> UInt8.ofNat count

def rotate : Shift → Instr
  | .left => .rlA
  | .right => .rrA

/-- A branch on the flags of the comparison before it. -/
def branch (symbols : SymbolTable) (offset : Nat) (condition : Condition) (target : String) :
    Steps :=
  let short (jump : Int8 → Instr) := [(relative symbols target (offset + 2)).map jump]
  match condition with
  | .equal => short .jz
  | .notEqual => short .jnz
  | .less => short .jc
  | .greaterEqual => short .jnc
  | .greater =>
    require (relative symbols target (offset + 6)) fun distance =>
      [.ok (.jc 4), .ok (.jz 2), .ok (.sjmp distance)]
  | .lessEqual =>
    [(relative symbols target (offset + 2)).map .jc, (relative symbols target (offset + 4)).map .jz]

/-- The native instructions of an operation whose code starts at `offset`. -/
def lower (symbols : SymbolTable) (offset : Nat) : Operation → Steps
  | .label _ | .var _ _ | .buffer _ _ | .org _ => []
  | .mov dest (.reg src) =>
    require (workReg dest) fun d => [(workReg src).map .movAReg, .ok (.movRegA d)]
  | .mov dest (.imm n) => require (workReg dest) fun d => [(imm8 n).map (.movRegImm d)]
  | .load dest p =>
    require (workReg dest) fun d =>
      require (pointer p) fun p => [.ok (.movAIndirect p), .ok (.movRegA d)]
  | .store p (.reg src) =>
    require (pointer p) fun p => [(workReg src).map .movAReg, .ok (.movIndirectA p)]
  | .store p (.imm n) => require (pointer p) fun p => [(imm8 n).map (.movIndirectImm p)]
  | .binary .sub dest src => throughA dest [.ok .clrC, alu .subb src]
  | .binary op dest src => throughA dest [alu (.ofBinary op) src]
  | .product .mul dest src => throughA dest [movDirect registerB src, .ok .mulAB]
  | .product .div dest src => throughA dest [movDirect registerB src, .ok .divAB]
  | .product .mod dest src =>
    throughA dest [movDirect registerB src, .ok .divAB, .ok (.movADirect registerB)]
  | .unary .not dest => throughA dest [.ok .cplA]
  | .unary .neg dest => throughA dest [.ok .cplA, .ok .incA]
  | .unary .inc dest => [(workReg dest).map .incReg]
  | .unary .dec dest => [(workReg dest).map .decReg]
  | .shift dir dest count =>
    require (shiftCount .mcs51 count) fun n =>
      throughA dest
        (List.replicate n (.ok (rotate dir)) ++ [.ok (.aluImm .anl (shiftMask dir n))])
  | .cmp left right => [(workReg left).map .movAReg, .ok .clrC, alu .subb right]
  | .jmp target => [(absolute symbols target).map .ljmp]
  | .call target => [(absolute symbols target).map .lcall]
  | .branch condition target => branch symbols offset condition target
  | .ret => [.ok .ret]
  | .halt => [.ok (.sjmp (-2))]
  | .nop => [.ok .nop]
  | .push src => [(workReg src).map fun r => .push r.direct]
  | .pop dest => [(workReg dest).map fun r => .pop r.direct]
  | .int n => [.error (.unsupportedOperation (Operation.int n).name)]
  | .set name src =>
    require (symbols.resolveData name) fun symbol =>
      match symbol.kind with
      | .buffer => [.error (.addressingMode (.assignedBuffer name))]
      | _ => [movDirect (UInt8.ofNat symbol.address) src]
  | .get dest name =>
    require (workReg dest) fun d =>
      require (symbols.resolveData name) fun symbol =>
        match symbol.kind with
        | .buffer => [.ok (.movRegImm d (UInt8.ofNat symbol.address))]
        | _ => [.ok (.movRegDirect d (UInt8.ofNat symbol.address))]
  | .bit .set n => [(bitAddress n).map .setBit]
  | .bit .clear n => [(bitAddress n).map .clearBit]
  | .bit .complement n => [(bitAddress n).map .complementBit]
  | .bitBranch ifSet n target =>
    require (bitAddress n) fun bit =>
      [(relative symbols target (offset + 3)).map (if ifSet then .jb bit else .jnb bit)]
  | .djnz counter target =>
    require (workReg counter) fun r => [(relative symbols target (offset + 2)).map (.djnz r)]

/-- The code emitted so far, and the addresses it may refer to. -/
structure Output where
  symbols : SymbolTable := .empty
  code : CodeBuffer := .empty
  deriving Repr

namespace Output

def view : CodeView Output := ⟨code, fun out code => { out with code }⟩

def put (memory : Memory) (i : Instr) : EStateM Fault Output Unit :=
  view.lift (CodeBuffer.extend memory i.bytes)

def emit (memory : Memory) (op : Operation) : EStateM Fault Output Unit := fun out =>
  putAll (put memory) (lower out.symbols out.code.size op) out

/-- Emits so many instructions that do nothing. -/
def pad (memory : Memory) (count : Nat) : EStateM Fault Output Unit :=
  view.lift (CodeBuffer.fill memory 0x00 count)

end Output

def emitter (memory : Memory) : Emitter Output :=
  ⟨sizeOf, fun op _ => Output.emit memory op, Output.pad memory, fun out => out.code.size⟩

end CrossAsm.Mcs51
