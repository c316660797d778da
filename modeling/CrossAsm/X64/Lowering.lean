import CrossAsm.Code.Emission
import CrossAsm.Code.Relocation
import CrossAsm.X64.Instr
import CrossAsm.X64.Size

/-!
The code generator of x86-64: most operations become one native instruction. Instructions that refer to a
symbol are emitted with a displacement of zero, and a relocation is kept for each.
-/
namespace CrossAsm.X64

/-- Immediates are sign-extended 32-bit values. -/
def imm32 (n : Int64) : Except Fault Int32 :=
  (checkRange n.toInt (-0x80000000) 0x7FFFFFFF).map Int32.ofInt

/-- The field that holds the count of a shift. -/
def sixBits (count : Nat) : Fin 64 := Fin.ofNat 64 count

/-- A native instruction, and the symbol its displacement refers to. -/
structure Step where
  instr : Instr
  refers : Option (String × Reference) := none
  deriving DecidableEq, Repr

abbrev Steps := List (Except Fault Step)

def plain (i : Except Fault Instr) : Except Fault Step := i.map fun i => ⟨i, none⟩

def refer (name : String) (reference : Reference) (i : Instr) : Except Fault Step :=
  .ok ⟨i, some (name, reference)⟩

/-- An instruction on a register and an operand. -/
def withOperand (dest : Register) (src : Operand) (reg : GeneralReg → GeneralReg → Instr)
    (imm : GeneralReg → Int32 → Instr) : Steps :=
  require (generalReg dest) fun d =>
    match src with
    | .reg r => [plain ((generalReg r).map (reg d))]
    | .imm n => [plain ((imm32 n).map (imm d))]

/-- The native instructions of a division. -/
def Division.steps (p : Division) (src : Operand) : Steps :=
  let put (i : Instr) : Except Fault Step := .ok ⟨i, none⟩
  let loadDivisor := match src with
    | .reg r => plain ((generalReg r).map (.movReg p.divisor))
    | .imm n => plain ((imm32 n).map (.movImm p.divisor))
  [put (.push p.divisor), loadDivisor] ++
    p.saved.map (fun r => put (.push r)) ++
    (if p.dest = .rax then [] else [put (.movReg .rax p.dest)]) ++
    [put .cqo, put (.group .idiv p.divisor)] ++
    (if p.dest = p.result then [] else [put (.movReg p.dest p.result)]) ++
    p.saved.reverse.map (fun r => put (.pop r)) ++
    [put (.pop p.divisor)]

/-- The native instructions of an operation. -/
def lower (symbols : SymbolTable) : Operation → Steps
  | .label _ | .var _ _ | .buffer _ _ | .org _ => []
  | .mov dest src => withOperand dest src .movReg .movImm
  | .load dest p =>
    [plain do return .load (← generalReg dest) (← generalReg p)]
  | .store p src => withOperand p src .store .storeImm
  | .binary op dest src => withOperand dest src (.alu (.ofBinary op)) (.aluImm (.ofBinary op))
  | .product .mul dest src => withOperand dest src .imul fun d imm => .imulImm d d imm
  | .product .div dest src => require (Division.plan dest src false) fun p => p.steps src
  | .product .mod dest src => require (Division.plan dest src true) fun p => p.steps src
  | .unary op dest => [plain ((generalReg dest).map (.group (.ofUnary op)))]
  | .shift dir dest count =>
    [plain do return .shift (.ofShift dir) (← generalReg dest) (sixBits (← shiftCount .x64 count))]
  | .cmp left right => withOperand left right (.alu .cmp) (.aluImm .cmp)
  | .jmp target => [refer target .code .jmp]
  | .call target => [refer target .code .call]
  | .branch condition target => [refer target .code (.jcc condition)]
  | .ret | .halt => [plain (.ok .ret)]
  | .nop => [plain (.ok .nop)]
  | .push src => [plain ((generalReg src).map .push)]
  | .pop dest => [plain ((generalReg dest).map .pop)]
  | .int n => [plain ((checkRange n.toInt 0 255).map fun v => .int (UInt8.ofInt v))]
  | .set name src =>
    if (symbols.get? name).any (·.kind = .buffer) then
      [.error (.addressingMode (.assignedBuffer name))]
    else match src with
    | .reg r => require (generalReg r) fun s => [refer name .data (.storeRip s)]
    | .imm n => require (imm32 n) fun imm => [refer name .data (.storeRipImm imm)]
  | .get dest name =>
    require (generalReg dest) fun d =>
      if (symbols.get? name).any (·.kind = .buffer) then [refer name .data (.leaRip d)]
      else [refer name .data (.loadRip d)]
  | op@(.bit _ _) | op@(.bitBranch _ _ _) | op@(.djnz _ _) =>
    [.error (.unsupportedOperation op.name)]

/-- The code emitted so far, the symbols it may refer to, and the references in it. -/
structure Output where
  symbols : SymbolTable := .empty
  code : CodeBuffer := .empty
  relocations : List Relocation := []
  deriving Repr

namespace Output

/-- The relocation of an instruction that starts at `start`. -/
def relocation? (pos : Position) (start : Nat) (s : Step) : Option Relocation := do
  let (name, reference) ← s.refers
  let displacement ← s.instr.displacementOffset
  return ⟨name, start + displacement, start + s.instr.bytes.length, pos, reference⟩

def view : CodeView Output := ⟨code, fun out code => { out with code }⟩

def put (memory : Memory) (pos : Position) (s : Step) : EStateM Fault Output Unit :=
    fun ⟨symbols, code, relocations⟩ =>
  let start := code.size
  match CodeBuffer.extend memory s.instr.bytes code with
  | .ok _ code => .ok () ⟨symbols, code, relocations ++ (relocation? pos start s).toList⟩
  | .error fault code => .error fault ⟨symbols, code, relocations⟩

def emit (memory : Memory) (op : Operation) (pos : Position) : EStateM Fault Output Unit := fun out =>
  putAll (put memory pos) (lower out.symbols op) out

/-- Emits so many instructions that do nothing. -/
def pad (memory : Memory) (count : Nat) : EStateM Fault Output Unit :=
  view.lift (CodeBuffer.fill memory 0x90 count)

end Output

def emitter (memory : Memory) : Emitter Output :=
  ⟨sizeOf, Output.emit memory, Output.pad memory, fun out => out.code.size⟩

end CrossAsm.X64
