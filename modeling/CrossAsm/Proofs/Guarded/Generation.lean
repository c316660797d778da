import CrossAsm.Generation
import CrossAsm.Proofs.CodeBuffer
import CrossAsm.Proofs.Guarded.Basic

/-!
Generation with guards. Sizes, program counters, offsets and addresses are unsigned words, distances
signed ones, the counts of shifts words of three or six bits; a byte is shifted by less than its eight
bits. The initial contents of RAM and the encoding of `nop` are indexed, an encoding has room for fifteen
bytes, displacements are written into the code that is there. Operations are divided by their shape, and
what has no shape has to be one of those handled on their own. Which memory is granted is left open, but
it is never 2⁶³ bytes or more.
-/
namespace CrossAsm

open Guarded (unguarded below unsigned signed inside item unreachable atPos)

/-- Which buffers may grow: those of `size` bytes by `more`. -/
structure Heap where
  grants : Nat → Nat → Bool
  bounded : ∀ size more, grants size more → size + more < 0x8000000000000000

/-- The heap that grants all the memory there is. -/
def Memory.heap (memory : Memory) : Heap where
  grants size more := size + more < memory.limit
  bounded size more granted := by
    have low : size + more < memory.limit := of_decide_eq_true granted
    exact Nat.lt_of_lt_of_le low memory.bounded

namespace Operation

/-- The operations on a register and an operand, one by one. -/
def binary? : Operation → Option (BinaryOp × Register × Operand)
  | binary .add dest src => some (.add, dest, src)
  | binary .sub dest src => some (.sub, dest, src)
  | binary .and dest src => some (.and, dest, src)
  | binary .or dest src => some (.or, dest, src)
  | binary .xor dest src => some (.xor, dest, src)
  | _ => none

/-- The conditional jumps, one by one. -/
def branch? : Operation → Option (Condition × String)
  | branch .equal target => some (.equal, target)
  | branch .notEqual target => some (.notEqual, target)
  | branch .less target => some (.less, target)
  | branch .greater target => some (.greater, target)
  | branch .lessEqual target => some (.lessEqual, target)
  | branch .greaterEqual target => some (.greaterEqual, target)
  | _ => none

end Operation

namespace Guarded

variable {ε α σ : Type}

/-- Handles operations by their common shapes first. What is left then should have neither. -/
def byShape (handle : Operation → Guarded ε α) (op : Operation) : Guarded ε α :=
  match op.binary? with
  | some (op, dest, src) => handle (.binary op dest src)
  | none =>
    match op.branch? with
    | some (condition, target) => handle (.branch condition target)
    | none =>
      match op with
      | .binary _ _ _ | .branch _ _ => unreachable
      | op => handle op

/-- How many values the field of a shift count has. -/
def countValues : Arch → Nat
  | .mcs51 => 8
  | .x64 => 64

def shiftCount (arch : Arch) : Operand → Guarded Fault Nat
  | .imm n => do
    let count ← unguarded (checkRange n.toInt 0 arch.farthestShift)
    below (countValues arch) count
  | .reg _ => throw (.fault (.addressingMode (.shiftByRegister arch)))

structure Allocator (σ : Type) where
  var : Option Int64 → σ → Guarded Fault (Nat × σ)
  buffer : Int64 → σ → Guarded Fault (Nat × σ)

def define (name : String) (symbol : Symbol) (l : Layout σ) : Guarded Fault (Layout σ) :=
  (unguarded (finished (SymbolTable.define name symbol l.symbols))).map fun symbols =>
    { l with symbols }

def declare (name : String) (kind : SymbolKind) (reserve : σ → Guarded Fault (Nat × σ))
    (l : Layout σ) : Guarded Fault (Layout σ) := do
  unguarded (l.symbols.ensureUndefined name)
  let (address, storage) ← reserve l.storage
  define name ⟨kind, address⟩ { l with storage }

def place (sizeOf : Operation → Guarded Fault Nat) (allocator : Allocator σ) (op : Operation)
    (l : Layout σ) : Guarded Fault (Layout σ) := do
  match op with
  | .label name => define name ⟨.label, l.pc⟩ l
  | .var name init => declare name .var (allocator.var init) l
  | .buffer name length => declare name .buffer (allocator.buffer length) l
  | .org address =>
    if address.toInt < l.pc then throw (.fault (.addressBackwards address.toInt l.pc))
    else return { l with pc := ← unsigned address.toInt }
  | op => return { l with pc := ← unsigned (l.pc + (← sizeOf op)) }

def layOut (sizeOf : Operation → Guarded Fault Nat) (space : Option Nat) (allocator : Allocator σ)
    (i : Instruction) (l : Layout σ) : Guarded Fault (Layout σ) := do
  let next ← place sizeOf allocator i.op l
  match space with
  | none => return next
  | some available =>
    if available < next.pc then
      throw (.fault (.storageExhausted "program memory" next.pc available))
    else return next

structure Emitter (σ : Type) where
  sizeOf : Operation → Guarded Fault Nat
  emit : Operation → Position → σ → Guarded Fault σ
  pad : Nat → σ → Guarded Fault σ
  offset : σ → Nat

def emitOne (e : Emitter σ) (i : Instruction) (s : σ) : Guarded Fault σ :=
  match i.op with
  | .label _ | .var _ _ | .buffer _ _ => .ok s
  | .org address => e.pad (address.toUInt64.toNat - e.offset s) s
  | op => do
    let expected ← e.sizeOf op
    let after ← e.emit op i.pos s
    let actual ← unsigned (e.offset after - e.offset s)
    if actual = expected then return after
    else throw (.fault (.sizeMismatch op.name expected actual))

section Code

variable (heap : Heap)

def withCapacity (capacity : Nat) : Guarded Fault CodeBuffer :=
  if heap.grants 0 capacity then .ok .empty else .error (.fault .outOfMemory)

def extend (bytes : List UInt8) (code : CodeBuffer) : Guarded Fault CodeBuffer :=
  if heap.grants code.size bytes.length then .ok (code.append bytes)
  else .error (.fault .outOfMemory)

def fill (byte : UInt8) (count : Nat) (code : CodeBuffer) : Guarded Fault CodeBuffer :=
  if heap.grants code.size count then do
    let _ ← unsigned (code.size + count)
    return code.append (List.replicate count byte)
  else .error (.fault .outOfMemory)

/-- Adds the encoding of an instruction. -/
def putBytes (bytes : List UInt8) (code : CodeBuffer) : Guarded Fault CodeBuffer := do
  inside (bytes.length ≤ 15)
  extend heap bytes code

/-- Adds the encoding of an instruction so many times by its first byte. -/
def pad (nop : List UInt8) (count : Nat) (code : CodeBuffer) : Guarded Fault CodeBuffer := do
  let byte ← item nop 0
  fill heap byte count code

end Code

end Guarded

namespace Mcs51

def Ram.guardedReserve (count : Nat) (ram : Ram) : Guarded Fault (Nat × Ram) := do
  let available ← unsigned (size - ram.next)
  if available < count then throw (.fault (.storageExhausted "internal RAM" count available))
  else
    let next ← unsigned (ram.next + count)
    return (ram.next, { ram with next })

def Ram.guardedVar (init : Option Int64) (ram : Ram) : Guarded Fault (Nat × Ram) := do
  let value ← unguarded (checkRange ((init.map Int64.toInt).getD 0) (-128) 255)
  let (address, ram) ← ram.guardedReserve 1
  inside (address < ram.image.length)
  return (address, { ram with image := ram.image.set address (UInt8.ofInt value) })

def Ram.guardedBuffer (length : Int64) (ram : Ram) : Guarded Fault (Nat × Ram) := do
  let count ← unguarded (checkRange length.toInt 1 size)
  ram.guardedReserve count.toNat

/-- A byte has to be shifted by less than its eight bits. -/
def guardedShiftMask (dir : Shift) (count : Nat) : Guarded Fault UInt8 :=
  (below 8 count).map (shiftMask dir)

def guardedRelative (symbols : SymbolTable) (target : String) (offset past : Nat) :
    Guarded Fault Int8 := do
  let address ← unguarded (symbols.resolveLabel target)
  let stop ← unsigned (offset + past)
  let distance ← signed (signedAddress address - signedAddress stop)
  if -128 ≤ distance ∧ distance ≤ 127 then return Int8.ofInt distance
  else throw (.fault (.branchOutOfRange target distance (-128) 127))

def guardedBranch (symbols : SymbolTable) (offset : Nat) (condition : Condition) (target : String) :
    List (Guarded Fault Instr) :=
  let short (jump : Int8 → Instr) := [(guardedRelative symbols target offset 2).map jump]
  match condition with
  | .equal => short .jz
  | .notEqual => short .jnz
  | .less => short .jc
  | .greaterEqual => short .jnc
  | .greater =>
    Guarded.require (guardedRelative symbols target offset 6) fun distance =>
      [.ok (.jc 4), .ok (.jz 2), .ok (.sjmp distance)]
  | .lessEqual =>
    [(guardedRelative symbols target offset 2).map .jc,
      (guardedRelative symbols target (offset + 2) 2).map .jz]

/-- Relative jumps and shifts need guards. -/
def guardedLower (symbols : SymbolTable) (offset : Nat) : Operation → List (Guarded Fault Instr)
  | .branch condition target => guardedBranch symbols offset condition target
  | .bitBranch ifSet n target =>
    Guarded.require (unguarded (bitAddress n)) fun bit =>
      [(guardedRelative symbols target offset 3).map (if ifSet then .jb bit else .jnb bit)]
  | .djnz counter target =>
    Guarded.require (unguarded (workReg counter)) fun r =>
      [(guardedRelative symbols target offset 2).map (.djnz r)]
  | .shift dir dest count =>
    Guarded.require (Guarded.shiftCount .mcs51 count) fun n =>
      Guarded.require (guardedShiftMask dir n) fun mask =>
        (throughA dest (List.replicate n (.ok (rotate dir)) ++ [.ok (.aluImm .anl mask)])).map unguarded
  | op => (lower symbols offset op).map unguarded

def guardedSizeOf (op : Operation) : Guarded Fault Nat :=
  Guarded.byShape (fun
    | .shift _ _ count => do unsigned (4 + (← Guarded.shiftCount .mcs51 count))
    | op => unguarded (sizeOf op)) op

def guardedPut (heap : Heap) (i : Instr) (out : Output) : Guarded Fault Output :=
  (Guarded.putBytes heap i.bytes out.code).map fun code => ⟨out.symbols, code⟩

def guardedEmitter (heap : Heap) : Guarded.Emitter Output where
  sizeOf := guardedSizeOf
  emit op _ out :=
    Guarded.byShape (fun op =>
      Guarded.putAll (guardedPut heap) (guardedLower out.symbols out.code.size op) out) op
  pad count out := (Guarded.pad heap Instr.nop.bytes count out.code).map fun code => ⟨out.symbols, code⟩
  offset out := out.code.size

def guardedGenerate (heap : Heap) (program : List Instruction) : Guarded FaultAt Image := do
  let layout ← Guarded.each
    (Guarded.layOut guardedSizeOf (some programMemory) ⟨Ram.guardedVar, Ram.guardedBuffer⟩) program
    { storage := {} }
  let code ← atPos .nowhere (Guarded.withCapacity heap layout.pc)
  let out ← Guarded.each (Guarded.emitOne (guardedEmitter heap)) program ⟨layout.symbols, code⟩
  return ⟨.mcs51, out.code.bytes, out.code.size, out.symbols, layout.storage.image⟩

end Mcs51

namespace X64

section Data

variable (heap : Heap)

def Data.guardedAppend (bytes : List UInt8) (d : Data) : Guarded Fault (Nat × Data) :=
  if heap.grants d.size bytes.length then .ok (d.size, ⟨d.bytes ++ bytes⟩)
  else .error (.fault .outOfMemory)

def Data.guardedVar (init : Option Int64) (d : Data) : Guarded Fault (Nat × Data) :=
  d.guardedAppend heap (LittleEndian.bytes 8 (init.getD 0).toUInt64.toNat)

def Data.guardedBuffer (length : Int64) (d : Data) : Guarded Fault (Nat × Data) := do
  let count ← unguarded (checkRange length.toInt 1 longestBuffer)
  d.guardedAppend heap (List.replicate count.toNat 0)

end Data

def guardedMoved (base : Nat) (symbol : Symbol) : Guarded FaultAt Symbol := do
  if symbol.kind.isData then return { symbol with address := ← unsigned (symbol.address + base) }
  else return symbol

/-- Moves all data, and no code, up by `base`. -/
def guardedRebase (base : Nat) :
    List (String × Symbol) → Guarded FaultAt (List (String × Symbol))
  | [] => .ok []
  | (name, symbol) :: rest => do
    let moved ← guardedMoved base symbol
    let others ← guardedRebase base rest
    return (name, moved) :: others

/-- Sizes are sums; what they are made of is not greater than they are. -/
def guardedSizeOf (op : Operation) : Guarded Fault Nat :=
  Guarded.byShape (fun
    | .shift _ _ count => (Guarded.shiftCount .x64 count).map fun _ => 4
    | op => do unsigned (← unguarded (sizeOf op))) op

/-- Only shifts need guards. -/
def guardedLower (symbols : SymbolTable) : Operation → List (Guarded Fault Step)
  | .shift dir dest count =>
    [do
      let d ← unguarded (generalReg dest)
      return ⟨.shift (.ofShift dir) d (sixBits (← Guarded.shiftCount .x64 count)), none⟩]
  | op => (lower symbols op).map unguarded

def guardedPut (heap : Heap) (pos : Position) (s : Step) (out : Output) : Guarded Fault Output := do
  let code ← Guarded.putBytes heap s.instr.bytes out.code
  match s.refers, s.instr.displacementOffset with
  | some (name, reference), some field =>
    let patch ← unsigned (out.code.size + field)
    return ⟨out.symbols, code, out.relocations ++ [⟨name, patch, code.size, pos, reference⟩]⟩
  | _, _ => return ⟨out.symbols, code, out.relocations⟩

def guardedEmitter (heap : Heap) : Guarded.Emitter Output where
  sizeOf := guardedSizeOf
  emit op pos out :=
    Guarded.byShape (fun op =>
      Guarded.putAll (guardedPut heap pos) (guardedLower out.symbols op) out) op
  pad count out :=
    (Guarded.pad heap Instr.nop.bytes count out.code).map fun code => ⟨out.symbols, code, out.relocations⟩
  offset out := out.code.size

def guardedResolve (symbols : SymbolTable) (r : Relocation) (code : CodeBuffer) :
    Guarded Fault CodeBuffer := do
  let target ← unguarded (r.target symbols)
  let distance ← signed (signedAddress target - signedAddress r.stop)
  if -0x80000000 ≤ distance ∧ distance ≤ 0x7FFFFFFF then
    let stop ← unsigned (r.patch + 4)
    inside (stop ≤ code.size)
    return code.overwrite r.patch (Relocation.displacementBytes (Int32.ofInt distance))
  else throw (.fault (.branchOutOfRange r.name distance (-0x80000000) 0x7FFFFFFF))

def guardedResolveAll (symbols : SymbolTable) :
    List Relocation → CodeBuffer → Guarded FaultAt CodeBuffer
  | [], code => .ok code
  | r :: rest, code => do
    let next ← atPos r.pos (guardedResolve symbols r code)
    guardedResolveAll symbols rest next

def guardedGenerate (heap : Heap) (program : List Instruction) : Guarded FaultAt Image := do
  let layout ← Guarded.each
    (Guarded.layOut guardedSizeOf none ⟨Data.guardedVar heap, Data.guardedBuffer heap⟩) program
    { storage := {} }
  let entries ← guardedRebase layout.pc layout.symbols.entries
  let capacity ← unsigned (layout.pc + layout.storage.size)
  let code ← atPos .nowhere (Guarded.withCapacity heap capacity)
  let out ← Guarded.each (Guarded.emitOne (guardedEmitter heap)) program ⟨⟨entries⟩, code, []⟩
  let code ← guardedResolveAll out.symbols out.relocations out.code
  let code ← atPos .nowhere (Guarded.extend heap layout.storage.bytes code)
  return ⟨.x64, code.bytes, layout.pc, out.symbols, []⟩

end X64

/-- Generation with guards, on a heap. -/
def guardedGenerate (heap : Heap) : Arch → List Instruction → Guarded FaultAt Image
  | .mcs51 => Mcs51.guardedGenerate heap
  | .x64 => X64.guardedGenerate heap

end CrossAsm
