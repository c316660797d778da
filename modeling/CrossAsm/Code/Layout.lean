import CrossAsm.Program.Mnemonic
import CrossAsm.Symbol.Table

/-!
Layout, the first pass of a code generator over a program: labels get the offset at which their code will
start, and variables and buffers get storage. The sizes of operations and the storage are those of a
machine, given by a `Sizer` and an `Allocator`.
-/
namespace CrossAsm

/-- How many bits a machine shifts by at most. -/
@[simp] def Arch.farthestShift : Arch → Int
  | .mcs51 => 7
  | .x64 => 63

/-- The count of a shift has to be an immediate. -/
def shiftCount (arch : Arch) : Operand → Except Fault Nat
  | .imm n => (checkRange n.toInt 0 arch.farthestShift).map Int.toNat
  | .reg _ => .error (.addressingMode (.shiftByRegister arch))

/-- How many bytes operations take. -/
structure Sizer where
  sizeOf : Operation → Except Fault Nat
  /-- The size of program memory, if it is bounded. -/
  addressSpace : Option Nat := none

/-- How storage of type `σ` is handed out; each call gives an address. What a call that fails leaves is
part of its result. -/
structure Allocator (σ : Type) where
  var : Option Int64 → EStateM Fault σ Nat
  buffer : Int64 → EStateM Fault σ Nat

/-- What is known after the first instructions of a program have been laid out. -/
structure Layout (σ : Type) where
  /-- The offset of the next instruction. -/
  pc : Nat := 0
  symbols : SymbolTable := .empty
  storage : σ
  deriving Repr

namespace Layout

variable {σ : Type}

def define (name : String) (symbol : Symbol) : EStateM Fault (Layout σ) Unit := fun l =>
  match SymbolTable.define name symbol l.symbols with
  | .ok _ symbols => .ok () { l with symbols }
  | .error fault symbols => .error fault { l with symbols }

/-- Gives storage to a name that is not yet in use. -/
def declare (name : String) (kind : SymbolKind) (reserve : EStateM Fault σ Nat) :
    EStateM Fault (Layout σ) Unit := fun l =>
  match l.symbols.ensureUndefined name with
  | .error fault => .error fault l
  | .ok _ =>
    match reserve l.storage with
    | .error fault storage => .error fault { l with storage }
    | .ok address storage => define name ⟨kind, address⟩ { l with storage }

/-- Lays out one operation, whether it fits in program memory or not. -/
def place (sizer : Sizer) (allocator : Allocator σ) (op : Operation) :
    EStateM Fault (Layout σ) Unit := fun l =>
  match op with
  | .label name => define name ⟨.label, l.pc⟩ l
  | .var name init => declare name .var (allocator.var init) l
  | .buffer name length => declare name .buffer (allocator.buffer length) l
  | .org address =>
    if address.toInt < l.pc then .error (.addressBackwards address.toInt l.pc) l
    else .ok () { l with pc := address.toInt.toNat }
  | op =>
    match sizer.sizeOf op with
    | .error fault => .error fault l
    | .ok size => .ok () { l with pc := l.pc + size }

/-- Lays out one operation, which has to stay within program memory. -/
def step (sizer : Sizer) (allocator : Allocator σ) (op : Operation) :
    EStateM Fault (Layout σ) Unit := fun l =>
  match place sizer allocator op l with
  | .error fault left => .error fault left
  | .ok _ next =>
    match sizer.addressSpace with
    | none => .ok () next
    | some available =>
      if available < next.pc then
        .error (.storageExhausted "program memory" next.pc available) next
      else .ok () next

/-- Lays out a program, or its instructions up to the first that fails. -/
def run (sizer : Sizer) (allocator : Allocator σ) (l : Layout σ) :
    List Instruction → Layout σ × Option FaultAt
  | [] => (l, none)
  | i :: rest =>
    match step sizer allocator i.op l with
    | .ok _ next => run sizer allocator next rest
    | .error fault left => (left, some ⟨i.pos, fault⟩)

end Layout

end CrossAsm
