import CrossAsm.Code.Buffer
import CrossAsm.Program.Mnemonic

/-!
Emission, the second pass of a code generator over a program: every operation is turned into code, which
must take exactly the bytes that its size promised. An `Emitter` is a machine's way to do this; what it
has emitted before a failure stays.
-/
namespace CrossAsm

/-- The code inside a larger state. -/
structure CodeView (σ : Type) where
  code : σ → CodeBuffer
  withCode : σ → CodeBuffer → σ

/-- Does to the code of a state what is done to a code buffer. -/
def CodeView.lift {σ : Type} (v : CodeView σ) (act : EStateM Fault CodeBuffer Unit) :
    EStateM Fault σ Unit := fun s =>
  match act (v.code s) with
  | .ok _ code => .ok () (v.withCode s code)
  | .error fault code => .error fault (v.withCode s code)

structure Emitter (σ : Type) where
  sizeOf : Operation → Except Fault Nat
  /-- Emits an operation that stands at the given position of the source. -/
  emit : Operation → Position → EStateM Fault σ Unit
  /-- Emits so many bytes that do nothing. -/
  pad : Nat → EStateM Fault σ Unit
  /-- The number of bytes emitted. -/
  offset : σ → Nat

namespace Emitter

variable {σ : Type}

/-- Emits one instruction. Declarations take no code, and `org` pads up to its address. -/
def emitOne (e : Emitter σ) (i : Instruction) : EStateM Fault σ Unit := fun s =>
  match i.op with
  | .label _ | .var _ _ | .buffer _ _ => .ok () s
  | .org address => e.pad (address.toUInt64.toNat - e.offset s) s
  | op =>
    match e.sizeOf op with
    | .error fault => .error fault s
    | .ok expected =>
      let start := e.offset s
      match e.emit op i.pos s with
      | .error fault after => .error fault after
      | .ok _ after =>
        if e.offset after = start + expected then .ok () after
        else .error (.sizeMismatch op.name expected (e.offset after - start)) after

/-- Emits a program, or its instructions up to the first that fails. -/
def run (e : Emitter σ) (s : σ) : List Instruction → σ × Option FaultAt
  | [] => (s, none)
  | i :: rest =>
    match e.emitOne i s with
    | .ok _ after => run e after rest
    | .error fault after => (after, some ⟨i.pos, fault⟩)

end Emitter

/-- Steps that need a value; without it they come to its fault. -/
def require {α ι : Type} (value : Except Fault α) (steps : α → List (Except Fault ι)) :
    List (Except Fault ι) :=
  match value with
  | .ok a => steps a
  | .error fault => [.error fault]

/-- Does steps in order, each of which is an instruction to put or a fault that ends them. -/
def putAll {σ ι : Type} (put : ι → EStateM Fault σ Unit) :
    List (Except Fault ι) → EStateM Fault σ Unit
  | [] => pure ()
  | .error fault :: _ => throw fault
  | .ok instr :: rest => do
    put instr
    putAll put rest

end CrossAsm
