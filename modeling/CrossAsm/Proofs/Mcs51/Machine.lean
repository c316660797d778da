import CrossAsm.Mcs51.Lowering
import CrossAsm.Proofs.Steps

/-!
The 8051 as a machine that executes straight-line code: accumulator, B, carry, stack pointer and 256
bytes of internal RAM, of which the first eight are the working registers. `Gives` says what a sequence
of steps does to a machine, and is proved along the way the sequence is built.
-/
namespace CrossAsm.Mcs51

structure Machine where
  a : UInt8
  b : UInt8
  carry : Bool
  sp : UInt8
  ram : UInt8 → UInt8

namespace Machine

def write (m : Machine) (address value : UInt8) : Machine :=
  { m with ram := fun other => if other = address then value else m.ram other }

/-- The byte at a direct address: the lower half of RAM, or a special function register that this
machine has. -/
def direct? (m : Machine) (address : UInt8) : Option UInt8 :=
  if address < 0x80 then some (m.ram address)
  else if address = 0x81 then some m.sp
  else if address = 0xE0 then some m.a
  else if address = 0xF0 then some m.b
  else none

def writeDirect? (m : Machine) (address value : UInt8) : Option Machine :=
  if address < 0x80 then some (m.write address value)
  else if address = 0x81 then some { m with sp := value }
  else if address = 0xE0 then some { m with a := value }
  else if address = 0xF0 then some { m with b := value }
  else none

/-- Only additions and subtractions change the carry. -/
def alu (m : Machine) (op : AluOp) (x : UInt8) : Machine :=
  match op with
  | .add => { m with a := m.a + x, carry := 256 ≤ m.a.toNat + x.toNat }
  | .subb =>
    let borrow : UInt8 := if m.carry then 1 else 0
    { m with a := m.a - x - borrow, carry := m.a.toNat < x.toNat + borrow.toNat }
  | .anl => { m with a := m.a &&& x }
  | .orl => { m with a := m.a ||| x }
  | .xrl => { m with a := m.a ^^^ x }

def rotateLeft (x : UInt8) : UInt8 := x <<< 1 ||| x >>> 7

def rotateRight (x : UInt8) : UInt8 := x >>> 1 ||| x <<< 7

/-- One instruction. Transfers of control leave straight-line code, the machine has no bits, and what a
division by zero leaves behind is not defined. -/
def exec (m : Machine) : Instr → Option Machine
  | .movAReg r => some { m with a := m.ram r.direct }
  | .movRegA r => some (m.write r.direct m.a)
  | .movRegImm r data => some (m.write r.direct data)
  | .movAIndirect p => some { m with a := m.ram (m.ram p.code) }
  | .movIndirectA p => some (m.write (m.ram p.code) m.a)
  | .movIndirectImm p data => some (m.write (m.ram p.code) data)
  | .movDirectReg direct r => m.writeDirect? direct (m.ram r.direct)
  | .movDirectImm direct data => m.writeDirect? direct data
  | .movRegDirect r direct => (m.direct? direct).map (m.write r.direct)
  | .movADirect direct => (m.direct? direct).map fun x => { m with a := x }
  | .aluImm op data => some (m.alu op data)
  | .aluReg op r => some (m.alu op (m.ram r.direct))
  | .clrC => some { m with carry := false }
  | .cplA => some { m with a := ~~~m.a }
  | .incA => some { m with a := m.a + 1 }
  | .rlA => some { m with a := rotateLeft m.a }
  | .rrA => some { m with a := rotateRight m.a }
  | .incReg r => some (m.write r.direct (m.ram r.direct + 1))
  | .decReg r => some (m.write r.direct (m.ram r.direct - 1))
  | .mulAB =>
    some { m with a := m.a * m.b, b := UInt8.ofNat (m.a.toNat * m.b.toNat / 256), carry := false }
  | .divAB =>
    if m.b = 0 then none else some { m with a := m.a / m.b, b := m.a % m.b, carry := false }
  | .nop => some m
  | .push direct =>
    let raised := { m with sp := m.sp + 1 }
    (raised.direct? direct).map (raised.write raised.sp)
  | .pop direct => { m with sp := m.sp - 1 }.writeDirect? direct (m.ram m.sp)
  | .ljmp _ | .lcall _ | .sjmp _ | .jc _ | .jnc _ | .jz _ | .jnz _ | .jb _ _ | .jnb _ _ | .djnz _ _
  | .ret | .setBit _ | .clearBit _ | .complementBit _ => none

def run : List Instr → Machine → Option Machine
  | [], m => some m
  | i :: rest, m => (m.exec i).bind (run rest)

theorem run_append (first second : List Instr) (m : Machine) :
    run (first ++ second) m = (run first m).bind (run second) := by
  induction first generalizing m with
  | nil => rfl
  | cons i rest ih =>
    rw [List.cons_append, run, run]
    cases m.exec i with
    | none => rfl
    | some next => exact ih next

@[simp] theorem ram_write_self (m : Machine) (address value : UInt8) :
    (m.write address value).ram address = value := if_pos rfl

theorem ram_write_of_ne (m : Machine) {address other : UInt8} (value : UInt8) (ne : other ≠ address) :
    (m.write address value).ram other = m.ram other := if_neg ne

theorem direct?_of_lt (m : Machine) {address : UInt8} (low : address < 0x80) :
    m.direct? address = some (m.ram address) := if_pos low

theorem writeDirect?_of_lt (m : Machine) {address : UInt8} (low : address < 0x80) (value : UInt8) :
    m.writeDirect? address value = some (m.write address value) := if_pos low

end Machine

/-- Unless one of them is a fault, the steps take the machine to one that `P` describes. -/
def Gives (steps : Steps) (m : Machine) (P : Machine → Prop) : Prop :=
  ∀ instrs : List Instr, steps = instrs.map .ok → ∃ after, Machine.run instrs m = some after ∧ P after

namespace Gives

variable {steps rest : Steps} {m next : Machine} {P Q : Machine → Prop}

theorem nil (here : P m) : Gives [] m P := by
  intro instrs all
  rw [List.map_eq_nil_iff.mp all.symm]
  exact ⟨m, rfl, here⟩

theorem ok {i : Instr} (runs : m.exec i = some next) (more : Gives rest next P) :
    Gives (.ok i :: rest) m P := by
  intro instrs all
  obtain ⟨j, later, same, others, rfl⟩ := cons_eq_map_ok all
  cases same
  obtain ⟨after, ran, holds⟩ := more later others
  refine ⟨after, ?_, holds⟩
  rw [Machine.run, runs]
  exact ran

/-- A step that makes an instruction from a checked value. -/
theorem map {α : Type} {value : Except Fault α} {instr : α → Instr}
    (runs : ∀ x, value = .ok x → Gives (.ok (instr x) :: rest) m P) :
    Gives (value.map instr :: rest) m P := by
  intro instrs all
  obtain ⟨j, later, made, others, rfl⟩ := cons_eq_map_ok all
  obtain ⟨x, known, rfl⟩ := map_eq_ok_iff.mp made
  apply runs x known
  rw [List.map_cons, others]

theorem require {α : Type} {value : Except Fault α} {steps : α → Steps}
    (runs : ∀ x, value = .ok x → Gives (steps x) m P) : Gives (require value steps) m P := by
  intro instrs all
  obtain ⟨x, known, all⟩ := require_eq_map_ok all
  exact runs x known instrs all

theorem append (first : Gives steps m Q) (second : ∀ next, Q next → Gives rest next P) :
    Gives (steps ++ rest) m P := by
  intro instrs all
  obtain ⟨front, back, rfl, left, right⟩ := List.map_eq_append_iff.mp all.symm
  obtain ⟨next, ran, reached⟩ := first front left.symm
  obtain ⟨after, finished, holds⟩ := second next reached back right.symm
  refine ⟨after, ?_, holds⟩
  rw [Machine.run_append, ran]
  exact finished

end Gives

end CrossAsm.Mcs51
