import CrossAsm.Code.Layout
import CrossAsm.Proofs.Checked

/-!
The operands that occur in an operation, by what machines ask of them, and what a condition says of two
operands. Shift counts stand apart from the other immediates, because machines bound them in another way
(`shiftCount_eq_ok_iff`).
-/
namespace CrossAsm

namespace Operand

def registers : Operand → List Register
  | reg r => [r]
  | imm _ => []

def immediates : Operand → List Int64
  | reg _ => []
  | imm n => [n]

@[simp] theorem registers_reg (r : Register) : (reg r).registers = [r] := rfl

@[simp] theorem registers_imm (n : Int64) : (imm n).registers = [] := rfl

@[simp] theorem immediates_reg (r : Register) : (reg r).immediates = [] := rfl

@[simp] theorem immediates_imm (n : Int64) : (imm n).immediates = [n] := rfl

end Operand

namespace Operation

/-- All registers that an operation names. -/
@[simp] def registers : Operation → List Register
  | mov dest src | binary _ dest src | product _ dest src | shift _ dest src | cmp dest src =>
    dest :: src.registers
  | load dest pointer => [dest, pointer]
  | store pointer src => pointer :: src.registers
  | unary _ r | push r | pop r | get r _ | djnz r _ => [r]
  | set _ src => src.registers
  | _ => []

/-- The registers that hold the address of what is loaded or stored. -/
@[simp] def pointers : Operation → List Register
  | load _ pointer | store pointer _ => [pointer]
  | _ => []

/-- Immediates that stand where a register could; shift counts are not among them. -/
@[simp] def immediates : Operation → List Int64
  | mov _ src | store _ src | binary _ _ src | product _ _ src | cmp _ src | set _ src =>
    src.immediates
  | _ => []

@[simp] def bitAddresses : Operation → List Int64
  | bit _ n | bitBranch _ n _ => [n]
  | _ => []

@[simp] def shiftCount? : Operation → Option Operand
  | shift _ _ count => some count
  | _ => none

/-- The registers that are divided and divided by. -/
@[simp] def divided : Operation → List Register
  | product .div dest src | product .mod dest src => dest :: src.registers
  | _ => []

end Operation

section ShiftCount

variable {arch : Arch} {count : Operand}

theorem shiftCount_eq_ok_iff {bits : Nat} :
    shiftCount arch count = .ok bits ↔
      ∃ n, count = .imm n ∧ 0 ≤ n.toInt ∧ n.toInt ≤ arch.farthestShift ∧ bits = n.toInt.toNat := by
  cases count with
  | reg r => simp [shiftCount]
  | imm n =>
    rw [shiftCount, map_eq_ok_iff]
    constructor
    · rintro ⟨value, checked, rfl⟩
      obtain ⟨⟨low, high⟩, rfl⟩ := checkRange_eq_ok_iff.mp checked
      exact ⟨n, rfl, low, high, rfl⟩
    · rintro ⟨_, ⟨⟩, low, high, rfl⟩
      exact ⟨_, checkRange_eq_ok_iff.mpr ⟨⟨low, high⟩, rfl⟩, rfl⟩

@[simp] theorem exists_shiftCount :
    (∃ bits, shiftCount arch count = .ok bits) ↔
      ∃ n, count = .imm n ∧ 0 ≤ n.toInt ∧ n.toInt ≤ arch.farthestShift := by
  constructor
  · rintro ⟨bits, counted⟩
    obtain ⟨n, rfl, low, high, _⟩ := shiftCount_eq_ok_iff.mp counted
    exact ⟨n, rfl, low, high⟩
  · rintro ⟨n, rfl, low, high⟩
    exact ⟨_, shiftCount_eq_ok_iff.mpr ⟨n, rfl, low, high, rfl⟩⟩

end ShiftCount

namespace Condition

/-- What a condition says of the values that were compared. -/
def Relates : Condition → Int → Int → Prop
  | equal, x, y => x = y
  | notEqual, x, y => x ≠ y
  | less, x, y => x < y
  | greater, x, y => y < x
  | lessEqual, x, y => x ≤ y
  | greaterEqual, x, y => y ≤ x

instance (c : Condition) (x y : Int) : Decidable (c.Relates x y) :=
  match c with
  | equal => inferInstanceAs (Decidable (x = y))
  | notEqual => inferInstanceAs (Decidable (x ≠ y))
  | less => inferInstanceAs (Decidable (x < y))
  | greater => inferInstanceAs (Decidable (y < x))
  | lessEqual => inferInstanceAs (Decidable (x ≤ y))
  | greaterEqual => inferInstanceAs (Decidable (y ≤ x))

end Condition

end CrossAsm
