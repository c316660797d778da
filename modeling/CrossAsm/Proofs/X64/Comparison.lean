import CrossAsm.Proofs.Operands
import CrossAsm.Proofs.X64.Division

/-!
Comparisons and the branches after them, on x86-64. A comparison subtracts for the sake of the flags, and
a conditional jump reads them. The machine below knows both by their numbers in machine code and fetches
them at its counter, so it takes the operands of a comparison, the number of a condition and the
displacement of a jump from the image. A branch is taken exactly if its condition holds of the signed words
that were compared (`signed_comparison_decides_branch`).
-/
namespace CrossAsm.X64

variable {memory : Memory}

/-- The flags that conditional jumps read. -/
structure Flags where
  carry : Bool
  parity : Bool
  zero : Bool
  sign : Bool
  overflow : Bool
  deriving DecidableEq, Repr

namespace Flags

/-- What subtracting one word from another leaves in the flags. The parity is that of the lowest byte. -/
def ofSub (x y : Word) : Flags where
  carry := x.toNat < y.toNat
  parity := (List.range 8).countP (x - y).getLsbD % 2 = 0
  zero := x - y = 0
  sign := (x - y).msb
  overflow := ¬ FitsWord (x.toInt - y.toInt)

/-- Conditions have numbers, and each odd number stands for the opposite of the one before it. -/
def meets (f : Flags) (number : Nat) : Bool :=
  let even := match number / 2 with
    | 0 => f.overflow
    | 1 => f.carry
    | 2 => f.zero
    | 3 => f.carry || f.zero
    | 4 => f.sign
    | 5 => f.parity
    | 6 => f.sign != f.overflow
    | _ => f.zero || f.sign != f.overflow
  even != (number % 2 == 1)

theorem zero_ofSub (x y : Word) : (ofSub x y).zero = decide (x.toInt = y.toInt) := by
  have same : x - y = 0 ↔ x.toInt = y.toInt := by
    rw [BitVec.toInt_inj]
    constructor
    · intro none
      rw [← BitVec.sub_add_cancel x y, none]
      exact BitVec.zero_add y
    · rintro rfl
      exact BitVec.sub_self x
  exact decide_eq_decide.mpr same

/-- The difference has the wrong sign just if it overflows. -/
theorem sign_ne_overflow (x y : Word) :
    ((ofSub x y).sign != (ofSub x y).overflow) = decide (x.toInt < y.toInt) := by
  have x_low := BitVec.le_toInt x
  have x_high := BitVec.toInt_lt (x := x)
  have y_low := BitVec.le_toInt y
  have y_high := BitVec.toInt_lt (x := y)
  have sign : (ofSub x y).sign = decide ((x.toInt - y.toInt).bmod 0x10000000000000000 < 0) := by
    rw [ofSub, BitVec.msb_eq_toInt, BitVec.toInt_sub]
  have overflow : (ofSub x y).overflow = decide (¬ FitsWord (x.toInt - y.toInt)) := rfl
  rw [sign, overflow, Bool.eq_iff_iff, bne_iff_ne, decide_eq_true_iff, ne_eq, decide_eq_decide]
  unfold FitsWord
  rw [Int.bmod_def]
  omega

/-- Branches have the numbers of signed conditions. -/
theorem meets_conditionCode {f : Flags} {x y : Int} (equal : f.zero = decide (x = y))
    (less : (f.sign != f.overflow) = decide (x < y)) (condition : Condition) :
    f.meets (conditionCode condition).toNat = decide (condition.Relates x y) := by
  rw [Bool.eq_iff_iff, decide_eq_true_iff]
  cases condition with
  | equal | notEqual => simp [meets, conditionCode, Condition.Relates, equal]
  | less | greaterEqual => simp [meets, conditionCode, Condition.Relates, less]
  | lessEqual | greater =>
    simp [meets, conditionCode, Condition.Relates, equal, less]
    omega

end Flags

/-- A machine that is about to execute the instruction at an offset of the code. -/
structure Processor where
  pc : Int
  machine : Machine
  flags : Flags

/-- An instruction by which the machine decides where to go on. -/
inductive Fetched where
  | compare (left right : GeneralReg)
  | compareImm (left : GeneralReg) (imm : Int32)
  /-- A jump on the condition of this number, counted from the end of the instruction. -/
  | jump (condition : Nat) (displacement : Int32)
  deriving DecidableEq, Repr

namespace Fetched

/-- The first instruction of some code, and what follows it. What is subtracted is the operand that the
middle digit of the operand byte names, or the immediate. -/
def ofBytes? : List UInt8 → Option (Fetched × List UInt8)
  | 0x48 :: 0x39 :: rest => do
    let (reg, .register left, rest) ← Decoder.operands? rest | none
    let right ← GeneralReg.ofCode? reg
    some (.compare left right, rest)
  | 0x48 :: 0x81 :: rest => do
    let (7, .register left, rest) ← Decoder.operands? rest | none
    let (imm, rest) ← Decoder.word? rest
    some (.compareImm left imm, rest)
  | 0x0F :: opcode :: rest =>
    if opcode.toNat / 16 = 8 then
      (Decoder.word? rest).map fun (displacement, rest) => (.jump (opcode.toNat % 16) displacement, rest)
    else none
  | _ => none

/-- Executes an instruction that ends at `next`. -/
def exec (m : Machine) (flags : Flags) (next : Int) : Fetched → Processor
  | compare left right => ⟨next, m, .ofSub (m.regs left) (m.regs right)⟩
  | compareImm left imm => ⟨next, m, .ofSub (m.regs left) (imm.toBitVec.signExtend 64)⟩
  | jump condition displacement =>
    ⟨if flags.meets condition then next + displacement.toInt else next, m, flags⟩

section Bytes

variable (rest : List UInt8)

theorem ofBytes?_cmp (left right : GeneralReg) :
    ofBytes? ((Instr.alu .cmp left right).bytes ++ rest) = some (.compare left right, rest) := by
  simp [Instr.bytes, AluOp.opcode, Rex.byte, Rex.wide, ofBytes?]

theorem ofBytes?_cmpImm (left : GeneralReg) (imm : Int32) :
    ofBytes? ((Instr.aluImm .cmp left imm).bytes ++ rest) = some (.compareImm left imm, rest) := by
  simp [Instr.bytes, AluOp.extension, Rex.byte, Rex.wide, ofBytes?]

theorem ofBytes?_jcc (condition : Condition) (d : Int32) :
    ofBytes? ((Instr.jcc condition).bytesWith d ++ rest) =
      some (.jump (conditionCode condition).toNat d, rest) := by
  cases condition <;>
    simp [Instr.bytesWith, Instr.displacementOffset, Instr.bytes, Instr.zeroWord, conditionCode, ofBytes?]

end Bytes

end Fetched

namespace Processor

/-- Fetches the instruction at the counter and executes it. -/
def step (code : Array UInt8) (p : Processor) : Option Processor :=
  if p.pc < 0 then none
  else (Fetched.ofBytes? (code.toList.drop p.pc.toNat)).map fun (i, rest) =>
    i.exec p.machine p.flags (code.size - rest.length : Nat)

/-- An instruction that stands in the code is executed up to its end. -/
theorem step_of_holds {code : Array UInt8} {offset : Nat} {bytes : List UInt8} {i : Fetched}
    (holds : Holds code offset bytes) (fetched : ∀ rest, Fetched.ofBytes? (bytes ++ rest) = some (i, rest))
    (m : Machine) (flags : Flags) :
    step code ⟨offset, m, flags⟩ = some (i.exec m flags (offset + bytes.length : Nat)) := by
  have nonempty : bytes ≠ [] := by
    rintro rfl
    cases fetched []
  have next : code.size - (code.toList.drop (offset + bytes.length)).length = offset + bytes.length := by
    have room := holds.stop_le nonempty
    rw [List.length_drop, Array.length_toList]
    omega
  have nonneg : ¬ (offset : Int) < 0 := by omega
  simp only [step, nonneg, if_false, Int.toNat_natCast, holds.drop_eq, fetched, Option.map_some, next]

end Processor

/-- Lowering a comparison gives an instruction that compares the values of the operands. -/
theorem compares_of_lower {symbols : SymbolTable} {left : Register} {right : Operand} {steps : List Step}
    (lowered : lower symbols (.cmp left right) = steps.map .ok) :
    ∃ (i : Instr) (f : Fetched), steps = [⟨i, none⟩] ∧ i.displacementOffset = none ∧
      (∀ rest, Fetched.ofBytes? (i.bytes ++ rest) = some (f, rest)) ∧
      ∀ m : Machine, ∃ x y, m.regs.value? (.reg left) = some x ∧ m.regs.value? right = some y ∧
        ∀ flags next, f.exec m flags next = ⟨next, m, .ofSub x y⟩ := by
  have value {r : Register} {g : GeneralReg} (known : generalReg r = .ok g) (m : Machine) :
      m.regs.value? (.reg r) = some (m.regs g) := by
    rw [Registers.value?, generalReg_eq_ok_iff.mp known, GeneralReg.ofCode?_code]
    rfl
  obtain ⟨l, known, lowered⟩ := require_eq_map_ok lowered
  cases right with
  | reg r =>
    obtain ⟨s, made, rfl⟩ := singleton_eq_map_ok lowered
    obtain ⟨i, native, rfl⟩ := map_eq_ok_iff.mp made
    obtain ⟨g, source, rfl⟩ := map_eq_ok_iff.mp native
    exact ⟨_, _, rfl, rfl, fun rest => Fetched.ofBytes?_cmp rest l g,
      fun m => ⟨_, _, value known m, value source m, fun _ _ => rfl⟩⟩
  | imm n =>
    obtain ⟨s, made, rfl⟩ := singleton_eq_map_ok lowered
    obtain ⟨i, native, rfl⟩ := map_eq_ok_iff.mp made
    obtain ⟨imm, checked, rfl⟩ := map_eq_ok_iff.mp native
    refine ⟨_, _, rfl, rfl, fun rest => Fetched.ofBytes?_cmpImm rest l imm,
      fun m => ⟨_, _, value known m, rfl, fun _ _ => ?_⟩⟩
    rw [Fetched.exec, signExtend_of_imm32 checked]

section Image

variable {program : List Instruction} {image : Image} {index : Nat}

section Steps

variable {pos : Position} (accepted : X64.generate memory program = .ok image)
include accepted

/-- A comparison leaves the flags of the difference. -/
theorem step_cmp {left : Register} {right : Operand}
    (present : program[index]? = some ⟨.cmp left right, pos⟩) (m : Machine) :
    ∃ x y, m.regs.value? (.reg left) = some x ∧ m.regs.value? right = some y ∧ ∀ flags,
      Processor.step image.code ⟨offsetAt memory program index, m, flags⟩ =
        some ⟨offsetAt memory program (index + 1), m, .ofSub x y⟩ := by
  obtain ⟨steps, decoded, lowered, disassembles, holds, stop⟩ :=
    disassembled_at accepted present (fun _ => by simp)
  obtain ⟨i, f, rfl, unplaced, fetched, compares⟩ := compares_of_lower lowered
  obtain ⟨x, y, first, second, executed⟩ := compares m
  refine ⟨x, y, first, second, fun flags => ?_⟩
  have bytes : decoded.flatMap Decoded.bytes = i.bytes := by
    obtain ⟨d, rfl, same⟩ := List.map_eq_singleton_iff.mp disassembles.same
    rw [List.flatMap_singleton, Decoded.bytes, same, Instr.bytesWith_of_none unplaced]
  rw [bytes] at holds stop
  rw [Processor.step_of_holds holds fetched, executed, stop]

/-- A branch goes to its label if the flags meet its condition, and else to the next instruction. -/
theorem step_branch {condition : Condition} {name : String}
    (present : program[index]? = some ⟨.branch condition name, pos⟩) :
    ∃ address, image.symbols.get? name = some ⟨.label, address⟩ ∧ ∀ m flags,
      Processor.step image.code ⟨offsetAt memory program index, m, flags⟩ =
        some ⟨if flags.meets (conditionCode condition).toNat then address
          else offsetAt memory program (index + 1), m, flags⟩ := by
  obtain ⟨steps, decoded, lowered, disassembles, holds, stop⟩ :=
    disassembled_at accepted present (fun _ => by simp)
  obtain ⟨s, made, rfl⟩ := singleton_eq_map_ok lowered
  cases made
  obtain ⟨x, rfl, same⟩ := List.map_eq_singleton_iff.mp disassembles.same
  rw [List.flatMap_singleton, Decoded.bytes, same] at holds stop
  let site : Site := ⟨name, .code, 2, 6⟩
  have stands : site.At program index := ⟨_, present, rfl⟩
  have written : Holds image.code (site.window memory program index)
      (Relocation.displacementBytes (x.displacement.getD 0)) := holds.left.right
  obtain ⟨symbol, _, denotes, reaches⟩ := (resolved_at accepted stands).reaches
  rw [Relocation.signedWordAt_of_holds written] at reaches
  generalize symbol.address = address at denotes reaches
  cases denotes with
  | label declared =>
    refine ⟨_, (label_of_generate accepted).mpr ⟨_, _, declared, rfl⟩, fun m flags => ?_⟩
    rw [Processor.step_of_holds holds fun rest => Fetched.ofBytes?_jcc rest condition _, Fetched.exec,
      ← stop, Int.add_comm, reaches]

end Steps

/-- A branch after a comparison is taken exactly if its condition holds of the signed words that were
compared. The comparison is executed up to its end; then control goes to the label of the branch if the
condition holds, and else to the instruction after it. No register and no byte of memory changes. -/
theorem signed_comparison_decides_branch (accepted : CrossAsm.generate memory .x64 program = .ok image)
    {left : Register} {right : Operand} {condition : Condition} {name : String}
    {first second : Position} (compares : program[index]? = some ⟨.cmp left right, first⟩)
    (branches : program[index + 1]? = some ⟨.branch condition name, second⟩) :
    ∃ address, image.symbols.get? name = some ⟨.label, address⟩ ∧ ∀ (m : Machine) (flags : Flags),
      ∃ (x y : Word) (after : Flags),
        m.regs.value? (.reg left) = some x ∧ m.regs.value? right = some y ∧
        Processor.step image.code ⟨offsetAt memory program index, m, flags⟩ =
          some ⟨offsetAt memory program (index + 1), m, after⟩ ∧
        Processor.step image.code ⟨offsetAt memory program (index + 1), m, after⟩ =
          some ⟨if condition.Relates x.toInt y.toInt then address else offsetAt memory program (index + 2),
            m, after⟩ := by
  obtain ⟨address, known, branched⟩ := step_branch accepted branches
  refine ⟨address, known, fun m flags => ?_⟩
  obtain ⟨x, y, leftValue, rightValue, compared⟩ := step_cmp accepted compares m
  refine ⟨x, y, .ofSub x y, leftValue, rightValue, compared flags, ?_⟩
  have decided := Flags.meets_conditionCode (Flags.zero_ofSub x y) (Flags.sign_ne_overflow x y) condition
  simp only [branched, decided, decide_eq_true_eq]

/-- The least word is less than one, though their difference overflows to the greatest word; as unsigned
words the order is the opposite. -/
theorem signed_comparison_decides_branch_of_overflow :
    let program : List Instruction :=
      [⟨.label "again", ⟨1, 1⟩⟩, ⟨.cmp ⟨4⟩ (.imm 1), ⟨2, 1⟩⟩, ⟨.branch .less "again", ⟨3, 1⟩⟩]
    let m : Machine := ⟨fun _ => 0x8000000000000000, fun _ => 0⟩
    ∃ image, CrossAsm.generate .ofProcess .x64 program = .ok image ∧ ∀ flags, ∃ after,
      Processor.step image.code ⟨0, m, flags⟩ = some ⟨7, m, after⟩ ∧
      Processor.step image.code ⟨7, m, after⟩ = some ⟨0, m, after⟩ := by
  intro program m
  obtain ⟨image, generated⟩ : ∃ image, CrossAsm.generate .ofProcess .x64 program = .ok image := ⟨_, rfl⟩
  have compares : program[1]? = some ⟨.cmp ⟨4⟩ (.imm 1), ⟨2, 1⟩⟩ := rfl
  have branches : program[2]? = some ⟨.branch .less "again", ⟨3, 1⟩⟩ := rfl
  obtain ⟨address, known, decided⟩ := signed_comparison_decides_branch generated compares branches
  refine ⟨image, generated, fun flags => ?_⟩
  obtain ⟨x, y, after, left, right, compared, branched⟩ := decided m flags
  have start : offsetAt .ofProcess program 1 = 0 := by decide +kernel
  have middle : offsetAt .ofProcess program 2 = 7 := by decide +kernel
  have same : X64.generate .ofProcess program = .ok image := generated
  have target : image.symbols.get? "again" = some ⟨.label, 0⟩ :=
    (label_of_generate same).mpr ⟨0, ⟨1, 1⟩, rfl, by decide +kernel⟩
  cases known.symm.trans target
  have least : m.regs.value? (.reg ⟨4⟩) = some 0x8000000000000000 := rfl
  have one : m.regs.value? (.imm 1) = some 1 := rfl
  cases least.symm.trans left
  cases one.symm.trans right
  have less : Condition.Relates .less (0x8000000000000000 : Word).toInt (1 : Word).toInt := by decide
  rw [if_pos less, middle] at branched
  rw [start, middle] at compared
  exact ⟨after, compared, branched⟩

end Image

end CrossAsm.X64
