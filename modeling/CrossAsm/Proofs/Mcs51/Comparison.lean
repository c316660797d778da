import CrossAsm.Proofs.Mcs51.Effects
import CrossAsm.Proofs.Mcs51.Processor

/-!
Comparisons and the branches after them, on the 8051. A comparison subtracts without storing the result:
the carry then tells whether the first value was less, and a zero accumulator whether the two were equal.
Every branch is a sequence of jumps on these two, and it is taken exactly if its condition holds of the
unsigned values (`comparison_decides_branch`).
-/
namespace CrossAsm.Mcs51

variable {memory : Memory}

open Processor (Leaves Within)

/-- The machine holds the outcome of comparing two values, and its RAM is as before. -/
structure Compared (m : Machine) (x y : Int) (after : Machine) : Prop where
  zero : (after.a == 0) = decide (x = y)
  carry : after.carry = decide (x < y)
  ram : after.ram = m.ram
  sp : after.sp = m.sp

theorem sub_eq_zero_iff {x y : UInt8} : x - y = 0 ↔ (x.toNat : Int) = y.toNat := by
  have cancelled : x - y = y - y ↔ x = y := UInt8.sub_left_inj y
  rw [UInt8.sub_self] at cancelled
  rw [cancelled, Int.ofNat_inj, UInt8.toNat_inj]

theorem gives_cmp {symbols : SymbolTable} {offset : Nat} {left : Register} {right : Operand}
    {m : Machine} :
    Gives (lower symbols offset (.cmp left right)) m
      (Compared m (m.ram left.number).toNat (m.value right).toNat) := by
  refine .map fun w known => .ok rfl (.ok rfl (gives_alu .subb (Machine.value_of_ram rfl right)
    (.nil ⟨?_, ?_, rfl, rfl⟩)))
  -- the carry was cleared, so nothing more is subtracted
  · change (m.ram w.direct - m.value right - 0 == 0) = _
    rw [direct_of_workReg known, UInt8.sub_zero, Bool.eq_iff_iff, beq_iff_eq, sub_eq_zero_iff,
      decide_eq_true_iff]
  · change decide ((m.ram w.direct).toNat < (m.value right).toNat + 0) = _
    rw [direct_of_workReg known, Nat.add_zero]
    simp only [Int.ofNat_lt]

section Branch

variable {code : Array UInt8} {start stop offset address : Nat} {m after : Machine} {x y : Int}

section Jumps

variable (compared : Compared m x y after)
include compared

theorem step_jz (jumps : JumpAt code offset [0x60] address) :
    Processor.step code ⟨offset, after⟩ = some ⟨if x = y then address else (offset + 2 : Nat), after⟩ :=
  Processor.step_of_jumpAt .jz (fun _ => rfl) (fun _ => by rw [← compared.zero]; rfl) jumps

theorem step_jnz (jumps : JumpAt code offset [0x70] address) :
    Processor.step code ⟨offset, after⟩ = some ⟨if x ≠ y then address else (offset + 2 : Nat), after⟩ :=
  Processor.step_of_jumpAt .jnz (fun _ => rfl)
    (fun _ => by rw [decide_not, ← compared.zero]; rfl) jumps

theorem step_jc (jumps : JumpAt code offset [0x40] address) :
    Processor.step code ⟨offset, after⟩ = some ⟨if x < y then address else (offset + 2 : Nat), after⟩ :=
  Processor.step_of_jumpAt .jc (fun _ => rfl) (fun _ => by rw [← compared.carry]; rfl) jumps

theorem step_jnc (jumps : JumpAt code offset [0x50] address) :
    Processor.step code ⟨offset, after⟩ = some ⟨if y ≤ x then address else (offset + 2 : Nat), after⟩ :=
  Processor.step_of_jumpAt .jnc (fun _ => rfl)
    (fun _ => by simp only [Instr.jump?, compared.carry, ← decide_not, Int.not_lt]) jumps

end Jumps

theorem step_sjmp (jumps : JumpAt code offset [0x80] address) :
    Processor.step code ⟨offset, after⟩ = some ⟨address, after⟩ := by
  rw [Processor.step_of_jumpAt (P := True) .sjmp (fun _ => rfl) (fun _ => rfl) jumps, if_pos trivial]

theorem within_of_lt (order : start ≤ offset) (before : offset < stop) :
    Within start stop ⟨offset, after⟩ := ⟨Int.ofNat_le.mpr order, Int.ofNat_lt.mpr before⟩

theorem not_within_stop : ¬ Within start stop ⟨stop, after⟩ := fun stays => Int.lt_irrefl _ stays.2

section Sequences

variable (compared : Compared m x y after) (apart : address < start ∨ stop ≤ address)

include apart in
theorem not_within_target : ¬ Within start stop ⟨address, after⟩ := by
  rintro ⟨low, high⟩
  dsimp only at low high
  omega

include apart in
/-- The last jump of a branch. -/
theorem leaves_of_jump {P : Prop} [Decidable P] (order : start ≤ offset) (ends : stop = offset + 2)
    (stepped : Processor.step code ⟨offset, after⟩ =
      some ⟨if P then address else (offset + 2 : Nat), after⟩) :
    Leaves code start stop ⟨offset, after⟩ ⟨if P then address else stop, after⟩ := by
  subst ends
  refine .last (within_of_lt order (by omega)) stepped ?_
  split
  · exact not_within_target apart
  · exact not_within_stop

include compared apart

/-- Less or equal: a jump for each of the two. -/
theorem leaves_of_lessEqual (ends : stop = start + 4) (ifLess : JumpAt code start [0x40] address)
    (ifEqual : JumpAt code (start + 2) [0x60] address) :
    Leaves code start stop ⟨start, after⟩ ⟨if x ≤ y then address else stop, after⟩ := by
  have inside : Within start stop ⟨start, after⟩ := within_of_lt (Nat.le_refl _) (by omega)
  have first := step_jc compared ifLess
  by_cases less : x < y
  · rw [if_pos less] at first
    rw [if_pos (Int.le_of_lt less)]
    exact .last inside first (not_within_target apart)
  · have same : x = y ↔ x ≤ y := by omega
    have second := step_jz compared ifEqual
    rw [if_neg less] at first
    simp only [same] at second
    exact .more inside first (leaves_of_jump apart (by omega) ends second)

/-- Greater: what is less or equal skips the jump. -/
theorem leaves_of_greater (ends : stop = start + 6) (ifLess : JumpAt code start [0x40] stop)
    (ifEqual : JumpAt code (start + 2) [0x60] stop) (jumps : JumpAt code (start + 4) [0x80] address) :
    Leaves code start stop ⟨start, after⟩ ⟨if y < x then address else stop, after⟩ := by
  have inside : Within start stop ⟨start, after⟩ := within_of_lt (Nat.le_refl _) (by omega)
  have inside' : Within start stop ⟨(start + 2 : Nat), after⟩ := within_of_lt (by omega) (by omega)
  have inside'' : Within start stop ⟨(start + 4 : Nat), after⟩ := within_of_lt (by omega) (by omega)
  have first := step_jc compared ifLess
  have second := step_jz compared ifEqual
  rcases Int.lt_trichotomy x y with less | equal | greater
  · rw [if_pos less] at first
    rw [if_neg (Int.not_lt.mpr (Int.le_of_lt less))]
    exact .last inside first not_within_stop
  · rw [if_neg (by omega)] at first ⊢
    rw [if_pos equal] at second
    exact .more inside first (.last inside' second not_within_stop)
  · rw [if_neg (by omega)] at first second
    rw [if_pos greater]
    exact .more inside first (.more inside' second
      (.last inside'' (step_sjmp jumps) (not_within_target apart)))

/-- The jumps of a branch go to its target if the condition holds, and else past the branch. -/
theorem leaves_of_branch {condition : Condition} {name : String}
    (transfers : TransfersTo code start stop address (.branch condition name)) :
    Leaves code start stop ⟨start, after⟩
      ⟨if condition.Relates x y then address else stop, after⟩ := by
  have order := Nat.le_refl start
  cases condition with
  | equal => exact leaves_of_jump apart order transfers.1 (step_jz compared transfers.2)
  | notEqual => exact leaves_of_jump apart order transfers.1 (step_jnz compared transfers.2)
  | less => exact leaves_of_jump apart order transfers.1 (step_jc compared transfers.2)
  | greaterEqual => exact leaves_of_jump apart order transfers.1 (step_jnc compared transfers.2)
  | lessEqual =>
    obtain ⟨ends, ifLess, ifEqual⟩ := transfers
    exact leaves_of_lessEqual compared apart ends ifLess ifEqual
  | greater =>
    obtain ⟨ends, ifLess, ifEqual, jumps⟩ := transfers
    exact leaves_of_greater compared apart ends ifLess ifEqual jumps

end Sequences

end Branch

section Image

variable {program : List Instruction} {image : Image} {index : Nat}

/-- The code of a comparison is executed to its end and leaves the outcome in the machine. -/
theorem leaves_of_cmp (accepted : Mcs51.generate memory program = .ok image)
    {left : Register} {right : Operand} {pos : Position}
    (present : program[index]? = some ⟨.cmp left right, pos⟩) (m : Machine) :
    ∃ after, Compared m (m.ram left.number).toNat (m.value right).toNat after ∧
      Leaves image.code (offsetAt memory program index) (offsetAt memory program (index + 1))
        ⟨offsetAt memory program index, m⟩ ⟨offsetAt memory program (index + 1), after⟩ := by
  obtain ⟨_, _, emitted, rfl⟩ := generate_eq_ok_iff.mp accepted
  obtain ⟨instrs, lowered, stop, holds⟩ := lowered_at emitted present rfl
  obtain ⟨after, ran, compared⟩ := gives_cmp instrs lowered
  have nonempty : instrs ≠ [] := by
    rintro rfl
    cases lowered
  refine ⟨after, compared, ?_⟩
  rw [stop]
  exact Processor.leaves_of_run nonempty (Nat.le_refl _) holds ran

/-- No label stands inside the code of an instruction that follows a comparison, nor at its start. -/
theorem label_apart (accepted : Mcs51.generate memory program = .ok image)
    {left : Register} {right : Operand} {pos : Position}
    (present : program[index]? = some ⟨.cmp left right, pos⟩) {next : Instruction}
    (follows : program[index + 1]? = some next) (isCode : next.op.isCode) {name : String}
    {address : Nat} (known : image.symbols.get? name = some ⟨.label, address⟩) :
    address < offsetAt memory program (index + 1) ∨ offsetAt memory program (index + 2) ≤ address := by
  obtain ⟨_, _, emitted, _⟩ := generate_eq_ok_iff.mp accepted
  obtain ⟨instrs, lowered, stop, _⟩ := lowered_at emitted present rfl
  obtain ⟨label, place, declared, rfl⟩ := (label_of_generate accepted).mp known
  have size : 4 = (instrs.flatMap Instr.bytes).length := Except.ok.inj (lower_size lowered)
  have other : label ≠ index + 1 := by
    rintro rfl
    cases follows.symm.trans declared
    cases isCode
  rcases Nat.lt_or_gt_of_ne other with before | behind
  · have order : offsetAt memory program label ≤ offsetAt memory program index :=
      emitter_appends.offset_before_le emitted (Nat.le_of_lt_succ before)
    omega
  · exact .inr (emitter_appends.offset_before_le emitted behind)

/-- A branch after a comparison is taken exactly if its condition holds of the unsigned bytes that were
compared. The code of the comparison is executed from its start to its end; then that of the branch is
left for the address of its label if the condition holds, and else for the next instruction. No byte of
RAM changes, and so no register does. -/
theorem comparison_decides_branch (accepted : CrossAsm.generate memory .mcs51 program = .ok image)
    {left : Register} {right : Operand} {condition : Condition} {name : String}
    {first second : Position} (compares : program[index]? = some ⟨.cmp left right, first⟩)
    (branches : program[index + 1]? = some ⟨.branch condition name, second⟩) :
    ∃ address, image.symbols.get? name = some ⟨.label, address⟩ ∧ ∀ m : Machine, ∃ after : Machine,
      Leaves image.code (offsetAt memory program index) (offsetAt memory program (index + 1))
        ⟨offsetAt memory program index, m⟩ ⟨offsetAt memory program (index + 1), after⟩ ∧
      Leaves image.code (offsetAt memory program (index + 1)) (offsetAt memory program (index + 2))
        ⟨offsetAt memory program (index + 1), after⟩
        ⟨if condition.Relates (m.ram left.number).toNat (m.value right).toNat then address
          else offsetAt memory program (index + 2), after⟩ ∧
      after.ram = m.ram ∧ after.sp = m.sp := by
  obtain ⟨laid, _, emitted, whole⟩ := generate_eq_ok_iff.mp accepted
  have room : offsetAt memory program (index + 1) + 6 < 0x8000000000000000 := by
    have bound := offsetAt_le_programMemory accepted
      (Nat.le_of_lt (List.getElem?_eq_some_iff.mp branches).1)
    have limit : programMemory + 6 < 0x8000000000000000 := by decide
    omega
  obtain ⟨instrs, lowered, stop, holds⟩ := lowered_at emitted branches rfl
  obtain ⟨address, found, transfers⟩ := transfersTo_of_lower (lowLabels laid) room rfl lowered holds
  rw [← symbols_of_generate accepted] at found
  have code : image.code = (emissionOf memory program).1.code.bytes := congrArg Image.code whole
  rw [← stop, ← code] at transfers
  have apart := label_apart accepted compares branches rfl found
  refine ⟨address, found, fun m => ?_⟩
  obtain ⟨after, compared, reached⟩ := leaves_of_cmp accepted compares m
  exact ⟨after, reached, leaves_of_branch compared apart transfers, compared.ram, compared.sp⟩

/-- A loop that is left once its counter is no longer greater than 200, a value that would be negative
if it were signed. -/
theorem comparison_decides_branch_of_large_bytes :
    let program : List Instruction :=
      [⟨.label "again", ⟨1, 1⟩⟩, ⟨.unary .dec ⟨2⟩, ⟨2, 1⟩⟩, ⟨.cmp ⟨2⟩ (.imm (-56)), ⟨3, 1⟩⟩,
        ⟨.branch .greater "again", ⟨4, 1⟩⟩]
    let m : Machine := ⟨0, 0, true, 0x7F, fun _ => 201⟩
    ∃ image, CrossAsm.generate .ofProcess .mcs51 program = .ok image ∧ ∃ after : Machine,
      Leaves image.code 1 5 ⟨1, m⟩ ⟨5, after⟩ ∧ Leaves image.code 5 11 ⟨5, after⟩ ⟨0, after⟩ ∧
      after.ram = m.ram := by
  intro program m
  obtain ⟨image, generated⟩ : ∃ image, CrossAsm.generate .ofProcess .mcs51 program = .ok image := ⟨_, rfl⟩
  have compares : program[2]? = some ⟨.cmp ⟨2⟩ (.imm (-56)), ⟨3, 1⟩⟩ := rfl
  have branches : program[3]? = some ⟨.branch .greater "again", ⟨4, 1⟩⟩ := rfl
  obtain ⟨address, known, decided⟩ := comparison_decides_branch generated compares branches
  obtain ⟨after, compared, branched, ram, _⟩ := decided m
  have start : offsetAt .ofProcess program 2 = 1 := by decide +kernel
  have middle : offsetAt .ofProcess program 3 = 5 := by decide +kernel
  have stop : offsetAt .ofProcess program 4 = 11 := by decide +kernel
  have same : Mcs51.generate .ofProcess program = .ok image := generated
  have target : image.symbols.get? "again" = some ⟨.label, 0⟩ :=
    (label_of_generate same).mpr ⟨0, ⟨1, 1⟩, rfl, by decide +kernel⟩
  cases known.symm.trans target
  have greater : Condition.Relates .greater (m.ram 2).toNat (m.value (.imm (-56))).toNat := by decide
  rw [if_pos greater, middle, stop] at branched
  rw [start, middle] at compared
  exact ⟨image, generated, after, compared, branched, ram⟩

end Image

end CrossAsm.Mcs51
