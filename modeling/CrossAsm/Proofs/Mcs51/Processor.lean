import CrossAsm.Proofs.Mcs51.Decoder
import CrossAsm.Proofs.Mcs51.Machine
import CrossAsm.Proofs.Mcs51.Transfers

/-!
The 8051 with a program counter. A step decodes the instruction at the counter and executes it, and a
relative jump that is taken counts from the end of its instruction. `Leaves` says where control goes when
it first leaves a stretch of code, and with what machine.
-/
namespace CrossAsm.Mcs51

/-- The distance that a relative jump goes, and whether the machine takes it. -/
def Instr.jump? (m : Machine) : Instr → Option (Int8 × Bool)
  | .sjmp distance => some (distance, true)
  | .jc distance => some (distance, m.carry)
  | .jnc distance => some (distance, !m.carry)
  | .jz distance => some (distance, m.a == 0)
  | .jnz distance => some (distance, m.a != 0)
  | _ => none

/-- A machine that is about to execute the instruction at an offset of the code. -/
structure Processor where
  pc : Int
  machine : Machine

namespace Processor

/-- Executes the instruction at the counter. -/
def step (code : Array UInt8) (p : Processor) : Option Processor :=
  if p.pc < 0 then none
  else
    match Decoder.decode (code.toList.drop p.pc.toNat) with
    | none => none
    | some (i, _) =>
      let next := p.pc + i.bytes.length
      match i.jump? p.machine with
      | some (distance, taken) =>
        some ⟨if taken then next + distance.toInt else next, p.machine⟩
      | none => (p.machine.exec i).map fun after => ⟨next, after⟩

/-- The counter points into the code from `start` to `stop`. -/
def Within (start stop : Nat) (p : Processor) : Prop := (start : Int) ≤ p.pc ∧ p.pc < stop

/-- Executed from `p` on, the code from `start` to `stop` is first left with `after`. -/
inductive Leaves (code : Array UInt8) (start stop : Nat) : Processor → Processor → Prop
  | last {p after : Processor} (inside : p.Within start stop) (stepped : step code p = some after)
    (outside : ¬ after.Within start stop) : Leaves code start stop p after
  | more {p next after : Processor} (inside : p.Within start stop)
    (stepped : step code p = some next) (later : Leaves code start stop next after) :
    Leaves code start stop p after

variable {code : Array UInt8} {offset : Nat} {m next : Machine} {i : Instr}

theorem jump?_of_exec (runs : m.exec i = some next) : i.jump? m = none := by
  cases i with
  | sjmp | jc | jnc | jz | jnz => cases runs
  | _ => rfl

/-- Code is fetched as it was put. -/
theorem decode_of_holds (holds : Holds code offset i.bytes) :
    Decoder.decode (code.toList.drop offset) =
      some (i, code.toList.drop (offset + i.bytes.length)) := by
  rw [holds.drop_eq, Decoder.decode_bytes]

theorem step_of_exec (holds : Holds code offset i.bytes) (runs : m.exec i = some next) :
    step code ⟨offset, m⟩ = some ⟨(offset + i.bytes.length : Nat), next⟩ := by
  have nonneg : ¬ (offset : Int) < 0 := by omega
  simp only [step, nonneg, if_false, Int.toNat_natCast, decode_of_holds holds, jump?_of_exec runs, runs,
    Option.map_some, Int.natCast_add]

theorem step_of_jump {distance : Int8} {taken : Bool} (holds : Holds code offset i.bytes)
    (jumps : i.jump? m = some (distance, taken)) :
    step code ⟨offset, m⟩ =
      some ⟨if taken then (offset + i.bytes.length : Nat) + distance.toInt
        else (offset + i.bytes.length : Nat), m⟩ := by
  have nonneg : ¬ (offset : Int) < 0 := by omega
  simp only [step, nonneg, if_false, Int.toNat_natCast, decode_of_holds holds, jumps, Int.natCast_add]

/-- A relative jump goes to the address that it is encoded for, under its condition. -/
theorem step_of_jumpAt (jump : Int8 → Instr) {front : List UInt8} {address : Nat} {P : Prop}
    [Decidable P] (encoded : ∀ distance, (jump distance).bytes = front ++ [distance.toUInt8])
    (decides : ∀ distance, (jump distance).jump? m = some (distance, decide P))
    (jumps : JumpAt code offset front address) :
    step code ⟨offset, m⟩ = some ⟨if P then address else (offset + front.length + 1 : Nat), m⟩ := by
  obtain ⟨distance, holds, leads⟩ := jumps
  have bytes : (jump distance.toInt8).bytes = front ++ [distance] := by
    rw [encoded, UInt8.toUInt8_toInt8]
  have length : (jump distance.toInt8).bytes.length = front.length + 1 := by
    rw [bytes, List.length_append, List.length_singleton]
  rw [step_of_jump (bytes ▸ holds) (decides _), length, ← leads]
  by_cases taken : P
  · simp only [taken, decide_true, if_true, Int.add_comm, Nat.add_assoc]
  · simp only [taken, decide_false, Bool.false_eq_true, if_false, Nat.add_assoc]

/-- Code without jumps is executed from its start to its end. -/
theorem leaves_of_run {instrs : List Instr} {start : Nat} (nonempty : instrs ≠ []) (order : start ≤ offset)
    (holds : Holds code offset (instrs.flatMap Instr.bytes)) (ran : Machine.run instrs m = some next) :
    Leaves code start (offset + (instrs.flatMap Instr.bytes).length) ⟨offset, m⟩
      ⟨(offset + (instrs.flatMap Instr.bytes).length : Nat), next⟩ := by
  induction instrs generalizing offset m with
  | nil => exact absurd rfl nonempty
  | cons i rest ih =>
    rw [Machine.run] at ran
    obtain ⟨middle, runs, later⟩ := Option.bind_eq_some_iff.mp ran
    rw [List.flatMap_cons] at holds ⊢
    have stepped := step_of_exec holds.left runs
    have size := List.length_pos_iff.mpr (Decoder.bytes_ne_nil i)
    rw [List.length_append]
    have inside : Within start (offset + (i.bytes.length + (rest.flatMap Instr.bytes).length))
        ⟨offset, m⟩ := by
      constructor
      · exact Int.ofNat_le.mpr order
      · dsimp only
        omega
    by_cases done : rest = []
    · subst done
      cases later
      refine .last inside stepped fun stays => ?_
      exact absurd stays.2 (by simp)
    · have further := ih done (by omega) holds.right later
      rw [Nat.add_assoc] at further
      exact .more inside stepped further

end Processor

end CrossAsm.Mcs51
