import CrossAsm.Proofs.Mcs51.Decoder
import CrossAsm.Proofs.PassAgreement

/-!
Disassembly of 8051 code. Up to every instruction the code is made of the bytes of what was put before
it (`disassembled_before`), if there is no `org`. So decoding the code of an image gives back the
instructions that were put (`put_instructions_decode`).
-/
namespace CrossAsm.Mcs51

variable {memory : Memory}

variable {program : List Instruction} {index : Nat} {op : Operation} {pos : Position}

/-- The steps of a program, in order: each instruction is lowered at the offset it stands at. -/
def stepsOf (memory : Memory) (symbols : SymbolTable) (program : List Instruction) : Steps :=
  program.zipIdx.flatMap fun place => lower symbols (offsetAt memory program place.2) place.1.op

theorem lower_of_not_isCode (symbols : SymbolTable) (offset : Nat) (notCode : op.isCode = false) :
    lower symbols offset op = [] := by
  cases op with
  | label | var | buffer | org => rfl
  | _ => cases notCode

section Emission

variable (emitted : (emissionOf memory program).2 = none)
include emitted

/-- Where there is no `org`, nothing but the code of an instruction stands at its offset. -/
theorem disassembled_at (present : program[index]? = some ⟨op, pos⟩)
    (unmoved : ∀ address, op ≠ .org address) :
    ∃ instrs : List Instr,
      lower (layoutOf program).1.symbols (offsetAt memory program index) op = instrs.map .ok ∧
      offsetAt memory program (index + 1) =
        offsetAt memory program index + (instrs.flatMap Instr.bytes).length ∧
      Holds (emissionOf memory program).1.code.bytes (offsetAt memory program index)
        (instrs.flatMap Instr.bytes) := by
  cases isCode : op.isCode with
  | true => exact lowered_at emitted present isCode
  | false =>
    have unmoved_offset : offsetAt memory program (index + 1) = offsetAt memory program index := by
      unfold offsetAt
      rw [Emitter.before_of_declaration emitted present isCode unmoved]
    refine ⟨[], lower_of_not_isCode _ _ isCode, unmoved_offset, ?_⟩
    intro place within
    cases within

/-- Up to every instruction, the code is that of the steps so far. -/
theorem disassembled_before (unmoved : ∀ i ∈ program, ∀ address, i.op ≠ .org address)
    (within : index ≤ program.length) :
    ∃ instrs : List Instr,
      ((program.take index).zipIdx.flatMap fun place =>
        lower (layoutOf program).1.symbols (offsetAt memory program place.2) place.1.op) =
          instrs.map .ok ∧
      (emissionOf memory program).1.code.bytes.toList.take (offsetAt memory program index) =
        instrs.flatMap Instr.bytes := by
  induction index with
  | zero => exact ⟨[], rfl, rfl⟩
  | succ index ih =>
    obtain ⟨instrs, lowered, front⟩ := ih (Nat.le_of_succ_le within)
    have present := List.getElem?_eq_getElem (l := program) (i := index) within
    obtain ⟨more, next, stop, holds⟩ :=
      disassembled_at emitted present (unmoved _ (List.getElem_mem within))
    have next : lower (layoutOf program).1.symbols (offsetAt memory program index) program[index].op =
        more.map .ok := next
    have length : (program.take index).length = index := by
      rw [List.length_take]
      omega
    refine ⟨instrs ++ more, ?_, ?_⟩
    · rw [List.take_succ_eq_append_getElem within, List.zipIdx_append, List.flatMap_append, lowered,
        length, Nat.zero_add, List.zipIdx_singleton, List.flatMap_singleton, next, List.map_append]
    · rw [stop, holds.take_eq, front, List.flatMap_append]

end Emission

/-- 8051 code can be decoded in one way only. Every instruction is read back from its bytes, whatever
follows, so no two lists of instructions have the same bytes. If there is no `org`, the code of an image
decodes to the instructions that were put. -/
theorem put_instructions_decode :
    (∀ (i : Instr) (rest : List UInt8), Decoder.decode (i.encode.bytes ++ rest) = some (i, rest)) ∧
    (∀ first second : List Instr,
      first.flatMap (fun i => i.encode.bytes) = second.flatMap (fun i => i.encode.bytes) →
        first = second) ∧
    ∀ program image, CrossAsm.generate memory .mcs51 program = .ok image →
      (∀ i ∈ program, ∀ address, i.op ≠ .org address) →
      ∃ instrs : List Instr, stepsOf memory image.symbols program = instrs.map .ok ∧
        Decoder.decodeAll image.instructions = some instrs := by
  refine ⟨Decoder.decode_bytes, fun _ _ => Decoder.flatMap_bytes_injective, ?_⟩
  intro program image accepted unmoved
  have symbols : image.symbols = (layoutOf program).1.symbols := symbols_of_generate accepted
  obtain ⟨_, _, emitted, made⟩ := generate_eq_ok_iff.mp accepted
  obtain ⟨instrs, lowered, code⟩ := disassembled_before emitted unmoved (Nat.le_refl program.length)
  have size : offsetAt memory program program.length = (emissionOf memory program).1.code.size := by
    rw [offsetAt, Emitter.before_length]
    rfl
  refine ⟨instrs, ?_, ?_⟩
  · rw [List.take_length] at lowered
    rw [symbols]
    exact lowered
  · rw [made, Image.instructions, ← size, code]
    exact Decoder.decodeAll_flatMap_bytes instrs

/-- A comparison and a subtraction with registers, whose second byte names the register, around a
branch that goes back over them. -/
theorem put_instructions_decode_around_branch :
    let program : List Instruction :=
      [⟨.label "again", ⟨1, 1⟩⟩, ⟨.binary .sub ⟨3⟩ (.reg ⟨7⟩), ⟨2, 1⟩⟩, ⟨.cmp ⟨3⟩ (.imm (-1)), ⟨3, 1⟩⟩,
        ⟨.branch .greater "again", ⟨4, 1⟩⟩, ⟨.jmp "again", ⟨5, 1⟩⟩, ⟨.var "count" none, ⟨6, 1⟩⟩]
    Decoder.decode (Instr.encode (.aluReg .subb 7)).bytes = some (.aluReg .subb 7, []) ∧
    (∀ instrs : List Instr, instrs.flatMap (fun i => i.encode.bytes) = [0xE5, 0xE5] →
      instrs = [.movADirect 0xE5]) ∧
    ∃ image, CrossAsm.generate .ofProcess .mcs51 program = .ok image ∧
      ∃ instrs : List Instr, stepsOf .ofProcess image.symbols program = instrs.map .ok ∧
        Decoder.decodeAll image.instructions = some instrs := by
  intro program
  obtain ⟨ofInstr, ofLists, ofImage⟩ := put_instructions_decode
  obtain ⟨image, generated⟩ : ∃ image, CrossAsm.generate .ofProcess .mcs51 program = .ok image := ⟨_, rfl⟩
  refine ⟨ofInstr (.aluReg .subb 7) [], fun instrs => ofLists instrs [.movADirect 0xE5], image,
    generated, ?_⟩
  apply ofImage program image generated
  intro i member address
  simp only [program, List.mem_cons, List.not_mem_nil, or_false] at member
  rcases member with rfl | rfl | rfl | rfl | rfl | rfl <;> simp

end CrossAsm.Mcs51
