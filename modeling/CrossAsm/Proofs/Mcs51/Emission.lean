import CrossAsm.Proofs.Emission
import CrossAsm.Proofs.Generation
import CrossAsm.Proofs.Mcs51.CodeSize

/-!
Emission for the 8051, over a whole program: what an instruction is lowered to stands at its offset
(`lowered_at`).
-/
namespace CrossAsm.Mcs51

variable {memory : Memory}

variable {program : List Instruction} {index : Nat} {op : Operation} {pos : Position}

theorem emitter_padsWith : (emitter memory).PadsWith memory Output.view 0x00 where
  lawful := ⟨fun _ _ => rfl, fun _ => rfl, fun _ _ _ => rfl⟩
  offset _ := rfl
  pad _ := rfl

theorem emitter_appends : (emitter memory).Appends Output.symbols Output.code := by
  refine emitter_padsWith.appends (fun _ _ => rfl) fun op pos out after ran => ?_
  obtain ⟨instrs, lowered, rfl⟩ := Output.emit_eq_ok ran
  exact ⟨rfl, _, rfl, lower_size lowered⟩

/-- The code of an instruction stands at its offset, in the whole code. -/
theorem lowered_at (emitted : (emissionOf memory program).2 = none)
    (present : program[index]? = some ⟨op, pos⟩) (isCode : op.isCode) :
    ∃ instrs : List Instr,
      lower (layoutOf program).1.symbols (offsetAt memory program index) op = instrs.map .ok ∧
      offsetAt memory program (index + 1) =
        offsetAt memory program index + (instrs.flatMap Instr.bytes).length ∧
      Holds (emissionOf memory program).1.code.bytes (offsetAt memory program index)
        (instrs.flatMap Instr.bytes) := by
  obtain ⟨instrs, lowered, reached⟩ :=
    Output.emit_eq_ok (Emitter.ran_before emitted present isCode)
  rw [emitter_appends.symbols_before emitted] at lowered
  refine ⟨instrs, lowered, ?_, emitter_appends.holds emitted present (by rw [reached])⟩
  rw [offsetAt, reached]
  exact CodeBuffer.size_append _ _

end CrossAsm.Mcs51
