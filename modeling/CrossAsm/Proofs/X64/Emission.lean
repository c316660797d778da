import CrossAsm.Proofs.Emission
import CrossAsm.Proofs.Generation
import CrossAsm.Proofs.X64.CodeSize

/-!
Emission for x86-64, over a whole program: what an instruction is lowered to stands at its offset, and
its relocations are added to those kept before (`lowered_at`).
-/
namespace CrossAsm.X64

variable {memory : Memory}

variable {program : List Instruction} {index : Nat} {op : Operation} {pos : Position}

theorem emitter_padsWith : (emitter memory).PadsWith memory Output.view 0x90 where
  lawful := ⟨fun _ _ => rfl, fun _ => rfl, fun _ _ _ => rfl⟩
  offset _ := rfl
  pad _ := rfl

theorem emitter_appends : (emitter memory).Appends Output.symbols Output.code := by
  refine emitter_padsWith.appends (fun _ _ => rfl) fun op pos out after ran => ?_
  obtain ⟨steps, lowered, rfl⟩ := Output.emit_eq_ok ran
  exact ⟨rfl, _, rfl, lower_size lowered⟩

/-- The code of an instruction stands at its offset, in the whole code, and its relocations come after
those of the instructions before it. -/
theorem lowered_at (emitted : (emissionOf memory program).2 = none)
    (present : program[index]? = some ⟨op, pos⟩) (isCode : op.isCode) :
    ∃ steps : List Step, lower (start memory program).symbols op = steps.map .ok ∧
      offsetAt memory program (index + 1) =
        offsetAt memory program index + (steps.flatMap Step.bytes).length ∧
      Holds (emissionOf memory program).1.code.bytes (offsetAt memory program index)
        (steps.flatMap Step.bytes) ∧
      ((emitter memory).before (start memory program) program (index + 1)).relocations =
        ((emitter memory).before (start memory program) program index).relocations ++
          Output.relocationsOf pos (offsetAt memory program index) steps := by
  obtain ⟨steps, lowered, reached⟩ :=
    Output.emit_eq_ok (Emitter.ran_before emitted present isCode)
  rw [emitter_appends.symbols_before emitted] at lowered
  refine ⟨steps, lowered, ?_, emitter_appends.holds emitted present (by rw [reached]), ?_⟩
  · rw [offsetAt, reached]
    exact CodeBuffer.size_append _ _
  · rw [reached]
    rfl

/-- Instructions that do not become code have no relocations. -/
theorem relocations_of_not_isCode (emitted : (emissionOf memory program).2 = none)
    (present : program[index]? = some ⟨op, pos⟩) (notCode : op.isCode = false) :
    ((emitter memory).before (start memory program) program (index + 1)).relocations =
      ((emitter memory).before (start memory program) program index).relocations := by
  have stepped := Emitter.emitted_before emitted present
  generalize (emitter memory).before (start memory program) program (index + 1) = after at stepped ⊢
  generalize (emitter memory).before (start memory program) program index = out at stepped ⊢
  cases stepped with
  | label | var | buffer => rfl
  | org padded =>
    obtain ⟨_, rfl⟩ := emitter_padsWith.pad_eq_ok_iff.mp padded
    rfl
  | code isCode =>
    rw [notCode] at isCode
    cases isCode

end CrossAsm.X64
