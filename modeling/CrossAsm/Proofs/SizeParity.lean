import CrossAsm.Proofs.Generation
import CrossAsm.Proofs.Mcs51.Attribution
import CrossAsm.Proofs.X64.Attribution

/-!
Sizes and code agree, operation by operation: what can be emitted takes as many bytes as its size says,
and what has no size cannot be emitted. So generation never finds code that is not as long as
promised.
-/
namespace CrossAsm

variable {memory : Memory}

/-- Emission and sizes agree on every operation, in every state. -/
structure Emitter.KeepsSizes {σ : Type} (e : Emitter σ) (code : σ → CodeBuffer) : Prop where
  /-- What is emitted adds as many bytes as its size says. -/
  emitted : ∀ op pos s after, e.emit op pos s = .ok () after →
    ∃ bytes : List UInt8, (code after).bytes.toList = (code s).bytes.toList ++ bytes ∧
      e.sizeOf op = .ok bytes.length
  /-- What has no size is not emitted. -/
  unsized : ∀ op pos s fault, e.sizeOf op = .error fault →
    ∃ reason after, e.emit op pos s = .error reason after

theorem Emitter.Appends.keepsSizes {σ : Type} {e : Emitter σ} {symbols : σ → SymbolTable}
    {code : σ → CodeBuffer} (appends : e.Appends symbols code) : e.KeepsSizes code where
  emitted op pos s after ran := by
    obtain ⟨_, bytes, added, sized⟩ := appends.emit op pos s after ran
    refine ⟨bytes, ?_, sized⟩
    rw [added, CodeBuffer.toList_append]
  unsized op pos s fault unsized := appends.emit_of_unsized unsized pos s

variable {program : List Instruction} {report : FaultAt}

theorem Mcs51.attributable_generate (failed : Mcs51.generate memory program = .error (.rejected report)) :
    report.fault.isInternal = false := by
  cases Mcs51.refused_of_generate failed with
  | layout unlaid => exact Layout.attributable_run attributable_sizeOf Ram.allocator_external unlaid
  | memory => rfl
  | emission _ unemitted => exact emitter_appends.attributable_run emitter_external unemitted

theorem X64.attributable_generate (failed : X64.generate memory program = .error (.rejected report)) :
    report.fault.isInternal = false := by
  cases X64.refused_of_generate failed with
  | layout unlaid => exact Layout.attributable_run attributable_sizeOf Data.allocator_external unlaid
  | memory | data => rfl
  | emission _ _ unemitted => exact emitter_appends.attributable_run emitter_external unemitted
  | relocation _ _ _ unresolved => exact Relocation.attributable_resolveAll unresolved

theorem attributable_generate {arch : Arch}
    (failed : generate memory arch program = .error (.rejected report)) :
    report.fault.isInternal = false := by
  cases arch with
  | mcs51 => exact Mcs51.attributable_generate failed
  | x64 => exact X64.attributable_generate failed

/-- On both machines emission and sizes agree, and generation never ends because code is not as long as
promised. -/
theorem emission_keeps_to_sizes :
    (Mcs51.emitter memory).KeepsSizes Mcs51.Output.code ∧ (X64.emitter memory).KeepsSizes X64.Output.code ∧
    ∀ arch program pos name expected actual,
      generate memory arch program ≠ .error (.rejected ⟨pos, .sizeMismatch name expected actual⟩) := by
  refine ⟨Mcs51.emitter_appends.keepsSizes, X64.emitter_appends.keepsSizes, ?_⟩
  intro arch program pos name expected actual failed
  cases attributable_generate failed

/-- A division on x86-64, which takes eleven native instructions, adds the 24 bytes that its size says;
a countdown has no size there, and is refused. -/
theorem emission_keeps_to_sizes_of_division :
    let divide : Operation := .product .div ⟨1⟩ (.imm 3)
    (∃ after, (X64.emitter .ofProcess).emit divide ⟨1, 1⟩ {} = .ok () after ∧
      after.code.bytes.toList.length = 24) ∧
    (∃ reason after, (X64.emitter .ofProcess).emit (.djnz ⟨1⟩ "again") ⟨1, 1⟩ {} = .error reason after) ∧
    ∀ pos, generate .ofProcess .x64 [⟨divide, ⟨1, 1⟩⟩] ≠
      .error (.rejected ⟨pos, .sizeMismatch divide.name 24 25⟩) := by
  intro divide
  obtain ⟨_, keeps, never⟩ := emission_keeps_to_sizes
  refine ⟨?_, keeps.unsized _ _ _ _ rfl, fun pos => never _ _ pos _ _ _⟩
  obtain ⟨after, ran⟩ : ∃ after, (X64.emitter .ofProcess).emit divide ⟨1, 1⟩ {} = .ok () after := ⟨_, rfl⟩
  obtain ⟨bytes, added, sized⟩ := keeps.emitted _ _ _ _ ran
  have size : X64.sizeOf divide = .ok 24 := rfl
  have length : 24 = bytes.length := Except.ok.inj (size.symm.trans sized)
  refine ⟨after, ran, ?_⟩
  rw [added, List.length_append, ← length]
  rfl

end CrossAsm
