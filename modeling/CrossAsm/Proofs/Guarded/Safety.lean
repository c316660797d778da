import CrossAsm.Proofs.Guarded.Mcs51
import CrossAsm.Proofs.Guarded.X64

/-!
Generation never trips (`generation_never_trips`): with a guard at every sum, difference, shift count,
index and case that could go wrong, it comes to an image or a report on any heap, and on a heap that
grants the memory there is these are the image or the report that it gives without guards.
-/
namespace CrossAsm

open Guarded (Safe Agrees)

theorem safe_generate (heap : Heap) (arch : Arch) {program : List Instruction}
    (few : program.length < programLimit)
    (little : storageBefore 8 program program.length < 0x4000000000000000) :
    Safe (fun image => image.codeSize ≤ image.code.size) (guardedGenerate heap arch program) := by
  cases arch with
  | mcs51 => exact Mcs51.safe_generate heap few
  | x64 => exact X64.safe_generate heap few little

theorem agrees_generate (memory : Memory) (arch : Arch) (program : List Instruction) :
    Agrees .rejected (guardedGenerate memory.heap arch program) (generate memory arch program) := by
  cases arch with
  | mcs51 => exact Mcs51.agrees_generate memory program
  | x64 => exact X64.agrees_generate memory program

/-- A program of fewer than 2³² instructions that declares less than 2⁶² bytes of data is assembled to
an image whose code lies inside it, or rejected with a report, and no guard is ever met, whatever the
heap grants. Nothing else than the guards tells this from generation, whatever memory there is. -/
theorem generation_never_trips (heap : Heap) (memory : Memory) (arch : Arch) (program : List Instruction)
    (few : program.length < 0x100000000)
    (little : storageBefore 8 program program.length < 0x4000000000000000) :
    ((∃ image, guardedGenerate heap arch program = .ok image ∧ image.codeSize ≤ image.code.size) ∨
      ∃ report, guardedGenerate heap arch program = .error (.fault report)) ∧
    ((∃ image, generate memory arch program = .ok image ∧ image.codeSize ≤ image.code.size ∧
        guardedGenerate memory.heap arch program = .ok image) ∨
      ∃ report, generate memory arch program = .error (.rejected report) ∧
        guardedGenerate memory.heap arch program = .error (.fault report)) := by
  have safe := safe_generate heap arch few little
  have limited := safe_generate memory.heap arch few little
  have same := agrees_generate memory arch program
  refine ⟨?_, ?_⟩
  · generalize guardedGenerate heap arch program = result at safe
    cases safe with
    | ok inside => exact .inl ⟨_, rfl, inside⟩
    | fault report => exact .inr ⟨report, rfl⟩
  · generalize guardedGenerate memory.heap arch program = result,
      generate memory arch program = plain at limited same
    cases limited with
    | ok inside =>
      cases same with
      | ok => exact .inl ⟨_, rfl, inside, rfl⟩
    | fault report =>
      cases same with
      | fault => exact .inr ⟨report, rfl, rfl⟩

/-- The last address there is leaves no room for the call, nor memory for the code before it. -/
theorem generation_never_trips_at_last_address :
    let program : List Instruction :=
      [⟨.buffer "table" 64, ⟨1, 1⟩⟩, ⟨.org 0x7FFFFFFFFFFFFFFF, ⟨2, 1⟩⟩, ⟨.call "after", ⟨3, 1⟩⟩,
        ⟨.label "after", ⟨4, 1⟩⟩, ⟨.get ⟨0⟩ "table", ⟨5, 1⟩⟩]
    program.length < 0x100000000 ∧ storageBefore 8 program program.length < 0x4000000000000000 ∧
    generate .ofProcess .x64 program = .error (.rejected ⟨.nowhere, .outOfMemory⟩) ∧
    guardedGenerate (Memory.heap .ofProcess) .x64 program = .error (.fault ⟨.nowhere, .outOfMemory⟩) := by
  intro program
  have few : program.length < 0x100000000 := by decide
  have little : storageBefore 8 program program.length < 0x4000000000000000 := by decide
  have refused : generate .ofProcess .x64 program = .error (.rejected ⟨.nowhere, .outOfMemory⟩) := rfl
  refine ⟨few, little, refused, ?_⟩
  obtain ⟨_, ⟨image, accepted, _⟩ | ⟨report, rejected, met⟩⟩ :=
    generation_never_trips (Memory.heap .ofProcess) .ofProcess .x64 program few little
  · cases accepted.symm.trans refused
  · cases rejected.symm.trans refused
    exact met

end CrossAsm
