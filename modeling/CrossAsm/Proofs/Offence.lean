import CrossAsm.Proofs.X64.Acceptance

/-!
The instruction to blame. Generation stops at the first instruction that cannot be laid out, else at the
first for which no code can be emitted, and on x86-64 else at the first whose displacement cannot be filled
in. Whenever there is no image, the fault is that of such an instruction and has its position, or else
there is no memory and no instruction is to blame (`generate_eq_error`).
-/
namespace CrossAsm

variable {memory : Memory}

/-- Layout goes on up to this instruction and cannot place it. -/
def Layout.StopsAt {σ : Type} (sizer : Sizer) (allocator : Allocator σ) (l : Layout σ)
    (program : List Instruction) (index : Nat) (i : Instruction) (fault : Fault) : Prop :=
  (run sizer allocator l (program.take index)).2 = none ∧
    ∃ left, step sizer allocator i.op (before sizer allocator l program index) = .error fault left

/-- Emission goes on up to this instruction and cannot emit it. -/
def Emitter.StopsAt {σ : Type} (e : Emitter σ) (s : σ) (program : List Instruction) (index : Nat)
    (i : Instruction) (fault : Fault) : Prop :=
  (e.run s (program.take index)).2 = none ∧
    ∃ after, e.emitOne i (e.before s program index) = .error fault after

theorem Layout.stopsAt_of_run {σ : Type} {sizer : Sizer} {allocator : Allocator σ} {l : Layout σ}
    {program : List Instruction} {report : FaultAt}
    (failed : (run sizer allocator l program).2 = some report) :
    ∃ index i, program[index]? = some i ∧ i.pos = report.pos ∧
      StopsAt sizer allocator l program index i report.fault := by
  obtain ⟨index, i, left, present, place, passed, stopped⟩ := fault_of_run failed
  exact ⟨index, i, present, place, passed, left, stopped⟩

theorem Emitter.stopsAt_of_run {σ : Type} {e : Emitter σ} {s : σ} {program : List Instruction}
    {report : FaultAt} (failed : (e.run s program).2 = some report) :
    ∃ index i, program[index]? = some i ∧ i.pos = report.pos ∧
      e.StopsAt s program index i report.fault := by
  obtain ⟨index, i, after, present, place, passed, stopped⟩ := fault_of_run failed
  exact ⟨index, i, present, place, passed, after, stopped⟩

/-- Generation of 8051 code fails because of the instruction at `index`. -/
inductive Mcs51.Offends (memory : Memory) (program : List Instruction) (index : Nat)
    (i : Instruction) (fault : Fault) : Prop
  | layout (stops : Layout.StopsAt sizer Ram.allocator { storage := {} } program index i fault)
  | emission (laid : (layoutOf program).2 = none)
    (stops : (emitter memory).StopsAt (start program) program index i fault)

/-- Generation of x86-64 code fails because of the instruction at `index`. -/
inductive X64.Offends (memory : Memory) (program : List Instruction) (index : Nat)
    (i : Instruction) (fault : Fault) : Prop
  | layout (stops : Layout.StopsAt sizer (Data.allocator memory) { storage := {} } program index i fault)
  | emission (laid : (layoutOf memory program).2 = none)
    (stops : (emitter memory).StopsAt (start memory program) program index i fault)
  | relocation (laid : (layoutOf memory program).2 = none) (emitted : (emissionOf memory program).2 = none)
    {r : Relocation} (kept : relocationAt memory program index = some r)
    (earlier : ∀ before < index, ∀ other, relocationAt memory program before = some other →
      ∃ d, other.displacement (emissionOf memory program).1.symbols = .ok d)
    (undisplaced : r.displacement (emissionOf memory program).1.symbols = .error fault)

/-- Generation fails because of the instruction at `index`. -/
def Offends (memory : Memory) : Arch → List Instruction → Nat → Instruction → Fault → Prop
  | .mcs51 => Mcs51.Offends memory
  | .x64 => X64.Offends memory

variable {program : List Instruction}

namespace Mcs51

theorem offends_of_refused {failure : GenerationFailure} (refused : Refused memory program failure) :
    ∃ report, failure = .rejected report ∧ (report = ⟨.nowhere, .outOfMemory⟩ ∨
      ∃ index i, program[index]? = some i ∧ i.pos = report.pos ∧
        Offends memory program index i report.fault) := by
  cases refused with
  | layout unlaid =>
    obtain ⟨index, i, present, place, stops⟩ := Layout.stopsAt_of_run unlaid
    exact ⟨_, rfl, .inr ⟨index, i, present, place, .layout stops⟩⟩
  | memory => exact ⟨_, rfl, .inl rfl⟩
  | emission laid unemitted =>
    obtain ⟨index, i, present, place, stops⟩ := Emitter.stopsAt_of_run unemitted
    exact ⟨_, rfl, .inr ⟨index, i, present, place, .emission laid stops⟩⟩

end Mcs51

namespace X64

/-- A relocation is that of an instruction, and those before it are of earlier instructions. -/
theorem exists_relocationAt_of_append (emitted : (emissionOf memory program).2 = none)
    {earlier later : List Relocation} {r : Relocation}
    (parts : (emissionOf memory program).1.relocations = earlier ++ r :: later) :
    ∃ index, relocationAt memory program index = some r ∧
      ∀ before < index, ∀ other, relocationAt memory program before = some other → other ∈ earlier := by
  rw [relocations_emissionOf emitted] at parts
  obtain ⟨front, back, all, rfl, rest⟩ := List.filterMap_eq_append_iff.mp parts
  obtain ⟨skipped, index, others, rfl, unkept, kept, rfl⟩ := List.filterMap_eq_cons_iff.mp rest
  refine ⟨index, kept, ?_⟩
  intro before order other found
  -- the indices rise, so an earlier one stands in the front or among those skipped
  have rise := List.pairwise_lt_range (n := program.length)
  have last : index ∈ List.range program.length := by simp [all]
  have among : before ∈ List.range program.length := by
    rw [List.mem_range] at last ⊢
    omega
  rw [all] at among rise
  simp only [List.mem_append, List.mem_cons] at among
  rcases among with inFront | inSkipped | rfl | beyond
  · exact List.mem_filterMap.mpr ⟨before, inFront, found⟩
  · rw [unkept before inSkipped] at found
    cases found
  · omega
  · have later := (List.pairwise_cons.mp (List.pairwise_append.mp
      (List.pairwise_append.mp rise).2.1).2.1).1 before beyond
    omega

theorem offends_of_refused {failure : GenerationFailure} (refused : Refused memory program failure) :
    ∃ report, failure = .rejected report ∧ (report = ⟨.nowhere, .outOfMemory⟩ ∨
      ∃ index i, program[index]? = some i ∧ i.pos = report.pos ∧
        Offends memory program index i report.fault) := by
  cases refused with
  | layout unlaid =>
    obtain ⟨index, i, present, place, stops⟩ := Layout.stopsAt_of_run unlaid
    exact ⟨_, rfl, .inr ⟨index, i, present, place, .layout stops⟩⟩
  | memory => exact ⟨_, rfl, .inl rfl⟩
  | emission laid _ unemitted =>
    obtain ⟨index, i, present, place, stops⟩ := Emitter.stopsAt_of_run unemitted
    exact ⟨_, rfl, .inr ⟨index, i, present, place, .emission laid stops⟩⟩
  | relocation laid _ emitted unresolved =>
    obtain ⟨earlier, r, later, parts, resolved, place, undisplaced⟩ :=
      Relocation.exists_append_of_resolveAll_rejected unresolved
    obtain ⟨index, kept, first⟩ := exists_relocationAt_of_append emitted parts
    obtain ⟨i, present, made⟩ := Option.bind_eq_some_iff.mp kept
    obtain ⟨site, _, rfl⟩ := Option.map_eq_some_iff.mp made
    refine ⟨_, rfl, .inr ⟨index, i, present, place, ?_⟩⟩
    exact .relocation laid emitted kept
      (fun before order other found => resolved other (first before order other found)) undisplaced
  | misplaced emitted outside => exact absurd outside (resolveAll_ne_outside emitted)
  | data => exact ⟨_, rfl, .inl rfl⟩

end X64

/-- Generation fails because of an instruction, and the fault has its position, or there is no memory. -/
theorem generate_eq_error {arch : Arch} {failure : GenerationFailure}
    (failed : generate memory arch program = .error failure) :
    ∃ report, failure = .rejected report ∧ (report = ⟨.nowhere, .outOfMemory⟩ ∨
      ∃ index i, program[index]? = some i ∧ i.pos = report.pos ∧
        Offends memory arch program index i report.fault) := by
  cases arch with
  | mcs51 => exact Mcs51.offends_of_refused (Mcs51.refused_of_generate failed)
  | x64 => exact X64.offends_of_refused (X64.refused_of_generate failed)

end CrossAsm
