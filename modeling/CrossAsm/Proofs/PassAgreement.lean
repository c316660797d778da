import CrossAsm.Proofs.Mcs51.Emission
import CrossAsm.Proofs.Relocation
import CrossAsm.Proofs.X64.Emission

/-!
Agreement of the two passes. Layout counts promised sizes and jumps at `org`; emission counts bytes and
pads at `org`. Over a program that both accept they keep step: at every instruction the program
counter of layout is the offset of emission. So labels are recorded where their code starts, `org` is
met exactly, and the size of the code is the one laid out.
-/
namespace CrossAsm

variable {memory : Memory}

variable {σ τ : Type} {e : Emitter σ} {space : Option Nat} {allocator : Allocator τ}

/-- Padding advances the offset by as many bytes as are asked for. -/
def Emitter.PadsExactly (e : Emitter σ) : Prop :=
  ∀ count s after, e.pad count s = .ok () after → e.offset after = e.offset s + count

/-- The two passes keep step over a program. -/
structure InStep (sizer : Sizer) (allocator : Allocator τ) (storage : τ) (e : Emitter σ) (s : σ)
    (program : List Instruction) : Prop where
  /-- At every instruction, and at the end, the program counter is the offset. -/
  counter : ∀ index ≤ program.length,
    (Layout.before sizer allocator { storage } program index).pc = e.offset (e.before s program index)
  /-- The labels are those of the program, each at the offset at which it is met. -/
  label : ∀ name address,
    (Layout.run sizer allocator { storage } program).1.symbols.get? name = some ⟨.label, address⟩ ↔
      ∃ index pos, program[index]? = some ⟨.label name, pos⟩ ∧
        address = e.offset (e.before s program index)
  /-- What follows an `org` stands at its address. -/
  org : ∀ index address pos, program[index]? = some ⟨.org address, pos⟩ →
    (e.offset (e.before s program (index + 1)) : Int) = address.toInt
  size : e.offset (e.run s program).1 = (Layout.run sizer allocator { storage } program).1.pc

theorem toNat_toUInt64_of_nonneg {address : Int64} (nonneg : 0 ≤ address.toInt) :
    address.toUInt64.toNat = address.toInt.toNat :=
  Int64.toNat_toUInt64_of_le (Int64.le_iff_toInt_le.mpr nonneg)

/-- One instruction moves both passes by the same amount. -/
theorem pc_eq_offset_of_step (pads : e.PadsExactly) {l next : Layout τ} {i : Instruction}
    {s after : σ} (placed : Layout.Placed ⟨e.sizeOf, space⟩ allocator l i.op next)
    (emitted : e.Emitted s i after) (here : l.pc = e.offset s) : next.pc = e.offset after := by
  cases emitted with
  | label =>
    cases placed with
    | label => exact here
    | code isCode => cases isCode
  | var =>
    cases placed with
    | var => exact here
    | code isCode => cases isCode
  | buffer =>
    cases placed with
    | buffer => exact here
    | code isCode => cases isCode
  | @org address pos _ padded =>
    cases placed with
    | org forward =>
      have reached := pads _ _ _ padded
      rw [toNat_toUInt64_of_nonneg (by omega)] at reached
      simp only
      omega
    | code isCode => cases isCode
  | code isCode sized ran grown =>
    cases placed with
    | code _ again =>
      have same := Except.ok.inj (sized.symm.trans again)
      rw [grown, ← here, same]
    | label | var | buffer | org => cases isCode

theorem inStep_of_passes (pads : e.PadsExactly) {storage : τ} {s : σ} {program : List Instruction}
    (start : e.offset s = 0)
    (laid : (Layout.run ⟨e.sizeOf, space⟩ allocator { storage } program).2 = none)
    (emitted : (e.run s program).2 = none) :
    InStep ⟨e.sizeOf, space⟩ allocator storage e s program := by
  have counter : ∀ index ≤ program.length,
      (Layout.before ⟨e.sizeOf, space⟩ allocator { storage } program index).pc =
        e.offset (e.before s program index) :=
    Emitter.invariant (P := fun index state =>
      (Layout.before ⟨e.sizeOf, space⟩ allocator { storage } program index).pc = e.offset state)
      emitted start.symm fun index i next present here ran =>
        pc_eq_offset_of_step pads (Layout.placed_before laid present)
          (Emitter.emitOne_eq_ok_iff.mp ran) here
  refine ⟨counter, ?_, ?_, ?_⟩
  · intro name address
    rw [Layout.get?_run_iff laid rfl]
    constructor
    · rintro ⟨index, ⟨op, pos⟩, present, declares⟩
      have within : index ≤ program.length := Nat.le_of_lt (List.getElem?_eq_some_iff.mp present).1
      cases declares with
      | label => exact ⟨index, pos, present, counter index within⟩
    · rintro ⟨index, pos, present, rfl⟩
      have within : index ≤ program.length := Nat.le_of_lt (List.getElem?_eq_some_iff.mp present).1
      refine ⟨index, _, present, ?_⟩
      rw [← counter index within]
      exact .label
  · intro index address pos present
    have within : index + 1 ≤ program.length := (List.getElem?_eq_some_iff.mp present).1
    rw [← counter (index + 1) within]
    exact (Layout.placed_before laid present).pc_of_org
  · have last := counter program.length (Nat.le_refl _)
    rw [Layout.before_length, Emitter.before_length] at last
    exact last.symm

theorem InStep.offset_le {sizer : Sizer} {storage : τ} {s : σ} {program : List Instruction}
    (inStep : InStep sizer allocator storage e s program) {symbols : σ → SymbolTable}
    {code : σ → CodeBuffer} (appends : e.Appends symbols code) (emitted : (e.run s program).2 = none)
    {index : Nat} (within : index ≤ program.length) :
    e.offset (e.before s program index) ≤ (Layout.run sizer allocator { storage } program).1.pc := by
  rw [← inStep.size]
  exact appends.offset_le_run emitted within

theorem Emitter.Appends.padsExactly {symbols : σ → SymbolTable} {code : σ → CodeBuffer}
    (appends : e.Appends symbols code) : e.PadsExactly := by
  intro count s after padded
  obtain ⟨_, bytes, rfl, added⟩ := appends.pad _ _ _ padded
  rw [appends.offset, appends.offset, added, CodeBuffer.size_append]

namespace Mcs51

variable {program : List Instruction} {image : Image}

theorem inStep_of_generate (accepted : Mcs51.generate memory program = .ok image) :
    InStep sizer Ram.allocator {} (emitter memory) (start program) program := by
  obtain ⟨laid, _, emitted, _⟩ := generate_eq_ok_iff.mp accepted
  exact inStep_of_passes emitter_appends.padsExactly rfl laid emitted

theorem size_emissionOf (accepted : Mcs51.generate memory program = .ok image) :
    (emissionOf memory program).1.code.size = (layoutOf program).1.pc :=
  (inStep_of_generate accepted).size

theorem codeSize_of_generate (accepted : Mcs51.generate memory program = .ok image) :
    image.codeSize = (layoutOf program).1.pc := by
  obtain ⟨_, _, _, rfl⟩ := generate_eq_ok_iff.mp accepted
  exact size_emissionOf accepted

theorem length_instructions (accepted : Mcs51.generate memory program = .ok image) :
    image.instructions.length = (layoutOf program).1.pc := by
  rw [Image.instructions, List.length_take, codeSize_of_generate accepted, ← size_emissionOf accepted]
  obtain ⟨_, _, _, rfl⟩ := generate_eq_ok_iff.mp accepted
  exact Nat.min_self _

theorem symbols_of_generate (accepted : Mcs51.generate memory program = .ok image) :
    image.symbols = (layoutOf program).1.symbols := by
  obtain ⟨_, _, emitted, rfl⟩ := generate_eq_ok_iff.mp accepted
  exact emitter_appends.symbols_run emitted

/-- The labels of an image are those of the program, each at the offset of what follows it. -/
theorem label_of_generate (accepted : Mcs51.generate memory program = .ok image) {name : String}
    {address : Nat} :
    image.symbols.get? name = some ⟨.label, address⟩ ↔
      ∃ index pos, program[index]? = some ⟨.label name, pos⟩ ∧ address = offsetAt memory program index := by
  rw [symbols_of_generate accepted]
  exact (inStep_of_generate accepted).label name address

end Mcs51

namespace X64

variable {program : List Instruction} {image : Image}

theorem inStep_of_generate (accepted : X64.generate memory program = .ok image) :
    InStep sizer (Data.allocator memory) {} (emitter memory) (start memory program) program := by
  obtain ⟨laid, _, emitted, _⟩ := generate_eq_ok_iff.mp accepted
  exact inStep_of_passes emitter_appends.padsExactly rfl laid emitted

theorem size_emissionOf (accepted : X64.generate memory program = .ok image) :
    (emissionOf memory program).1.code.size = (layoutOf memory program).1.pc :=
  (inStep_of_generate accepted).size

theorem codeSize_of_generate (accepted : X64.generate memory program = .ok image) :
    image.codeSize = (layoutOf memory program).1.pc := by
  obtain ⟨_, _, _, _, _, _, rfl⟩ := generate_eq_ok_iff.mp accepted
  rfl

theorem length_instructions (accepted : X64.generate memory program = .ok image) :
    image.instructions.length = (layoutOf memory program).1.pc := by
  obtain ⟨code, resolved, whole⟩ := resolved_of_generate accepted
  have size : code.size = (layoutOf memory program).1.pc :=
    (Relocation.size_of_resolveAll resolved).trans (size_emissionOf accepted)
  rw [Image.instructions, List.length_take, codeSize_of_generate accepted, whole,
    CodeBuffer.toList_append, List.length_append, Array.length_toList]
  -- the data stand behind the code, so the image is no shorter than the code
  apply Nat.min_eq_left
  rw [← size, CodeBuffer.size]
  exact Nat.le_add_right _ _

theorem symbols_of_generate (accepted : X64.generate memory program = .ok image) :
    image.symbols = (layoutOf memory program).1.symbols.rebaseData (layoutOf memory program).1.pc := by
  obtain ⟨_, _, emitted, _, _, _, rfl⟩ := generate_eq_ok_iff.mp accepted
  exact emitter_appends.symbols_run emitted

/-- The labels of an image are those of the program, each at the offset of what follows it. -/
theorem label_of_generate (accepted : X64.generate memory program = .ok image) {name : String}
    {address : Nat} :
    image.symbols.get? name = some ⟨.label, address⟩ ↔
      ∃ index pos, program[index]? = some ⟨.label name, pos⟩ ∧ address = offsetAt memory program index := by
  rw [symbols_of_generate accepted]
  exact SymbolTable.get?_rebaseData_eq_label_iff.trans
    ((inStep_of_generate accepted).label name address)

end X64

/-- The two passes agree. For any emitter that pads exactly, a program that is laid out by its sizes and
then emitted keeps both passes in step. Both generators are such, and so the code of an image has the
size laid out, and its labels are where the code after them starts. -/
theorem passes_agree (memory : Memory) :
    (∀ (σ τ : Type) (e : Emitter σ) (space : Option Nat) (allocator : Allocator τ) (storage : τ)
        (s : σ) (program : List Instruction), e.PadsExactly → e.offset s = 0 →
      (Layout.run ⟨e.sizeOf, space⟩ allocator { storage } program).2 = none →
      (e.run s program).2 = none → InStep ⟨e.sizeOf, space⟩ allocator storage e s program) ∧
    (∀ program image, generate memory .mcs51 program = .ok image →
      InStep Mcs51.sizer Mcs51.Ram.allocator {} (Mcs51.emitter memory) (Mcs51.start program) program ∧
      image.codeSize = (Mcs51.layoutOf program).1.pc ∧
      image.instructions.length = (Mcs51.layoutOf program).1.pc ∧
      ∀ name address, image.symbols.get? name = some ⟨.label, address⟩ ↔
        ∃ index pos, program[index]? = some ⟨.label name, pos⟩ ∧
          address = Mcs51.offsetAt memory program index) ∧
    (∀ program image, generate memory .x64 program = .ok image →
      InStep X64.sizer (X64.Data.allocator memory) {} (X64.emitter memory) (X64.start memory program)
        program ∧
      image.codeSize = (X64.layoutOf memory program).1.pc ∧
      image.instructions.length = (X64.layoutOf memory program).1.pc ∧
      ∀ name address, image.symbols.get? name = some ⟨.label, address⟩ ↔
        ∃ index pos, program[index]? = some ⟨.label name, pos⟩ ∧
          address = X64.offsetAt memory program index) := by
  refine ⟨?_, ?_, ?_⟩
  · intro σ τ e space allocator storage s program pads start laid emitted
    exact inStep_of_passes pads start laid emitted
  · intro program image accepted
    exact ⟨Mcs51.inStep_of_generate accepted, Mcs51.codeSize_of_generate accepted,
      Mcs51.length_instructions accepted, fun _ _ => Mcs51.label_of_generate accepted⟩
  · intro program image accepted
    exact ⟨X64.inStep_of_generate accepted, X64.codeSize_of_generate accepted,
      X64.length_instructions accepted, fun _ _ => X64.label_of_generate accepted⟩

/-- A jump over padding: it takes three bytes on one machine and five on the other, and what follows the
padding is at sixteen on both, with program memory bounded or not. -/
theorem passes_agree_over_padding :
    let program : List Instruction :=
      [⟨.jmp "end", ⟨1, 1⟩⟩, ⟨.org 16, ⟨2, 1⟩⟩, ⟨.label "end", ⟨3, 1⟩⟩, ⟨.ret, ⟨4, 1⟩⟩]
    InStep ⟨Mcs51.sizeOf, none⟩ Mcs51.Ram.allocator {} (Mcs51.emitter .ofProcess) (Mcs51.start program)
      program ∧
    (∃ image, generate .ofProcess .mcs51 program = .ok image ∧ image.instructions.length = 17 ∧
      image.symbols.get? "end" = some ⟨.label, 16⟩) ∧
    (∃ image, generate .ofProcess .x64 program = .ok image ∧ image.instructions.length = 17 ∧
      image.symbols.get? "end" = some ⟨.label, 16⟩) := by
  intro program
  obtain ⟨inStep, onMcs51, onX64⟩ := passes_agree .ofProcess
  refine ⟨?_, ?_, ?_⟩
  · exact inStep _ _ (Mcs51.emitter .ofProcess) none Mcs51.Ram.allocator {} (Mcs51.start program) program
      Mcs51.emitter_appends.padsExactly rfl (by decide +kernel) (by decide +kernel)
  · obtain ⟨image, generated⟩ : ∃ image, generate .ofProcess .mcs51 program = .ok image := ⟨_, rfl⟩
    obtain ⟨_, _, length, label⟩ := onMcs51 program image generated
    exact ⟨image, generated, length.trans (by decide +kernel),
      (label _ _).mpr ⟨2, _, rfl, by decide +kernel⟩⟩
  · obtain ⟨image, generated⟩ : ∃ image, generate .ofProcess .x64 program = .ok image := ⟨_, rfl⟩
    obtain ⟨_, _, length, label⟩ := onX64 program image generated
    exact ⟨image, generated, length.trans (by decide +kernel),
      (label _ _).mpr ⟨2, _, rfl, by decide +kernel⟩⟩

end CrossAsm
