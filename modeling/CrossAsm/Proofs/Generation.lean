import CrossAsm.Generation
import CrossAsm.Proofs.Checked
import CrossAsm.Proofs.CodeBuffer
import CrossAsm.Proofs.Pass

/-!
Generation as the passes it is made of. An image comes out exactly when every pass succeeds, and its
parts are those that the passes leave (`generate_eq_ok_iff` of either machine). Otherwise one of them
fails (`Refused`).
-/
namespace CrossAsm

variable {memory : Memory}

theorem imageBuffer_eq_ok_iff {capacity : Nat} {code : CodeBuffer} :
    imageBuffer memory capacity = .ok code ↔ capacity < memory.limit ∧ code = .empty := by
  rw [← CodeBuffer.withCapacity_eq_ok_iff, imageBuffer]
  cases CodeBuffer.withCapacity memory capacity with
  | ok made =>
    constructor
    · intro same
      cases same
      rfl
    · intro same
      cases same
      rfl
  | error fault =>
    constructor
    · intro failed
      cases failed
    · intro failed
      cases failed

theorem passed_eq_ok_iff {α : Type} {value result : α} {fault : Option FaultAt} :
    passed value fault = .ok result ↔ fault = none ∧ result = value := by
  cases fault <;> simp [passed, eq_comm]

theorem imageBuffer_eq_error {capacity : Nat} {failure : GenerationFailure}
    (failed : imageBuffer memory capacity = .error failure) :
    failure = .rejected ⟨.nowhere, .outOfMemory⟩ := by
  unfold imageBuffer CodeBuffer.withCapacity at failed
  split at failed
  · cases failed
  · cases failed
    rfl

theorem passed_eq_error {α : Type} {value : α} {fault : Option FaultAt} {failure : GenerationFailure}
    (failed : passed value fault = .error failure) :
    ∃ report, fault = some report ∧ failure = .rejected report := by
  cases fault with
  | none => cases failed
  | some report =>
    cases failed
    exact ⟨report, rfl, rfl⟩

namespace Mcs51

/-- The layout of a program, and why it fails if it does. -/
def layoutOf (program : List Instruction) : Layout Ram × Option FaultAt :=
  Layout.run sizer Ram.allocator { storage := {} } program

/-- Where the emission of a program starts from. -/
def start (program : List Instruction) : Output := ⟨(layoutOf program).1.symbols, .empty⟩

def emissionOf (memory : Memory) (program : List Instruction) : Output × Option FaultAt :=
  (emitter memory).run (start program) program

/-- The offset at which the code of the instruction at `index` starts. -/
def offsetAt (memory : Memory) (program : List Instruction) (index : Nat) : Nat :=
  ((emitter memory).before (start program) program index).code.size

theorem generate_eq_ok_iff {program : List Instruction} {image : Image} :
    Mcs51.generate memory program = .ok image ↔
      (layoutOf program).2 = none ∧ (layoutOf program).1.pc < memory.limit ∧
      (emissionOf memory program).2 = none ∧
      image = ⟨.mcs51, (emissionOf memory program).1.code.bytes, (emissionOf memory program).1.code.size,
        (emissionOf memory program).1.symbols, (layoutOf program).1.storage.image⟩ := by
  unfold Mcs51.generate
  simp only [bind_eq_ok_iff, passed_eq_ok_iff, imageBuffer_eq_ok_iff, pure, Except.pure,
    Except.ok.injEq]
  constructor
  · rintro ⟨_, ⟨laid, _⟩, _, ⟨room, rfl⟩, _, ⟨emitted, _⟩, rfl⟩
    exact ⟨laid, room, emitted, rfl⟩
  · rintro ⟨laid, room, emitted, rfl⟩
    exact ⟨(), ⟨laid, trivial⟩, .empty, ⟨room, rfl⟩, (), ⟨emitted, trivial⟩, rfl⟩

/-- Why there is no image. -/
inductive Refused (memory : Memory) (program : List Instruction) : GenerationFailure → Prop
  | layout {report : FaultAt} (unlaid : (layoutOf program).2 = some report) :
    Refused memory program (.rejected report)
  | memory (laid : (layoutOf program).2 = none)
      (full : memory.limit ≤ (layoutOf program).1.pc) :
    Refused memory program (.rejected ⟨.nowhere, .outOfMemory⟩)
  | emission (laid : (layoutOf program).2 = none) {report : FaultAt}
      (unemitted : (emissionOf memory program).2 = some report) :
    Refused memory program (.rejected report)

theorem refused_of_generate {program : List Instruction} {failure : GenerationFailure}
    (failed : Mcs51.generate memory program = .error failure) : Refused memory program failure := by
  unfold Mcs51.generate at failed
  obtain failed | ⟨_, laid, failed⟩ := bind_eq_error_iff.mp failed
  · obtain ⟨report, unlaid, rfl⟩ := passed_eq_error failed
    exact .layout unlaid
  have laid := (passed_eq_ok_iff.mp laid).1
  obtain failed | ⟨code, made, failed⟩ := bind_eq_error_iff.mp failed
  · rw [imageBuffer_eq_error failed]
    refine .memory laid (Nat.le_of_not_lt fun room => ?_)
    cases failed.symm.trans (imageBuffer_eq_ok_iff.mpr ⟨room, rfl⟩)
  obtain ⟨_, rfl⟩ := imageBuffer_eq_ok_iff.mp made
  obtain failed | ⟨_, _, failed⟩ := bind_eq_error_iff.mp failed
  · obtain ⟨report, unemitted, rfl⟩ := passed_eq_error failed
    exact .emission laid unemitted
  · cases failed

end Mcs51

namespace X64

/-- The layout of a program, and why it fails if it does. -/
def layoutOf (memory : Memory) (program : List Instruction) : Layout Data × Option FaultAt :=
  Layout.run sizer (Data.allocator memory) { storage := {} } program

/-- Where the emission of a program starts from; the data are to follow the code. -/
def start (memory : Memory) (program : List Instruction) : Output :=
  ⟨(layoutOf memory program).1.symbols.rebaseData (layoutOf memory program).1.pc, .empty, []⟩

/-- The emission of a program, before relocations are filled in. -/
def emissionOf (memory : Memory) (program : List Instruction) : Output × Option FaultAt :=
  (emitter memory).run (start memory program) program

/-- The offset at which the code of the instruction at `index` starts. -/
def offsetAt (memory : Memory) (program : List Instruction) (index : Nat) : Nat :=
  ((emitter memory).before (start memory program) program index).code.size

theorem generate_eq_ok_iff {program : List Instruction} {image : Image} :
    X64.generate memory program = .ok image ↔
      (layoutOf memory program).2 = none ∧
      (layoutOf memory program).1.pc + (layoutOf memory program).1.storage.size < memory.limit ∧
      (emissionOf memory program).2 = none ∧
      ∃ code, Relocation.resolveAll (emissionOf memory program).1.symbols
          (emissionOf memory program).1.code (emissionOf memory program).1.relocations = .resolved code ∧
        code.fits memory (layoutOf memory program).1.storage.bytes.length ∧
        image = ⟨.x64, (code.append (layoutOf memory program).1.storage.bytes).bytes,
          (layoutOf memory program).1.pc, (emissionOf memory program).1.symbols, []⟩ := by
  unfold X64.generate
  simp only [bind_eq_ok_iff, passed_eq_ok_iff, imageBuffer_eq_ok_iff]
  constructor
  · rintro ⟨_, ⟨laid, _⟩, _, ⟨room, rfl⟩, _, ⟨emitted, _⟩, finished⟩
    refine ⟨laid, room, emitted, ?_⟩
    split at finished
    · cases finished
    · cases finished
    next code resolved =>
      split at finished
      · cases finished
      next joined extended =>
        cases finished
        obtain ⟨fits, rfl⟩ := CodeBuffer.extend_eq_ok_iff.mp extended
        exact ⟨code, resolved, fits, rfl⟩
  · rintro ⟨laid, room, emitted, code, resolved, fits, rfl⟩
    refine ⟨(), ⟨laid, trivial⟩, .empty, ⟨room, rfl⟩, (), ⟨emitted, trivial⟩, ?_⟩
    have extended := CodeBuffer.extend_eq_ok_iff.mpr ⟨fits, rfl⟩
    unfold emissionOf start layoutOf at resolved
    unfold layoutOf at extended
    simp only [resolved, extended]
    rfl

/-- Why there is no image. -/
inductive Refused (memory : Memory) (program : List Instruction) : GenerationFailure → Prop
  | layout {report : FaultAt} (unlaid : (layoutOf memory program).2 = some report) :
    Refused memory program (.rejected report)
  | memory (laid : (layoutOf memory program).2 = none)
      (full : memory.limit ≤ (layoutOf memory program).1.pc + (layoutOf memory program).1.storage.size) :
    Refused memory program (.rejected ⟨.nowhere, .outOfMemory⟩)
  | emission (laid : (layoutOf memory program).2 = none)
      (room : (layoutOf memory program).1.pc + (layoutOf memory program).1.storage.size < memory.limit)
      {report : FaultAt} (unemitted : (emissionOf memory program).2 = some report) :
    Refused memory program (.rejected report)
  | relocation (laid : (layoutOf memory program).2 = none)
      (room : (layoutOf memory program).1.pc + (layoutOf memory program).1.storage.size < memory.limit)
      (emitted : (emissionOf memory program).2 = none) {stopped : CodeBuffer} {report : FaultAt}
      (unresolved : Relocation.resolveAll (emissionOf memory program).1.symbols
        (emissionOf memory program).1.code (emissionOf memory program).1.relocations =
          .rejected stopped report) :
    Refused memory program (.rejected report)
  | misplaced (emitted : (emissionOf memory program).2 = none)
      (outside : Relocation.resolveAll (emissionOf memory program).1.symbols
        (emissionOf memory program).1.code (emissionOf memory program).1.relocations = .outside) :
    Refused memory program .misplacedRelocation
  | data (laid : (layoutOf memory program).2 = none)
      (room : (layoutOf memory program).1.pc + (layoutOf memory program).1.storage.size < memory.limit)
      (emitted : (emissionOf memory program).2 = none) {code : CodeBuffer}
      (resolved : Relocation.resolveAll (emissionOf memory program).1.symbols
        (emissionOf memory program).1.code (emissionOf memory program).1.relocations = .resolved code)
      (full : code.fits memory (layoutOf memory program).1.storage.bytes.length = false) :
    Refused memory program (.rejected ⟨.nowhere, .outOfMemory⟩)

theorem refused_of_generate {program : List Instruction} {failure : GenerationFailure}
    (failed : X64.generate memory program = .error failure) : Refused memory program failure := by
  unfold X64.generate at failed
  obtain failed | ⟨_, laid, failed⟩ := bind_eq_error_iff.mp failed
  · obtain ⟨report, unlaid, rfl⟩ := passed_eq_error failed
    exact .layout unlaid
  have laid := (passed_eq_ok_iff.mp laid).1
  obtain failed | ⟨code, made, failed⟩ := bind_eq_error_iff.mp failed
  · rw [imageBuffer_eq_error failed]
    refine .memory laid (Nat.le_of_not_lt fun room => ?_)
    cases failed.symm.trans (imageBuffer_eq_ok_iff.mpr ⟨room, rfl⟩)
  obtain ⟨room, rfl⟩ := imageBuffer_eq_ok_iff.mp made
  obtain failed | ⟨_, emitted, failed⟩ := bind_eq_error_iff.mp failed
  · obtain ⟨report, unemitted, rfl⟩ := passed_eq_error failed
    exact .emission laid room unemitted
  have emitted := (passed_eq_ok_iff.mp emitted).1
  split at failed
  next outside =>
    cases failed
    exact .misplaced emitted outside
  next stopped unresolved =>
    cases failed
    exact .relocation laid room emitted unresolved
  next code resolved =>
    split at failed
    next fault after full =>
      cases failed
      rw [CodeBuffer.extend_eq_error full]
      refine .data laid room emitted resolved (Bool.eq_false_iff.mpr fun fits => ?_)
      cases full.symm.trans (CodeBuffer.extend_eq_ok_iff.mpr ⟨fits, rfl⟩)
    next => cases failed

/-- The code of an image is the emitted code with its relocations filled in, and then the data. -/
theorem resolved_of_generate {program : List Instruction} {image : Image}
    (accepted : X64.generate memory program = .ok image) :
    ∃ code, Relocation.resolveAll image.symbols (emissionOf memory program).1.code
        (emissionOf memory program).1.relocations = .resolved code ∧
      image.code = (code.append (layoutOf memory program).1.storage.bytes).bytes := by
  obtain ⟨_, _, _, code, resolved, _, rfl⟩ := generate_eq_ok_iff.mp accepted
  exact ⟨code, resolved, rfl⟩

end X64

end CrossAsm
