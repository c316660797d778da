import CrossAsm.Proofs.Declarations
import CrossAsm.Proofs.PassAgreement

/-!
Padding. At an `org` layout jumps and emission fills in one go, while a `nop` is sized and emitted like
any other operation. Both lead each pass to the same state (`Layout.run_nops`, `Emitter.run_nops`), so
an `org` can be exchanged for as many `nop`s as it pads, and the image stays the same
(`org_pads_as_nops`).
-/
namespace CrossAsm

variable {memory : Memory}

/-- The sizes of operations on a machine. -/
def Arch.sizer : Arch → Sizer
  | mcs51 => Mcs51.sizer
  | x64 => X64.sizer

/-- Part of a program can be exchanged for what leads a pass to the same state. -/
theorem Pass.run_exchange {α : Type} {p : Pass α} {s : α} {front new : List Instruction}
    (old back : List Instruction) (same : p.run (p.run s front).1 new = p.run (p.run s front).1 old) :
    p.run s (front ++ (new ++ back)) = p.run s (front ++ (old ++ back)) := by
  simp only [run_append, same]

variable {σ τ : Type} {nops : List Instruction}

namespace Layout

variable {sizer : Sizer} {allocator : Allocator τ} {l : Layout τ}

theorem run_nops (sized : sizer.sizeOf .nop = .ok 1) (nop : ∀ i ∈ nops, i.op = .nop)
    (room : ∀ available, sizer.addressSpace = some available → l.pc + nops.length ≤ available) :
    run sizer allocator l nops = ({ l with pc := l.pc + nops.length }, none) := by
  induction nops generalizing l with
  | nil => rfl
  | cons i rest ih =>
    obtain ⟨first, others⟩ := List.forall_mem_cons.mp nop
    simp only [List.length_cons] at room ⊢
    have stepped : step sizer allocator i.op l = .ok () { l with pc := l.pc + 1 } := by
      rw [first]
      refine step_eq_ok_iff.mpr ⟨.code rfl sized, ?_⟩
      intro available space
      have := room available space
      simp only
      omega
    have rested := ih (l := { l with pc := l.pc + 1 }) others (by
      intro available space
      have := room available space
      simp only
      omega)
    rw [run, stepped]
    simp only [rested]
    rw [Nat.add_assoc, Nat.add_comm 1]

theorem counterAt_le_org {storage : τ} {program : List Instruction} {index : Nat} {address : Int64}
    {pos : Position} (laid : (run sizer allocator { storage } program).2 = none)
    (present : program[index]? = some ⟨.org address, pos⟩) :
    (sizer.counterAt program index : Int) ≤ address.toInt := by
  have within : index ≤ program.length := Nat.le_of_lt (List.getElem?_eq_some_iff.mp present).1
  have placed := (placed_before laid present).pc_le
  have target := (placed_before laid present).pc_of_org
  rw [← pc_before laid index within]
  omega

/-- Layout gets over the `nop`s to where the `org` takes it. -/
theorem run_nops_of_org {address : Int64} {next : Layout τ} (sized : sizer.sizeOf .nop = .ok 1)
    (nop : ∀ i ∈ nops, i.op = .nop) (stepped : step sizer allocator (.org address) l = .ok () next)
    (count : (nops.length : Int) = address.toInt - l.pc) :
    run sizer allocator l nops = (next, none) := by
  obtain ⟨placed, within⟩ := step_eq_ok_iff.mp stepped
  cases placed with
  | org forward =>
    have reached : l.pc + nops.length = address.toInt.toNat := by omega
    rw [run_nops sized nop, reached]
    rw [reached]
    exact within
  | code isCode => cases isCode

end Layout

namespace Emitter

variable {e : Emitter σ} {s after : σ}

/-- A `nop` is one byte of padding, and padding is done byte by byte. -/
structure NopPads (e : Emitter σ) : Prop where
  sized : e.sizeOf .nop = .ok 1
  emit : ∀ pos s, e.emit .nop pos s = e.pad 1 s
  zero : ∀ s after, e.pad 0 s = .ok () after → after = s
  succ : ∀ count s after, e.pad (count + 1) s = .ok () after →
    ∃ next, e.pad 1 s = .ok () next ∧ e.pad count next = .ok () after

theorem run_nops (nopPads : e.NopPads) (exact : e.PadsExactly) (nop : ∀ i ∈ nops, i.op = .nop)
    (padded : e.pad nops.length s = .ok () after) : e.run s nops = (after, none) := by
  induction nops generalizing s with
  | nil =>
    rw [nopPads.zero s after padded]
    rfl
  | cons i rest ih =>
    obtain ⟨first, others⟩ := List.forall_mem_cons.mp nop
    obtain ⟨next, one, more⟩ := nopPads.succ _ _ _ padded
    obtain ⟨op, pos⟩ := i
    cases first
    have emitted : e.emitOne ⟨.nop, pos⟩ s = .ok () next :=
      emitOne_eq_ok_iff.mpr
        (.code rfl nopPads.sized ((nopPads.emit pos s).trans one) (exact 1 s next one))
    rw [run, emitted]
    exact ih others more

end Emitter

section Exchange

variable {e : Emitter σ} {space : Option Nat} {allocator : Allocator τ} {storage : τ} {s : σ}
  {front back : List Instruction} {address : Int64} {pos : Position}

/-- The layout of a program in which `nop`s stand for an `org`. -/
theorem Layout.run_exchange_org {sizer : Sizer} (sized : sizer.sizeOf .nop = .ok 1)
    (laid : (run sizer allocator { storage } (front ++ ⟨.org address, pos⟩ :: back)).2 = none)
    (nop : ∀ i ∈ nops, i.op = .nop)
    (count : (nops.length : Int) = address.toInt -
      (before sizer allocator { storage } (front ++ ⟨.org address, pos⟩ :: back) front.length).pc) :
    run sizer allocator { storage } (front ++ (nops ++ back)) =
      run sizer allocator { storage } (front ++ ⟨.org address, pos⟩ :: back) := by
  have present : (front ++ ⟨.org address, pos⟩ :: back)[front.length]? =
      some (⟨.org address, pos⟩ : Instruction) := by simp
  have stepped := before_succ laid present
  rw [before, List.take_left] at count stepped
  rw [← pass_run, ← pass_run]
  refine Pass.run_exchange [⟨.org address, pos⟩] back ?_
  rw [pass_run, pass_run, pass_run, run_nops_of_org sized nop stepped count, run]
  simp only [stepped]
  rfl

/-- The emission of a program in which `nop`s stand for an `org`. -/
theorem Emitter.run_exchange_org (nopPads : e.NopPads) (exact : e.PadsExactly)
    (emitted : (e.run s (front ++ ⟨.org address, pos⟩ :: back)).2 = none)
    (nop : ∀ i ∈ nops, i.op = .nop)
    (count : nops.length = address.toUInt64.toNat -
      e.offset (e.before s (front ++ ⟨.org address, pos⟩ :: back) front.length)) :
    e.run s (front ++ (nops ++ back)) = e.run s (front ++ ⟨.org address, pos⟩ :: back) := by
  have present : (front ++ ⟨.org address, pos⟩ :: back)[front.length]? =
      some (⟨.org address, pos⟩ : Instruction) := by simp
  have emitted := before_succ emitted present
  have padded : e.pad _ _ = .ok () _ := emitted
  rw [← count] at padded
  rw [before, List.take_left] at emitted padded
  rw [← pass_run, ← pass_run]
  refine Pass.run_exchange [⟨.org address, pos⟩] back ?_
  rw [pass_run, pass_run, pass_run, run_nops nopPads exact nop padded, run, emitted]
  rfl

/-- Neither pass can tell an `org` from as many `nop`s as it pads. -/
theorem runs_exchange_org (nopPads : e.NopPads) (exact : e.PadsExactly) (start : e.offset s = 0)
    (laid : (Layout.run ⟨e.sizeOf, space⟩ allocator { storage }
      (front ++ ⟨.org address, pos⟩ :: back)).2 = none)
    (emitted : (e.run s (front ++ ⟨.org address, pos⟩ :: back)).2 = none)
    (nop : ∀ i ∈ nops, i.op = .nop)
    (count : (nops.length : Int) = address.toInt -
      Sizer.counterAt ⟨e.sizeOf, space⟩ (front ++ ⟨.org address, pos⟩ :: back) front.length) :
    Layout.run ⟨e.sizeOf, space⟩ allocator { storage } (front ++ (nops ++ back)) =
      Layout.run ⟨e.sizeOf, space⟩ allocator { storage } (front ++ ⟨.org address, pos⟩ :: back) ∧
    e.run s (front ++ (nops ++ back)) = e.run s (front ++ ⟨.org address, pos⟩ :: back) := by
  have within : front.length ≤ (front ++ (⟨.org address, pos⟩ :: back : List Instruction)).length := by
    simp
  have counter := Layout.pc_before laid front.length within
  have offset := (inStep_of_passes exact start laid emitted).counter front.length within
  rw [← counter] at count
  refine ⟨Layout.run_exchange_org nopPads.sized laid nop count, ?_⟩
  refine Emitter.run_exchange_org nopPads exact emitted nop ?_
  rw [← offset, toNat_toUInt64_of_nonneg (by omega)]
  omega

/-- The same for an `org` at an index of a program. -/
theorem runs_exchange_at {program : List Instruction} {index : Nat} (nopPads : e.NopPads)
    (exact : e.PadsExactly) (start : e.offset s = 0)
    (present : program[index]? = some ⟨.org address, pos⟩)
    (laid : (Layout.run ⟨e.sizeOf, space⟩ allocator { storage } program).2 = none)
    (emitted : (e.run s program).2 = none) (nop : ∀ i ∈ nops, i.op = .nop)
    (count : (nops.length : Int) =
      address.toInt - Sizer.counterAt ⟨e.sizeOf, space⟩ program index) :
    Layout.run ⟨e.sizeOf, space⟩ allocator { storage }
        (program.take index ++ (nops ++ program.drop (index + 1))) =
      Layout.run ⟨e.sizeOf, space⟩ allocator { storage } program ∧
    e.run s (program.take index ++ (nops ++ program.drop (index + 1))) = e.run s program := by
  obtain ⟨within, here⟩ := List.getElem?_eq_some_iff.mp present
  have parts : program.take index ++ ⟨.org address, pos⟩ :: program.drop (index + 1) = program := by
    rw [← here, ← List.drop_eq_getElem_cons within, List.take_append_drop]
  have length : (program.take index).length = index := List.length_take_of_le (Nat.le_of_lt within)
  obtain ⟨front, back, rfl, rfl⟩ : ∃ front back,
      program = front ++ ⟨.org address, pos⟩ :: back ∧ index = front.length :=
    ⟨_, _, parts.symm, length.symm⟩
  have rest : (front ++ ⟨.org address, pos⟩ :: back).drop (front.length + 1) = back := by simp
  rw [List.take_left, rest]
  exact runs_exchange_org nopPads exact start laid emitted nop count

end Exchange

namespace CodeBuffer

theorem extend_singleton (byte : UInt8) : extend memory [byte] = fill memory byte 1 := by
  unfold extend fill
  rfl

theorem fits_of_le {b : CodeBuffer} {few many : Nat} (order : few ≤ many) (room : fits memory b many) :
    fits memory b few := by
  unfold fits at *
  simp only [decide_eq_true_eq] at *
  omega

theorem fits_append {b : CodeBuffer} {bytes : List UInt8} {count : Nat}
    (room : fits memory b (count + bytes.length)) : fits memory (b.append bytes) count := by
  unfold fits at *
  simp only [size_append, decide_eq_true_eq] at *
  omega

end CodeBuffer

/-- If a `nop` is emitted as one byte of padding, so are all. -/
theorem Emitter.PadsWith.nopPads {e : Emitter σ} {v : CodeView σ} {byte : UInt8}
    (pads : e.PadsWith memory v byte) (sized : e.sizeOf .nop = .ok 1)
    (emit : ∀ pos s, e.emit .nop pos s = e.pad 1 s) : e.NopPads where
  sized := sized
  emit := emit
  zero s after padded := by
    rw [(pads.pad_eq_ok_iff.mp padded).2, List.replicate_zero, CodeBuffer.append_nil,
      pads.lawful.withCode_code]
  succ count s after padded := by
    obtain ⟨room, rfl⟩ := pads.pad_eq_ok_iff.mp padded
    refine ⟨_, pads.pad_eq_ok_iff.mpr ⟨CodeBuffer.fits_of_le (by omega) room, rfl⟩, ?_⟩
    rw [pads.pad_eq_ok_iff, pads.lawful.code_withCode, pads.lawful.withCode_withCode]
    refine ⟨CodeBuffer.fits_append room, ?_⟩
    rw [CodeBuffer.append_append, List.replicate_append_replicate, Nat.add_comm 1]

theorem putAll_single {ι : Type} (put : ι → EStateM Fault σ Unit) (i : ι) (s : σ) :
    putAll put [.ok i] s = put i s := by
  change EStateM.bind (put i) (fun _ => EStateM.pure ()) s = _
  unfold EStateM.bind
  cases put i s with
  | ok _ after => rfl
  | error fault after => rfl

variable {front back : List Instruction} {address : Int64} {pos : Position} {image : Image}

namespace Mcs51

theorem emitter_nopPads : (emitter memory).NopPads := by
  refine emitter_padsWith.nopPads rfl fun pos out => ?_
  change putAll (Output.put memory) [.ok .nop] out = Output.pad memory 1 out
  rw [putAll_single, Output.put, Output.pad, ← CodeBuffer.extend_singleton]
  rfl

/-- Programs that the passes cannot tell apart have the same image. -/
theorem generate_of_same_runs {program other : List Instruction}
    (accepted : Mcs51.generate memory program = .ok image) (layout : layoutOf other = layoutOf program)
    (emission : (emitter memory).run (start program) other = emissionOf memory program) :
    Mcs51.generate memory other = .ok image := by
  obtain ⟨laid, room, emitted, rfl⟩ := generate_eq_ok_iff.mp accepted
  have emission : emissionOf memory other = emissionOf memory program := by
    rw [emissionOf, start, layout]
    exact emission
  rw [generate_eq_ok_iff, layout, emission]
  exact ⟨laid, room, emitted, rfl⟩

end Mcs51

namespace X64

theorem emitter_nopPads : (emitter memory).NopPads := by
  refine emitter_padsWith.nopPads rfl fun pos out => ?_
  change putAll (Output.put memory pos) [.ok ⟨.nop, none⟩] out = Output.pad memory 1 out
  rw [putAll_single, Output.put, Output.pad, ← CodeBuffer.extend_singleton]
  simp only [Output.relocation?, Option.bind_eq_bind, Option.bind_none, Option.toList_none,
    List.append_nil]
  rfl

/-- Programs that the passes cannot tell apart have the same image. -/
theorem generate_of_same_runs {program other : List Instruction}
    (accepted : X64.generate memory program = .ok image)
    (layout : layoutOf memory other = layoutOf memory program)
    (emission : (emitter memory).run (start memory program) other = emissionOf memory program) :
    X64.generate memory other = .ok image := by
  obtain ⟨laid, room, emitted, code, resolved, fits, rfl⟩ := generate_eq_ok_iff.mp accepted
  have emission : emissionOf memory other = emissionOf memory program := by
    rw [emissionOf, start, layout]
    exact emission
  rw [generate_eq_ok_iff, layout, emission]
  exact ⟨laid, room, emitted, code, resolved, fits, rfl⟩

end X64

/-- An `org` is padding with `nop`s. Where a program with an image has an `org`, the program counter is
not past its address, and if as many `nop`s stand there instead as are missing, the image is the same
in all its parts. -/
theorem org_pads_as_nops (arch : Arch) (program : List Instruction) (image : Image)
    (accepted : generate memory arch program = .ok image) (index : Nat) (address : Int64) (pos : Position)
    (present : program[index]? = some ⟨.org address, pos⟩) :
    (arch.sizer.counterAt program index : Int) ≤ address.toInt ∧
    ∀ nops : List Instruction, (∀ i ∈ nops, i.op = .nop) →
      (nops.length : Int) = address.toInt - arch.sizer.counterAt program index →
      generate memory arch (program.take index ++ (nops ++ program.drop (index + 1))) = .ok image := by
  cases arch with
  | mcs51 =>
    obtain ⟨laid, _, emitted, _⟩ := Mcs51.generate_eq_ok_iff.mp accepted
    refine ⟨Layout.counterAt_le_org laid present, fun nops nop count => ?_⟩
    obtain ⟨layout, emission⟩ := runs_exchange_at Mcs51.emitter_nopPads
      Mcs51.emitter_appends.padsExactly rfl present laid emitted nop count
    exact Mcs51.generate_of_same_runs accepted layout emission
  | x64 =>
    obtain ⟨laid, _, emitted, _⟩ := X64.generate_eq_ok_iff.mp accepted
    refine ⟨Layout.counterAt_le_org laid present, fun nops nop count => ?_⟩
    obtain ⟨layout, emission⟩ := runs_exchange_at X64.emitter_nopPads
      X64.emitter_appends.padsExactly rfl present laid emitted nop count
    exact X64.generate_of_same_runs accepted layout emission

/-- A jump over padding takes three bytes on one machine and five on the other, so thirteen `nop`s stand
for `org 16` on the first and eleven on the second. -/
theorem org_pads_as_nops_after_jump :
    let program : List Instruction :=
      [⟨.jmp "end", ⟨1, 1⟩⟩, ⟨.org 16, ⟨2, 1⟩⟩, ⟨.label "end", ⟨3, 1⟩⟩, ⟨.ret, ⟨4, 1⟩⟩]
    let padded (count : Nat) : List Instruction :=
      program.take 1 ++ (List.replicate count ⟨.nop, ⟨2, 1⟩⟩ ++ program.drop 2)
    (∃ image, generate .ofProcess .mcs51 program = .ok image ∧
      generate .ofProcess .mcs51 (padded 13) = .ok image) ∧
    (∃ image, generate .ofProcess .x64 program = .ok image ∧
      generate .ofProcess .x64 (padded 11) = .ok image) := by
  intro program padded
  constructor
  · obtain ⟨image, accepted⟩ : ∃ image, generate .ofProcess .mcs51 program = .ok image := ⟨_, rfl⟩
    refine ⟨image, accepted, ?_⟩
    exact (org_pads_as_nops .mcs51 program image accepted 1 16 ⟨2, 1⟩ rfl).2 _ (by simp)
      (by decide +kernel)
  · obtain ⟨image, accepted⟩ : ∃ image, generate .ofProcess .x64 program = .ok image := ⟨_, rfl⟩
    refine ⟨image, accepted, ?_⟩
    exact (org_pads_as_nops .x64 program image accepted 1 16 ⟨2, 1⟩ rfl).2 _ (by simp)
      (by decide +kernel)

end CrossAsm
