import CrossAsm.Proofs.Mcs51.Encodable
import CrossAsm.Proofs.Mcs51.Ram
import CrossAsm.Proofs.Refusal

/-!
Which programs have an 8051 image. `Admits` says what the machine asks of each instruction, in terms of
the program alone. A program has an image exactly if all its instructions are admitted, and otherwise
the report is about one that is not (`accepts_iff_admits`).
-/
namespace CrossAsm.Mcs51

variable {memory : Memory}

/-- What the machine asks of the names in the instruction at `index`. -/
structure Links (program : List Instruction) (index : Nat) (op : Operation) : Prop where
  target : ∀ name, target? op = some name →
    ∃ label pos, program[label]? = some ⟨.label name, pos⟩ ∧
      Reaches (sizer.counterAt program label) (sizer.counterAt program index) op
  set : ∀ name src, op = .set name src → ∃ init pos, ⟨.var name init, pos⟩ ∈ program
  get : ∀ dest name, op = .get dest name →
    (∃ init pos, ⟨.var name init, pos⟩ ∈ program) ∨
    ∃ length pos, ⟨.buffer name length, pos⟩ ∈ program

/-- What the machine asks of the instruction at `index`. -/
structure Admits (program : List Instruction) (index : Nat) (op : Operation) : Prop extends
    Placeable sizer program index op, Encodable op, Links program index op where
  /-- The instruction does not take the program counter, which starts at zero, out of program memory. -/
  within : sizer.counterAt program index ≤ 0x10000 → sizer.counterAt program (index + 1) ≤ 0x10000
  initial : ∀ name n, op = .var name (some n) → -128 ≤ n.toInt ∧ n.toInt ≤ 255
  length : ∀ name n, op = .buffer name n → 1 ≤ n.toInt
  /-- Nor does it declare more storage than there is left. -/
  stored : storageBefore 1 program index ≤ 80 → storageBefore 1 program (index + 1) ≤ 80

section Emission

theorem Output.put_of_room (i : Instr) (out : Output)
    (room : out.code.size + i.bytes.length < memory.limit) :
    ∃ after, put memory i out = .ok () after ∧ after.code.size = out.code.size + i.bytes.length :=
  ⟨_, CodeView.lift_extend_eq_ok_iff.mpr ⟨decide_eq_true room, rfl⟩, CodeBuffer.size_append _ _⟩

theorem emitter_gives :
    (emitter memory).Gives memory Output.code fun out op =>
      Clear (lower out.symbols out.code.size op) := by
  refine emitter_padsWith.gives fun op pos out size clear sized room => ?_
  have takes : Takes Instr.bytes (lower out.symbols out.code.size op) size :=
    fun _ all => Except.ok.inj ((lower_size all).symm.trans sized)
  exact putAll_of_clear Output.put_of_room clear takes room

end Emission

section Laid

variable {program : List Instruction} (laid : (layoutOf program).2 = none) {index : Nat} {i : Instruction}
include laid

theorem storageBefore_le_ram (within : index ≤ program.length) :
    storageBefore 1 program index ≤ 80 := by
  rw [← length_flatMap_initial Ram.allocator_consecutive.sized]
  exact (Layout.holds_before Ram.allocator_consecutive laid .nil index within).length_le

/-- The table of the layout links what the program does. -/
theorem linked_iff_links {op : Operation} :
    Linked (layoutOf program).1.symbols (sizer.counterAt program index) op ↔
      Links program index op := by
  have lists := lists_layoutOf laid
  rw [linked_iff]
  simp only [lists.exists_label, lists.exists_var_iff_mem, exists_or, lists.exists_buffer_iff_mem]
  constructor
  · rintro ⟨target, set, get⟩
    exact ⟨target, set, get⟩
  · intro links
    exact ⟨links.target, links.set, links.get⟩

/-- What has been laid out and can be lowered is admitted. -/
theorem admits_of_clear (present : program[index]? = some i)
    (clear : Clear (lower (layoutOf program).1.symbols (sizer.counterAt program index) i.op)) :
    Admits program index i.op := by
  have within : index + 1 ≤ program.length := (List.getElem?_eq_some_iff.mp present).1
  have placed := Layout.placed_before laid present
  have reached := Layout.reached_of_laid Ram.allocator_consecutive .nil laid (Nat.le_of_succ_le within)
  have counter := counterAt_le_programMemory laid (Nat.le_of_succ_le within)
  have room : sizer.counterAt program index + 6 < 0x8000000000000000 :=
    Nat.lt_of_le_of_lt (Nat.add_le_add_right counter 6) (by decide)
  obtain ⟨encodable, linked⟩ := (clear_lower_iff (lowLabels laid) room).mp clear
  obtain ⟨op, pos⟩ := i
  refine ⟨reached.placeable placed, encodable, (linked_iff_links laid).mp linked, ?_, ?_, ?_, ?_⟩
  · intro _
    exact counterAt_le_programMemory laid within
  · rintro name n rfl
    obtain ⟨address, next, reserved⟩ := placed.var_reserved
    exact (Ram.var_eq_ok_iff.mp reserved).1
  · rintro name n rfl
    obtain ⟨address, next, reserved⟩ := placed.buffer_reserved
    exact (Ram.buffer_eq_ok_iff.mp reserved).1
  · intro _
    exact storageBefore_le_ram laid within

/-- Emission of a program that has been laid out fails only at an instruction that is not admitted. -/
theorem not_admits_of_unemitted {report : FaultAt} (failed : (emissionOf memory program).2 = some report) :
    ∃ index i, program[index]? = some i ∧ i.pos = report.pos ∧ ¬ Admits program index i.op := by
  have room {index : Nat} (within : index ≤ program.length) :
      sizer.counterAt program index + 6 < 0x8000000000000000 :=
    Nat.lt_of_le_of_lt (Nat.add_le_add_right (counterAt_le_programMemory laid within) 6) (by decide)
  have held : sizer.counterAt program program.length < memory.limit :=
    Nat.lt_of_le_of_lt (counterAt_le_programMemory laid (Nat.le_refl _)) memory.enough
  obtain ⟨index, i, present, place, _, offset, symbols, refused⟩ :=
    emitter_gives.refused_of_run emitter_appends rfl laid held failed
  refine ⟨index, i, present, place, ?_⟩
  intro admits
  apply refused
  have start : ((emitter memory).before (start program) program index).code.size =
    sizer.counterAt program index := offset
  rw [symbols, start]
  apply (clear_lower_iff (lowLabels laid) (room ?_)).mpr
  · exact ⟨admits.toEncodable, (linked_iff_links laid).mpr admits.toLinks⟩
  · exact Nat.le_of_lt (List.getElem?_eq_some_iff.mp present).1

end Laid

/-- Layout fails only at an instruction that is not admitted. -/
theorem not_admits_of_unlaid {program : List Instruction} {report : FaultAt}
    (failed : (layoutOf program).2 = some report) :
    ∃ index i, program[index]? = some i ∧ i.pos = report.pos ∧ ¬ Admits program index i.op := by
  obtain ⟨index, i, left, present, place, passed, stopped⟩ := Layout.fault_of_run failed
  refine ⟨index, i, present, place, ?_⟩
  intro admits
  have within : index ≤ program.length := Nat.le_of_lt (List.getElem?_eq_some_iff.mp present).1
  have length : (program.take index).length = index := List.length_take_of_le within
  have reached := Layout.reached_before Ram.allocator_consecutive .nil within passed
  have counter : sizer.counterAt program index ≤ 0x10000 := by
    rw [← sizer.counterAt_take program (Nat.le_refl index)]
    exact counterAt_le_programMemory passed (Nat.le_of_eq length.symm)
  have stored : storageBefore 1 program index ≤ 80 := by
    rw [← storageBefore_take 1 program (Nat.le_refl index)]
    exact storageBefore_le_ram passed (Nat.le_of_eq length.symm)
  have after := admits.stored stored
  have next := admits.within counter
  have room : (Layout.before sizer Ram.allocator { storage := {} } program index).storage.next +
      i.op.storage 1 ≤ Ram.size := by
    rw [storageBefore_succ 1 present] at after
    rw [reached.stored.next_eq, length_flatMap_initial Ram.allocator_consecutive.sized]
    unfold Ram.size Ram.start
    omega
  rw [sizer.counterAt_succ present] at next
  obtain ⟨name, init, _, isVar, failed⟩ | ⟨name, length, _, isBuffer, failed⟩ | ⟨_, unsized⟩ |
      ⟨available, space, past⟩ :=
    (Layout.refused_of_step stopped).cases_of_placeable reached admits.toPlaceable
  · have range : -128 ≤ (init.map Int64.toInt).getD 0 ∧ (init.map Int64.toInt).getD 0 ≤ 255 := by
      cases init with
      | none => decide
      | some n => exact admits.initial name n isVar
    rw [isVar] at room
    cases failed.symm.trans (Ram.var_eq_ok_iff.mpr ⟨range, room, rfl, rfl⟩)
  · have positive := admits.length name length isBuffer
    rw [isBuffer] at room
    cases failed.symm.trans (Ram.buffer_eq_ok_iff.mpr ⟨positive, room, rfl, rfl⟩)
  · obtain ⟨size, sized⟩ := admits.toEncodable.exists_sizeOf
    cases unsized.symm.trans sized
  · cases space
    exact absurd next (Nat.not_le_of_lt past)

theorem admits_of_generate {program : List Instruction} {image : Image}
    (accepted : Mcs51.generate memory program = .ok image) {index : Nat} {i : Instruction}
    (present : program[index]? = some i) : Admits program index i.op := by
  obtain ⟨laid, _, emitted, _⟩ := generate_eq_ok_iff.mp accepted
  refine admits_of_clear laid present ?_
  obtain ⟨op, pos⟩ := i
  by_cases isCode : op.isCode
  · have within : index ≤ program.length := Nat.le_of_lt (List.getElem?_eq_some_iff.mp present).1
    have reached : _ = offsetAt memory program index := (inStep_of_generate accepted).counter index within
    rw [← Layout.pc_before laid index within, reached]
    obtain ⟨instrs, lowered, _⟩ := lowered_at emitted present isCode
    exact clear_iff.mpr ⟨instrs, lowered⟩
  · cases op with
    | label | var | buffer | org => exact clear_nil
    | _ => exact absurd rfl isCode

theorem not_admits_of_generate {program : List Instruction} {failure : GenerationFailure}
    (refused : Mcs51.generate memory program = .error failure) :
    ∃ index i fault, program[index]? = some i ∧ failure = .rejected ⟨i.pos, fault⟩ ∧
      ¬ Admits program index i.op := by
  cases refused_of_generate refused with
  | layout unlaid =>
    obtain ⟨index, i, present, place, violated⟩ := not_admits_of_unlaid unlaid
    exact ⟨index, i, _, present, by rw [place], violated⟩
  | memory laid full =>
    have counter : (layoutOf program).1.pc = _ := Layout.pc_run laid
    rw [counter] at full
    have short := Nat.le_trans full (counterAt_le_programMemory laid (Nat.le_refl _))
    exact absurd short (Nat.not_le_of_lt memory.enough)
  | emission laid unemitted =>
    obtain ⟨index, i, present, place, violated⟩ := not_admits_of_unemitted laid unemitted
    exact ⟨index, i, _, present, by rw [place], violated⟩

/-- A program has an image exactly if the machine admits all its instructions. Otherwise the report is
about an instruction that it does not admit. -/
theorem accepts_iff_admits (memory : Memory) (program : List Instruction) :
    ((∃ image, CrossAsm.generate memory .mcs51 program = .ok image) ↔
      ∀ index i, program[index]? = some i → Admits program index i.op) ∧
    ∀ failure, CrossAsm.generate memory .mcs51 program = .error failure →
      ∃ index i fault, program[index]? = some i ∧ failure = .rejected ⟨i.pos, fault⟩ ∧
        ¬ Admits program index i.op := by
  refine ⟨⟨?_, ?_⟩, ?_⟩
  · rintro ⟨image, accepted⟩ index i present
    exact admits_of_generate accepted present
  · intro admitted
    cases generated : CrossAsm.generate memory .mcs51 program with
    | ok image => exact ⟨image, rfl⟩
    | error failure =>
      obtain ⟨index, i, _, present, _, violated⟩ := not_admits_of_generate generated
      exact absurd (admitted index i present) violated
  · intro failure refused
    exact not_admits_of_generate refused

/-- A loop is accepted. In the other program a label is missing and a shift goes too far; the report is
about the shift, which is found first. -/
theorem accepts_iff_admits_of_loop_and_shift :
    let loop : List Instruction :=
      [⟨.label "again", ⟨1, 1⟩⟩, ⟨.cmp ⟨0⟩ (.imm 3), ⟨2, 5⟩⟩, ⟨.branch .greater "again", ⟨3, 5⟩⟩]
    let shift : List Instruction := [⟨.jmp "gone", ⟨1, 5⟩⟩, ⟨.shift .left ⟨0⟩ (.imm 8), ⟨2, 5⟩⟩]
    Admits loop 2 (.branch .greater "again") ∧
      ∃ index i, shift[index]? = some i ∧ i.pos = ⟨2, 5⟩ ∧ ¬ Admits shift index i.op := by
  intro loop shift
  refine ⟨(accepts_iff_admits .ofProcess loop).1.mp ⟨_, rfl⟩ 2 _ rfl, ?_⟩
  obtain ⟨index, i, fault, present, same, violated⟩ := (accepts_iff_admits .ofProcess shift).2 _ rfl
  refine ⟨index, i, present, ?_, violated⟩
  injection same with report
  injection report with place
  exact place.symm

end CrossAsm.Mcs51
