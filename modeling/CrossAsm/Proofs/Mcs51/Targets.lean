import CrossAsm.Proofs.Mcs51.Acceptance

/-!
The addresses to which 8051 code transfers control. They are program addresses, with one exception: the
label behind the last byte of a program that fills all of program memory. Jumps and calls to it are
refused, because its address takes more than sixteen bits. Relative branches look at the distance only,
so they are accepted (`targets_in_memory_or_behind_it`).
-/
namespace CrossAsm.Mcs51

variable {memory : Memory}

variable {program : List Instruction} {image : Image} {index : Nat}

section Image

variable (accepted : Mcs51.generate memory program = .ok image)
include accepted

theorem counterAt_eq_offsetAt (within : index ≤ program.length) :
    sizer.counterAt program index = offsetAt memory program index := by
  obtain ⟨laid, _⟩ := generate_eq_ok_iff.mp accepted
  rw [← Layout.pc_before laid index within]
  exact (inStep_of_generate accepted).counter index within

theorem codeSize_le_programMemory : image.codeSize ≤ programMemory := by
  have last := offsetAt_le_programMemory accepted (Nat.le_refl program.length)
  rw [offsetAt, Emitter.before_length] at last
  rw [codeSize_of_generate accepted, ← size_emissionOf accepted]
  exact last

/-- A transfer goes to a label of the program that it can reach. -/
theorem reaches_of_transfer {op : Operation} {pos : Position} {name : String}
    (present : program[index]? = some ⟨op, pos⟩) (transfers : target? op = some name) :
    ∃ address, image.symbols.get? name = some ⟨.label, address⟩ ∧ address ≤ image.codeSize ∧
      Reaches address (offsetAt memory program index) op := by
  obtain ⟨label, place, declared, reaches⟩ :=
    (admits_of_generate accepted present).target name transfers
  have within := Nat.le_of_lt (List.getElem?_eq_some_iff.mp present).1
  have inside := Nat.le_of_lt (List.getElem?_eq_some_iff.mp declared).1
  rw [counterAt_eq_offsetAt accepted within, counterAt_eq_offsetAt accepted inside] at reaches
  refine ⟨offsetAt memory program label, (label_of_generate accepted).mpr ⟨label, place, declared, rfl⟩,
    ?_, reaches⟩
  obtain ⟨_, _, emitted, _⟩ := generate_eq_ok_iff.mp accepted
  rw [codeSize_of_generate accepted]
  exact (inStep_of_generate accepted).offset_le emitter_appends emitted inside

/-- Jumps and calls hold the whole address, in sixteen bits. -/
theorem address_le_of_absolute {i : Instruction} {name : String} {address : Nat} (member : i ∈ program)
    (isAbsolute : i.op = .jmp name ∨ i.op = .call name)
    (known : image.symbols.get? name = some ⟨.label, address⟩) : address ≤ 0xFFFF := by
  obtain ⟨place, present⟩ := List.getElem?_of_mem member
  obtain ⟨op, pos⟩ := i
  have transfers : target? op = some name := by
    rcases isAbsolute with rfl | rfl <;> rfl
  obtain ⟨again, found, _, reaches⟩ := reaches_of_transfer accepted present transfers
  cases known.symm.trans found
  rcases isAbsolute with rfl | rfl <;> exact reaches

end Image

/-- A program has an image if it can be laid out and each of its instructions can be lowered. The labels
are then where they were laid out. -/
theorem exists_image_of_clear (laid : (layoutOf program).2 = none)
    (clear : ∀ index i, program[index]? = some i →
      Clear (lower (layoutOf program).1.symbols (sizer.counterAt program index) i.op)) :
    ∃ image, CrossAsm.generate memory .mcs51 program = .ok image ∧
      ∀ label name pos, program[label]? = some ⟨.label name, pos⟩ →
        image.symbols.get? name = some ⟨.label, sizer.counterAt program label⟩ := by
  cases generated : CrossAsm.generate memory .mcs51 program with
  | ok image =>
    refine ⟨image, rfl, fun label name pos declared => ?_⟩
    have inside := Nat.le_of_lt (List.getElem?_eq_some_iff.mp declared).1
    rw [counterAt_eq_offsetAt generated inside]
    exact (label_of_generate generated).mpr ⟨label, pos, declared, rfl⟩
  | error failure =>
    obtain ⟨index, i, _, present, _, violated⟩ := not_admits_of_generate generated
    exact absurd (admits_of_clear laid present (clear index i present)) violated

/-- Control is transferred to program addresses. The only other target is a label behind the last byte
of program memory, and then the program fills it and neither jumps to the label nor calls it. -/
theorem targets_in_memory_or_behind_it (accepted : CrossAsm.generate memory .mcs51 program = .ok image)
    {op : Operation} {pos : Position} (present : program[index]? = some ⟨op, pos⟩) {name : String}
    (transfers : target? op = some name) :
    ∃ address, image.symbols.get? name = some ⟨.label, address⟩ ∧
      (address ≤ 0xFFFF ∨ address = 0x10000 ∧ image.codeSize = 0x10000 ∧
        ∀ i ∈ program, i.op ≠ .jmp name ∧ i.op ≠ .call name) := by
  obtain ⟨address, known, inside, _⟩ := reaches_of_transfer accepted present transfers
  have bound : image.codeSize ≤ 0x10000 := codeSize_le_programMemory accepted
  refine ⟨address, known, ?_⟩
  by_cases low : address ≤ 0xFFFF
  · exact .inl low
  · refine .inr ⟨by omega, by omega, ?_⟩
    intro i member
    constructor
    · intro jumps
      exact low (address_le_of_absolute accepted member (.inl jumps) known)
    · intro calls
      exact low (address_le_of_absolute accepted member (.inr calls) known)

/-- A loop whose label is the target of a relative jump and of an absolute one. -/
theorem targets_in_memory_or_behind_it_of_loop :
    let program : List Instruction :=
      [⟨.label "again", ⟨1, 1⟩⟩, ⟨.djnz ⟨0⟩ "again", ⟨2, 1⟩⟩, ⟨.jmp "again", ⟨3, 1⟩⟩]
    ∃ image, CrossAsm.generate .ofProcess .mcs51 program = .ok image ∧
      ∃ address, image.symbols.get? "again" = some ⟨.label, address⟩ ∧ address ≤ 0xFFFF := by
  intro program
  obtain ⟨image, generated⟩ : ∃ image, CrossAsm.generate .ofProcess .mcs51 program = .ok image := ⟨_, rfl⟩
  have present : program[1]? = some ⟨.djnz ⟨0⟩ "again", ⟨2, 1⟩⟩ := rfl
  obtain ⟨address, known, low | ⟨_, _, unreferred⟩⟩ :=
    targets_in_memory_or_behind_it generated present rfl
  · exact ⟨image, generated, address, known, low⟩
  · exact absurd rfl (unreferred ⟨.jmp "again", ⟨3, 1⟩⟩ (by decide)).1

/-- A branch in the last two bytes of program memory is accepted, though it goes to the label behind
them. -/
theorem branch_behind_memory :
    let program : List Instruction :=
      [⟨.org 0xFFFE, ⟨1, 1⟩⟩, ⟨.branch .equal "end", ⟨2, 1⟩⟩, ⟨.label "end", ⟨3, 1⟩⟩]
    ∃ image, CrossAsm.generate .ofProcess .mcs51 program = .ok image ∧
      target? (.branch .equal "end") = some "end" ∧
      ∃ address, image.symbols.get? "end" = some ⟨.label, address⟩ ∧ ¬ address ≤ 0xFFFF := by
  intro program
  have laid : (layoutOf program).2 = none := by decide +kernel
  have counter : sizer.counterAt program 1 = 0xFFFE := by decide +kernel
  have behind : sizer.counterAt program 2 = 0x10000 := by decide +kernel
  have known : (layoutOf program).1.symbols.get? "end" = some ⟨.label, 0x10000⟩ := by decide +kernel
  have reached : InReach 0x10000 (sizer.counterAt program 1 + 2) := by
    rw [counter]
    exact ⟨by decide, by decide⟩
  have near := (exists_relative (lowLabels laid) (by rw [counter]; decide)).mpr ⟨_, known, reached⟩
  obtain ⟨image, generated, labels⟩ := exists_image_of_clear laid fun index i present => by
    obtain _ | _ | _ | index := index
    · cases present
      exact clear_nil
    · cases present
      exact clear_cons.mpr ⟨exists_map_eq_ok.mpr near, clear_nil⟩
    · cases present
      exact clear_nil
    · cases present
  refine ⟨image, generated, rfl, _, labels 2 "end" ⟨3, 1⟩ rfl, ?_⟩
  rw [behind]
  decide

end CrossAsm.Mcs51
