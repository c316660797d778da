import CrossAsm.Proofs.Refusal
import CrossAsm.Proofs.X64.Encodable
import CrossAsm.Proofs.X64.References

/-!
Which programs have an x86-64 image. `Admits` says what the machine asks of each instruction, in terms
of the program alone. If there is memory for code and data, a program has an image exactly if all its
instructions are admitted, and otherwise the report is about one that is not, also where the fault is
found only when displacements are filled in (`accepts_iff_admits_and_fits`).
-/
namespace CrossAsm.X64

variable {memory : Memory}

/-- A displacement can lead from `stop` to the address. -/
def InReach (address stop : Nat) : Prop :=
  -0x80000000 ≤ (address : Int) - stop ∧ (address : Int) - stop ≤ 0x7FFFFFFF

/-- What a name stands for: the program counter at a label, or the place of data behind the code. -/
inductive Stands (program : List Instruction) : Reference → String → Nat → Prop
  | label {name : String} {index : Nat} {pos : Position}
      (declared : program[index]? = some ⟨.label name, pos⟩) :
    Stands program .code name (sizer.counterAt program index)
  | var {name : String} {index : Nat} {init : Option Int64} {pos : Position}
      (declared : program[index]? = some ⟨.var name init, pos⟩) :
    Stands program .data name
      (sizer.counterAt program program.length + storageBefore 8 program index)
  | buffer {name : String} {index : Nat} {length : Int64} {pos : Position}
      (declared : program[index]? = some ⟨.buffer name length, pos⟩) :
    Stands program .data name
      (sizer.counterAt program program.length + storageBefore 8 program index)

/-- What the machine asks of the names in the instruction at `index`. -/
structure Links (program : List Instruction) (index : Nat) (op : Operation) : Prop where
  /-- A displacement leads from the end of the instruction to what the name stands for. -/
  reference : ∀ site, site? op = some site → ∃ address,
    Stands program site.reference site.name address ∧
      InReach address (sizer.counterAt program (index + 1))
  set : ∀ name src, op = .set name src → ∃ init pos, ⟨.var name init, pos⟩ ∈ program

/-- What the machine asks of the instruction at `index`. -/
structure Admits (program : List Instruction) (index : Nat) (op : Operation) : Prop extends
    Placeable sizer program index op, Encodable op, Links program index op where
  length : ∀ name n, op = .buffer name n → 1 ≤ n.toInt ∧ n.toInt ≤ 0x7FFFFFFF

/-- There is memory for all code and data of the program. -/
def FitsMemory (memory : Memory) (program : List Instruction) : Prop :=
  sizer.counterAt program program.length + storageBefore 8 program program.length <
    memory.limit

section Emission

theorem Output.put_of_room (pos : Position) (s : Step) (out : Output)
    (room : out.code.size + s.bytes.length < memory.limit) :
    ∃ after, put memory pos s out = .ok () after ∧ after.code.size = out.code.size + s.bytes.length := by
  have extended : CodeBuffer.extend memory s.instr.bytes out.code = _ :=
    CodeBuffer.extend_eq_ok_iff.mpr ⟨decide_eq_true room, rfl⟩
  unfold put
  dsimp only
  rw [extended]
  exact ⟨_, rfl, CodeBuffer.size_append _ _⟩

theorem emitter_gives :
    (emitter memory).Gives memory Output.code fun out op => Clear (lower out.symbols op) := by
  refine emitter_padsWith.gives fun op pos out size clear sized room => ?_
  have takes : Takes Step.bytes (lower out.symbols op) size :=
    fun _ all => Except.ok.inj ((lower_size all).symm.trans sized)
  exact putAll_of_clear (Output.put_of_room pos) clear takes room

/-- All displacements lie inside the code. -/
theorem resolveAll_ne_outside {program : List Instruction}
    (emitted : (emissionOf memory program).2 = none) :
    Relocation.resolveAll (emissionOf memory program).1.symbols (emissionOf memory program).1.code
      (emissionOf memory program).1.relocations ≠ .outside := by
  apply Relocation.resolveAll_ne_outside
  intro r member
  obtain ⟨index, kept⟩ := (mem_relocations_iff emitted).mp member
  obtain ⟨site, stands, patch⟩ := exists_site_of_relocationAt kept
  have within : index + 1 ≤ program.length := by
    obtain ⟨i, present, _⟩ := stands
    exact (List.getElem?_eq_some_iff.mp present).1
  rw [patch]
  exact Nat.le_trans (window_stop_le emitted stands)
    (emitter_appends.offset_le_run emitted within)

end Emission

section Laid

variable {program : List Instruction} {index : Nat} {i : Instruction}
  (laid : (layoutOf memory program).2 = none)
include laid

theorem pc_layoutOf : (layoutOf memory program).1.pc = sizer.counterAt program program.length :=
  Layout.pc_run laid

theorem lists_start :
    (start memory program).symbols.Lists sizer (sizer.counterAt program program.length) 8 program := by
  have layout := (Layout.lists_run Data.allocator_consecutive laid rfl).rebaseData
    (layoutOf memory program).1.pc
  rw [Nat.zero_add] at layout
  rw [← pc_layoutOf laid]
  exact layout

theorem size_layoutOf :
    (layoutOf memory program).1.storage.size = storageBefore 8 program program.length := by
  have contents : (layoutOf memory program).1.storage.bytes = _ :=
    Layout.holds_run Data.allocator_consecutive laid rfl
  rw [Data.size, contents, length_contents Data.length_variableBytes]

theorem fitsMemory_iff : FitsMemory memory program ↔
    (layoutOf memory program).1.pc + (layoutOf memory program).1.storage.size < memory.limit := by
  rw [pc_layoutOf laid, size_layoutOf laid, FitsMemory]

theorem target_eq_ok_iff {r : Relocation} {address : Nat} :
    r.target (start memory program).symbols = .ok address ↔
      Stands program r.reference r.name address := by
  have lists := lists_start laid
  obtain ⟨name, patch, stop, pos, reference⟩ := r
  unfold Relocation.target
  cases reference with
  | code =>
    rw [SymbolTable.resolveLabel_eq_ok_iff]
    constructor
    · intro found
      obtain ⟨index, pos, declared, same⟩ :=
        (lists.exists_label (P := fun a => a = address)).mp ⟨address, found, rfl⟩
      exact same ▸ .label declared
    · intro stands
      cases stands with
      | label declared => exact lists.label declared
  | data =>
    dsimp only
    rw [map_eq_ok_iff, SymbolTable.exists_resolveData, lists.exists_var, lists.exists_buffer]
    constructor
    · rintro (⟨index, init, pos, declared, same⟩ | ⟨index, length, pos, declared, same⟩)
      · exact same ▸ .var declared
      · exact same ▸ .buffer declared
    · intro stands
      cases stands with
      | var declared => exact .inl ⟨_, _, _, declared, rfl⟩
      | buffer declared => exact .inr ⟨_, _, _, declared, rfl⟩

theorem offsetAt_eq_counterAt (emitted : (emissionOf memory program).2 = none)
    (within : index ≤ program.length) :
    offsetAt memory program index = sizer.counterAt program index := by
  have passes := inStep_of_passes emitter_appends.padsExactly rfl laid emitted
  have counter : _ = sizer.counterAt program index := Layout.pc_before laid index within
  rw [← counter]
  exact (passes.counter index within).symm

variable (fits : FitsMemory memory program)
include fits

theorem counterAt_lt_memoryLimit (within : index ≤ program.length) :
    sizer.counterAt program index < memory.limit := by
  have order := Layout.counterAt_le laid within (Nat.le_refl _)
  unfold FitsMemory at fits
  change sizer.counterAt program index ≤ sizer.counterAt program program.length at order
  omega

theorem Stands.lt_memoryLimit {reference : Reference} {name : String} {address : Nat}
    (stands : Stands program reference name address) : address < memory.limit := by
  cases stands with
  | label declared =>
    exact counterAt_lt_memoryLimit laid fits
      (Nat.le_of_lt (List.getElem?_eq_some_iff.mp declared).1)
  | var declared | buffer declared =>
    have order := storageBefore_le 8 program
      (Nat.le_of_lt (List.getElem?_eq_some_iff.mp declared).1)
    unfold FitsMemory at fits
    omega

/-- A relocation can be resolved exactly if its name stands for something in reach. -/
theorem exists_displacement {r : Relocation} (low : r.stop < memory.limit) :
    (∃ d, r.displacement (start memory program).symbols = .ok d) ↔
      ∃ address, Stands program r.reference r.name address ∧ InReach address r.stop := by
  have signed (address : Nat) (stands : Stands program r.reference r.name address) :
      signedDistance address r.stop = (address : Int) - r.stop :=
    signedDistance_of_lt (stands.lt_memoryLimit laid fits) low
  simp only [Relocation.displacement_eq_ok_iff, target_eq_ok_iff laid]
  constructor
  · rintro ⟨d, address, stands, within, _⟩
    rw [signed address stands] at within
    exact ⟨address, stands, within⟩
  · rintro ⟨address, stands, within⟩
    refine ⟨_, address, stands, ?_, rfl⟩
    rw [signed address stands]
    exact within

/-- Emission of a program that has been laid out fails only at an instruction that is not admitted. -/
theorem not_admits_of_unemitted {report : FaultAt} (failed : (emissionOf memory program).2 = some report) :
    ∃ index i, program[index]? = some i ∧ i.pos = report.pos ∧ ¬ Admits program index i.op := by
  obtain ⟨index, i, present, place, _, _, symbols, refused⟩ :=
    emitter_gives.refused_of_run emitter_appends rfl laid
      (counterAt_lt_memoryLimit laid fits (Nat.le_refl _)) failed
  refine ⟨index, i, present, place, ?_⟩
  intro admits
  apply refused
  rw [symbols]
  refine clear_lower_iff.mpr ⟨admits.toEncodable, ?_⟩
  intro name src isSet address assigned
  obtain ⟨place, known⟩ := (lists_start laid).exists_var_iff_mem.mpr (admits.set name src isSet)
  cases assigned.symm.trans known

section Emitted

variable (emitted : (emissionOf memory program).2 = none)
include emitted

/-- The relocation of an instruction ends where the next instruction starts. -/
theorem exists_displacement_at {site : Site} (stands : site.At program index) (pos : Position) :
    (∃ d, (site.relocation pos (offsetAt memory program index)).displacement
      (start memory program).symbols = .ok d) ↔
    ∃ address, Stands program site.reference site.name address ∧
      InReach address (sizer.counterAt program (index + 1)) := by
  have within : index + 1 ≤ program.length := by
    obtain ⟨i, present, _⟩ := stands
    exact (List.getElem?_eq_some_iff.mp present).1
  have stop : (site.relocation pos (offsetAt memory program index)).stop =
      sizer.counterAt program (index + 1) := by
    rw [← offsetAt_eq_counterAt laid emitted within, (code_of_site emitted stands).1]
    rfl
  rw [exists_displacement laid fits (stop ▸ counterAt_lt_memoryLimit laid fits within), stop]
  rfl

/-- Displacements cannot be filled in only for an instruction that is not admitted. -/
theorem not_admits_of_unresolved {report : FaultAt} {stopped : CodeBuffer}
    (failed : Relocation.resolveAll (emissionOf memory program).1.symbols
      (emissionOf memory program).1.code (emissionOf memory program).1.relocations =
        .rejected stopped report) :
    ∃ index i, program[index]? = some i ∧ i.pos = report.pos ∧ ¬ Admits program index i.op := by
  obtain ⟨r, member, place, undisplaced⟩ := Relocation.exists_of_resolveAll_rejected failed
  obtain ⟨index, kept⟩ := (mem_relocations_iff emitted).mp member
  obtain ⟨i, present, kept⟩ := Option.bind_eq_some_iff.mp kept
  obtain ⟨site, referring, rfl⟩ := Option.map_eq_some_iff.mp kept
  refine ⟨index, i, present, place, ?_⟩
  intro admits
  obtain ⟨d, displaced⟩ := (exists_displacement_at laid fits emitted ⟨i, present, referring⟩ i.pos).mpr
    (admits.reference site referring)
  have symbols : (emissionOf memory program).1.symbols = (start memory program).symbols :=
    emitter_appends.symbols_run emitted
  rw [symbols] at undisplaced
  cases undisplaced.symm.trans displaced

/-- The data fit behind the code. -/
theorem fits_data {code : CodeBuffer}
    (resolved : Relocation.resolveAll (emissionOf memory program).1.symbols
      (emissionOf memory program).1.code (emissionOf memory program).1.relocations = .resolved code) :
    CodeBuffer.fits memory code (layoutOf memory program).1.storage.bytes.length := by
  have size : (emissionOf memory program).1.code.size = (layoutOf memory program).1.pc :=
    (inStep_of_passes emitter_appends.padsExactly rfl laid emitted).size
  unfold CodeBuffer.fits
  rw [Relocation.size_of_resolveAll resolved, size]
  exact decide_eq_true ((fitsMemory_iff laid).mp fits)

/-- What has been laid out, emitted and resolved is admitted. -/
theorem admits_of_resolved {code : CodeBuffer}
    (resolved : Relocation.resolveAll (emissionOf memory program).1.symbols
      (emissionOf memory program).1.code (emissionOf memory program).1.relocations = .resolved code)
    (present : program[index]? = some i) :
    Admits program index i.op := by
  have within : index ≤ program.length := Nat.le_of_lt (List.getElem?_eq_some_iff.mp present).1
  have placed := Layout.placed_before laid present
  have reached := Layout.reached_of_laid Data.allocator_consecutive rfl laid within
  have symbols : (emissionOf memory program).1.symbols = (start memory program).symbols :=
    emitter_appends.symbols_run emitted
  obtain ⟨op, pos⟩ := i
  have clear : Clear (lower (start memory program).symbols op) := by
    by_cases isCode : op.isCode
    · obtain ⟨steps, lowered, _⟩ := lowered_at emitted present isCode
      exact clear_iff.mpr ⟨steps, lowered⟩
    · cases op with
      | label | var | buffer | org => exact clear_nil
      | _ => exact absurd rfl isCode
  obtain ⟨encodable, unassigned⟩ := clear_lower_iff.mp clear
  have linked (site : Site) (referring : site? op = some site) :
      ∃ address, Stands program site.reference site.name address ∧
        InReach address (sizer.counterAt program (index + 1)) := by
    have stands : site.At program index := ⟨_, present, referring⟩
    obtain ⟨pos, kept⟩ := stands.relocationAt
    obtain ⟨d, displaced, _⟩ := Relocation.holds_of_resolveAll resolved (relocations_apart emitted)
      ((mem_relocations_iff emitted).mpr ⟨index, kept⟩)
    rw [symbols] at displaced
    exact (exists_displacement_at laid fits emitted stands pos).mp ⟨d, displaced⟩
  refine ⟨reached.placeable placed, encodable, ⟨linked, ?_⟩, ?_⟩
  · rintro name src rfl
    obtain ⟨address, stands⟩ : ∃ address, Stands program .data name address := by
      cases src with
      | reg r =>
        obtain ⟨address, stands, _⟩ := linked _ rfl
        exact ⟨address, stands⟩
      | imm n =>
        obtain ⟨address, stands, _⟩ := linked _ rfl
        exact ⟨address, stands⟩
    cases stands with
    | var declared => exact ⟨_, _, List.mem_of_getElem? declared⟩
    | buffer declared => exact absurd ((lists_start laid).buffer declared) (unassigned name src rfl _)
  · rintro name n rfl
    obtain ⟨address, next, reserved⟩ := placed.buffer_reserved
    exact (Data.buffer_eq_ok_iff.mp reserved).1

end Emitted

end Laid

/-- Layout fails only at an instruction that is not admitted, or for want of memory. -/
theorem not_admits_of_unlaid {program : List Instruction} {report : FaultAt}
    (failed : (layoutOf memory program).2 = some report) :
    (∃ index i, program[index]? = some i ∧ i.pos = report.pos ∧ ¬ Admits program index i.op) ∨
      report.fault = .outOfMemory ∧ ¬ FitsMemory memory program := by
  obtain ⟨index, i, left, present, place, passed, stopped⟩ := Layout.fault_of_run failed
  by_cases admits : Admits program index i.op
  · right
    have within : index + 1 ≤ program.length := (List.getElem?_eq_some_iff.mp present).1
    have reached := Layout.reached_before Data.allocator_consecutive rfl (Nat.le_of_succ_le within)
      passed
    have full (stored : memory.limit ≤
        (Layout.before sizer (Data.allocator memory) { storage := {} } program index).storage.size +
          i.op.storage 8) : ¬ FitsMemory memory program := by
      have total := storageBefore_le 8 program within
      rw [storageBefore_succ 8 present, ← length_flatMap_initial Data.length_variableBytes,
        ← reached.stored] at total
      unfold Data.size at stored
      unfold FitsMemory
      omega
    obtain ⟨name, init, _, isVar, failed⟩ | ⟨name, length, _, isBuffer, failed⟩ | ⟨_, unsized⟩ |
        ⟨available, space, _⟩ :=
      (Layout.refused_of_step stopped).cases_of_placeable reached admits.toPlaceable
    · obtain ⟨memory, stored, _⟩ := Data.var_eq_error failed
      exact ⟨memory, full (isVar ▸ stored)⟩
    · obtain ⟨⟨_, outside⟩ | ⟨memory, stored⟩, _⟩ := Data.buffer_eq_error failed
      · exact absurd (admits.length name length isBuffer) outside
      · exact ⟨memory, full (isBuffer ▸ stored)⟩
    · obtain ⟨size, sized⟩ := admits.toEncodable.exists_sizeOf
      cases unsized.symm.trans sized
    · cases space
  · exact .inl ⟨index, i, present, place, admits⟩

section Generation

variable {program : List Instruction}

theorem admits_of_generate {image : Image} (accepted : X64.generate memory program = .ok image) :
    (∀ index i, program[index]? = some i → Admits program index i.op) ∧ FitsMemory memory program := by
  obtain ⟨laid, room, emitted, code, resolved, _⟩ := generate_eq_ok_iff.mp accepted
  have fits := (fitsMemory_iff laid).mpr room
  refine ⟨?_, fits⟩
  intro index i present
  exact admits_of_resolved laid fits emitted resolved present

theorem not_admits_of_generate {failure : GenerationFailure}
    (refused : X64.generate memory program = .error failure) :
    ∃ report, failure = .rejected report ∧
      ((∃ index i, program[index]? = some i ∧ i.pos = report.pos ∧ ¬ Admits program index i.op) ∨
        report.fault = .outOfMemory ∧ ¬ FitsMemory memory program) := by
  cases refused_of_generate refused with
  | layout unlaid => exact ⟨_, rfl, not_admits_of_unlaid unlaid⟩
  | memory laid full =>
    refine ⟨_, rfl, .inr ⟨rfl, ?_⟩⟩
    rw [fitsMemory_iff laid]
    exact Nat.not_lt_of_le full
  | emission laid room unemitted =>
    exact ⟨_, rfl, .inl (not_admits_of_unemitted laid ((fitsMemory_iff laid).mpr room) unemitted)⟩
  | relocation laid room emitted unresolved =>
    have fits := (fitsMemory_iff laid).mpr room
    exact ⟨_, rfl, .inl (not_admits_of_unresolved laid fits emitted unresolved)⟩
  | misplaced emitted outside => exact absurd outside (resolveAll_ne_outside emitted)
  | data laid room emitted resolved full =>
    have fits := fits_data laid ((fitsMemory_iff laid).mpr room) emitted resolved
    cases fits.symm.trans full

/-- A program has an image exactly if the machine admits all its instructions and there is memory for
it. Otherwise the report is about an instruction that it does not admit, or says that there is no
memory, and then there is none. -/
theorem accepts_iff_admits_and_fits (memory : Memory) (program : List Instruction) :
    ((∃ image, CrossAsm.generate memory .x64 program = .ok image) ↔
      (∀ index i, program[index]? = some i → Admits program index i.op) ∧ FitsMemory memory program) ∧
    ∀ failure, CrossAsm.generate memory .x64 program = .error failure →
      ∃ report, failure = .rejected report ∧
        ((∃ index i, program[index]? = some i ∧ i.pos = report.pos ∧
            ¬ Admits program index i.op) ∨
          report.fault = .outOfMemory ∧ ¬ FitsMemory memory program) := by
  refine ⟨⟨?_, ?_⟩, ?_⟩
  · rintro ⟨image, accepted⟩
    exact admits_of_generate accepted
  · rintro ⟨admitted, fits⟩
    cases generated : CrossAsm.generate memory .x64 program with
    | ok image => exact ⟨image, rfl⟩
    | error failure =>
      obtain ⟨report, _, ⟨index, i, present, _, violated⟩ | ⟨_, full⟩⟩ :=
        not_admits_of_generate generated
      · exact absurd (admitted index i present) violated
      · exact absurd fits full
  · intro failure refused
    exact not_admits_of_generate refused

/-- A store between code and data is accepted. In the other program the first jump has no label, which is
found only after the interrupt vector has been refused. -/
theorem accepts_iff_admits_and_fits_of_store_and_vector :
    let store : List Instruction :=
      [⟨.label "start", ⟨1, 1⟩⟩, ⟨.set "count" (.imm 7), ⟨2, 5⟩⟩, ⟨.jmp "start", ⟨3, 5⟩⟩,
        ⟨.var "count" none, ⟨4, 5⟩⟩]
    let vector : List Instruction := [⟨.jmp "gone", ⟨1, 5⟩⟩, ⟨.int 256, ⟨2, 5⟩⟩]
    (Admits store 1 (.set "count" (.imm 7)) ∧ FitsMemory .ofProcess store) ∧
      ∃ index i, vector[index]? = some i ∧ i.pos = ⟨2, 5⟩ ∧ ¬ Admits vector index i.op := by
  intro store vector
  obtain ⟨admitted, fits⟩ := (accepts_iff_admits_and_fits .ofProcess store).1.mp ⟨_, rfl⟩
  refine ⟨⟨admitted 1 _ rfl, fits⟩, ?_⟩
  obtain ⟨report, same, found⟩ := (accepts_iff_admits_and_fits .ofProcess vector).2 _ rfl
  injection same with same
  rw [← same] at found
  obtain violated | ⟨full, _⟩ := found
  · exact violated
  · cases full

end Generation

end CrossAsm.X64
