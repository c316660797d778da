import CrossAsm.Proofs.Transcription
import CrossAsm.Proofs.X64.References

/-!
Transcription on x86-64. Lowering asks of a name only what kind of symbol it is, and keeps it for the
relocations (`lower_rename`). These are resolved at the end, when names are looked up
(`Relocation.resolveAll_transcribed`). From there it goes over to whole programs (`generate_transcribed`).
-/
namespace CrossAsm

variable {memory : Memory}

namespace Transcription

variable {T : Transcription} {t u : SymbolTable}

def relocation (T : Transcription) (r : Relocation) : Relocation :=
  { r with name := T.name r.name, pos := T.place r.pos }

/-- What filling in relocations comes to, written down otherwise. -/
def resolution (T : Transcription) : Relocation.Outcome → Relocation.Outcome
  | .resolved code => .resolved code
  | .rejected code report => .rejected code (T.report report)
  | .outside => .outside

end Transcription

namespace Relocation

variable {T : Transcription} {t u : SymbolTable} {r : Relocation}

theorem target_transcribed (known : u.get? (T.name r.name) = t.get? r.name) :
    (T.relocation r).target u = renameFault T.name (r.target t) := by
  obtain ⟨name, patch, stop, pos, reference⟩ := r
  cases reference with
  | code => exact SymbolTable.resolveLabel_rename known
  | data =>
    simp only [target, Transcription.relocation, SymbolTable.resolveData_rename known, renameFault_map]

theorem displacement_transcribed (known : u.get? (T.name r.name) = t.get? r.name) :
    (T.relocation r).displacement u = renameFault T.name (r.displacement t) := by
  simp only [displacement, target_transcribed known, renameFault_bind, renameFault_ite,
    renameFault_pure, renameFault_throw, Fault.rename]
  rfl

theorem resolveAll_transcribed {relocations : List Relocation}
    (known : ∀ r ∈ relocations, u.get? (T.name r.name) = t.get? r.name) (code : CodeBuffer) :
    resolveAll u code (relocations.map T.relocation) =
      T.resolution (resolveAll t code relocations) := by
  induction relocations generalizing code with
  | nil => rfl
  | cons r rest ih =>
    obtain ⟨first, later⟩ := List.forall_mem_cons.mp known
    simp only [List.map_cons, resolveAll, displacement_transcribed first]
    cases r.displacement t with
    | error fault => rfl
    | ok d =>
      simp only [renameFault_ok, Transcription.relocation]
      cases code.patch? r.patch (displacementBytes d) with
      | none => rfl
      | some patched => exact ih later patched

end Relocation

theorem SymbolTable.rebaseData_rename (t : SymbolTable) (f : String → String) (base : Nat) :
    (t.rename f).rebaseData base = (t.rebaseData base).rename f := by
  simp [rebaseData, rename]

theorem SymbolTable.Within.rebaseData {t : SymbolTable} {names : Set String} (within : t.Within names)
    (base : Nat) : (t.rebaseData base).Within names := by
  intro _ moved
  obtain ⟨entry, member, rfl⟩ := List.mem_map.mp moved
  exact within entry member

namespace X64

/-- The step with another name in what it refers to. -/
def Step.rename (f : String → String) (s : Step) : Step :=
  ⟨s.instr, s.refers.map fun target => (f target.1, target.2)⟩

/-- A step that may be a fault, with another name in either. -/
def renameStep (f : String → String) (step : Except Fault Step) : Except Fault Step :=
  (renameFault f step).map (Step.rename f)

section Lowering

variable (f : String → String)

@[simp] theorem renameFault_generalReg (r : Register) :
    renameFault f (generalReg r) = generalReg r := by
  unfold generalReg
  dsimp only
  split
  · rfl
  · split <;> rfl

@[simp] theorem renameFault_imm32 (n : Int64) : renameFault f (imm32 n) = imm32 n := by
  rw [imm32, renameFault_map, renameFault_checkRange]

@[simp] theorem renameFault_plan (dest : Register) (src : Operand) (remainder : Bool) :
    renameFault f (Division.plan dest src remainder) = Division.plan dest src remainder := by
  cases src <;> simp [Division.plan, renameFault_ite, Fault.rename, AddressingFault.rename]

theorem sizeOf_nameless : Nameless sizeOf := by
  intro f op
  cases op with
  | product op _ src => cases op <;> cases src <;> simp [Operation.rename, sizeOf]
  | set _ src => cases src <;> rfl
  | load | store | shift => simp [Operation.rename, sizeOf]
  | _ => rfl

/-- There is no name in the step, nor in its fault. -/
def Unnamed (step : Except Fault Step) : Prop := ∀ f, renameStep f step = step

theorem unnamed_plain {i : Except Fault Instr} (unnamed : ∀ f, renameFault f i = i) :
    Unnamed (plain i) := by
  intro f
  rw [renameStep, plain, renameFault_map, unnamed]
  cases i <;> rfl

theorem unnamed_error {α : Type} {value : Except Fault α} (unnamed : ∀ f, renameFault f value = value)
    {fault : Fault} (failed : value = .error fault) : Unnamed (.error fault) := by
  intro f
  have same := unnamed f
  rw [failed] at same
  exact congrArg Except.error (Except.error.inj same)

theorem unnamed_withOperand (dest : Register) (src : Operand) (reg : GeneralReg → GeneralReg → Instr)
    (imm : GeneralReg → Int32 → Instr) : Each Unnamed (withOperand dest src reg imm) :=
  each_withOperand (fun _ failed => unnamed_error (fun _ => renameFault_generalReg _ _) failed)
    (fun _ _ => unnamed_plain (by simp)) (fun _ _ => unnamed_plain (by simp))

theorem unnamed_division (dest : Register) (src : Operand) (remainder : Bool) :
    Each Unnamed (require (Division.plan dest src remainder) fun p => p.steps src) :=
  .require (fun _ failed => unnamed_error (fun _ => renameFault_plan _ _ _ _) failed) fun _ _ =>
    each_division (fun _ _ _ _ _ => rfl) (fun _ => unnamed_plain (by simp))
      (fun _ => unnamed_plain (by simp))

/-- An operation without names is lowered without names. -/
theorem unnamed_lower (t : SymbolTable) {op : Operation} (unnamed : op.mentions? = none) :
    Each Unnamed (lower t op) := by
  cases op with
  | mov | store | binary | cmp => exact unnamed_withOperand _ _ _ _
  | product op =>
    cases op with
    | mul => exact unnamed_withOperand _ _ _ _
    | div | mod => exact unnamed_division _ _ _
  | load | unary | shift | ret | halt | nop | push | pop | int =>
    exact .single (unnamed_plain (by simp))
  | org => exact .nil
  | bit => exact .single fun _ => rfl
  | _ => cases unnamed

variable {f} {t u : SymbolTable}

theorem map_renameStep_of_unnamed {steps : Steps} (unnamed : Each Unnamed steps) :
    steps.map (renameStep f) = steps := by
  rw [List.map_congr_left fun step member => unnamed step member f, List.map_id']

theorem require_eq_map_renameStep {α : Type} {value : Except Fault α} {steps steps' : α → Steps}
    (unnamed : renameFault f value = value) (each : ∀ a, steps' a = (steps a).map (renameStep f)) :
    require value steps' = (require value steps).map (renameStep f) := by
  cases value with
  | ok a => exact each a
  | error fault => exact congrArg (fun fault => [Except.error fault]) (Except.error.inj unnamed).symm

/-- Lowering looks at a name only to see whether it is a buffer's. -/
theorem lower_rename {op : Operation}
    (known : ∀ name, op.mentions? = some name →
      (u.get? (f name)).map Symbol.kind = (t.get? name).map Symbol.kind) :
    lower u (op.rename f) = (lower t op).map (renameStep f) := by
  have isBuffer (name : String) (found : op.mentions? = some name) :
      (u.get? (f name)).any (·.kind = .buffer) = (t.get? name).any (·.kind = .buffer) := by
    have kinds := congrArg (Option.any (· = .buffer)) (known name found)
    simpa only [Option.any_map] using kinds
  cases op with
  | label | var | buffer | jmp | call | branch | bitBranch | djnz => rfl
  | set name src =>
    simp only [Operation.rename, lower, isBuffer name rfl]
    generalize (t.get? name).any _ = buffer
    cases buffer with
    | true => rfl
    | false =>
      cases src with
      | reg r => exact require_eq_map_renameStep (renameFault_generalReg f r) fun _ => rfl
      | imm n => exact require_eq_map_renameStep (renameFault_imm32 f n) fun _ => rfl
  | get dest name =>
    rw [Operation.rename, lower, lower, isBuffer name rfl]
    generalize (t.get? name).any _ = buffer
    refine require_eq_map_renameStep (renameFault_generalReg f dest) fun _ => ?_
    cases buffer <;> rfl
  | product op =>
    rw [map_renameStep_of_unnamed (unnamed_lower t rfl)]
    cases op <;> rfl
  | _ =>
    rw [map_renameStep_of_unnamed (unnamed_lower t rfl)]
    rfl

end Lowering

theorem allocator_nameless : (Data.allocator memory).Nameless where
  var f init d fault left failed := by
    obtain ⟨rfl, _⟩ := Data.var_eq_error failed
    rfl
  buffer f length d fault left failed := by
    obtain ⟨⟨rfl, _⟩ | ⟨rfl, _⟩, _⟩ := Data.buffer_eq_error failed <;> rfl

/-- The same code, with the same references under other names, while names are looked up in `t` and
in `u`. -/
structure Output.Alike (T : Transcription) (t u : SymbolTable) (a b : Output) : Prop where
  symbols : a.symbols = t
  symbols' : b.symbols = u
  code : b.code = a.code
  relocations : b.relocations = a.relocations.map T.relocation

section Emission

variable {T : Transcription} {t u : SymbolTable} {a b : Output} {program : List Instruction}

theorem Output.Alike.eq (alike : Alike T t u a b) :
    b = ⟨u, a.code, a.relocations.map T.relocation⟩ := by
  rw [← alike.symbols', ← alike.code, ← alike.relocations]

theorem relocation?_transcribed (T : Transcription) (pos : Position) (start : Nat) (s : Step) :
    Output.relocation? (T.place pos) start (s.rename T.name) =
      (Output.relocation? pos start s).map T.relocation := by
  obtain ⟨instr, refers⟩ := s
  cases refers with
  | none => rfl
  | some target =>
    simp only [Output.relocation?, Step.rename]
    cases instr.displacementOffset <;> rfl

theorem Output.put_alike (pos : Position) (s : Step) (alike : Alike T t u a b) :
    Corresponds T.name (Alike T t u) (put memory pos s a)
      (put memory (T.place pos) (s.rename T.name) b) := by
  obtain rfl := alike.eq
  obtain ⟨_, code, relocations⟩ := a
  obtain rfl := alike.symbols
  unfold put
  dsimp only
  rw [relocation?_transcribed]
  simp only [Step.rename]
  cases extended : CodeBuffer.extend memory s.instr.bytes code with
  | ok _ grown =>
    refine .ok ⟨rfl, rfl, rfl, ?_⟩
    rw [List.map_append, Option.toList_map]
  | error fault stopped =>
    cases CodeBuffer.extend_eq_error extended
    exact .error .outOfMemory

theorem emitter_transcribes (known : ∀ name ∈ mentioned program,
      (u.get? (T.name name)).map Symbol.kind = (t.get? name).map Symbol.kind) :
    (emitter memory).Transcribes T (Output.Alike T t u) program where
  sizes := sizeOf_nameless
  offset a b alike := congrArg CodeBuffer.size alike.code
  pad count a b alike := emitter_padsWith.corresponds T.name alike.code
    (fun _ => ⟨alike.symbols, alike.symbols', rfl, alike.relocations⟩) count
  emit i member a b alike := by
    have lowered := lower_rename (f := T.name)
      (fun name found => known name (List.mem_filterMap.mpr ⟨i, member, found⟩))
    change Corresponds _ _ (putAll (Output.put memory i.pos) (lower a.symbols i.op) a)
      (putAll (Output.put memory (T.place i.pos)) (lower b.symbols (i.op.rename T.name)) b)
    rw [alike.symbols, alike.symbols', lowered]
    exact Corresponds.putAll (fun s a b => Output.put_alike i.pos s) (lower t i.op) alike

theorem mentions?_of_site? {op : Operation} {site : Site} (referring : site? op = some site) :
    op.mentions? = some site.name := by
  cases op with
  | jmp | call | branch | get =>
    cases referring
    rfl
  | set name src =>
    cases src <;> cases referring <;> rfl
  | _ => cases referring

theorem name_mem_of_relocationAt {index : Nat} {r : Relocation}
    (kept : relocationAt memory program index = some r) : r.name ∈ mentioned program := by
  obtain ⟨i, present, kept⟩ := Option.bind_eq_some_iff.mp kept
  obtain ⟨site, referring, rfl⟩ := Option.map_eq_some_iff.mp kept
  exact List.mem_filterMap.mpr ⟨i, List.mem_of_getElem? present, mentions?_of_site? referring⟩

variable (injective : Set.InjOn T.name {name | name ∈ mentioned program})
include injective

theorem layout_transcribes :
    Layout.Transcribed T program (layoutOf memory program) (layoutOf memory (program.map T.instruction)) :=
  Layout.run_transcribed (show Nameless sizer.sizeOf from sizeOf_nameless) allocator_nameless injective

theorem start_transcribed (laid : (layoutOf memory program).2 = none) :
    (start memory (program.map T.instruction)).symbols = (start memory program).symbols.rename T.name ∧
      ∀ name ∈ mentioned program,
        (start memory (program.map T.instruction)).symbols.get? (T.name name) =
          (start memory program).symbols.get? name := by
  obtain ⟨layout, within⟩ := (layout_transcribes injective).2 laid
  have symbols : (start memory (program.map T.instruction)).symbols =
      (start memory program).symbols.rename T.name := by
    rw [start, layout]
    exact SymbolTable.rebaseData_rename _ _ _
  refine ⟨symbols, fun name among => ?_⟩
  rw [symbols]
  exact SymbolTable.get?_rename injective (within.rebaseData _) among

theorem emissionOf_transcribed (laid : (layoutOf memory program).2 = none) :
    (emissionOf memory (program.map T.instruction)).2 = (emissionOf memory program).2.map T.report ∧
      ((emissionOf memory program).2 = none →
        Output.Alike T (start memory program).symbols ((start memory program).symbols.rename T.name)
          (emissionOf memory program).1 (emissionOf memory (program.map T.instruction)).1) := by
  obtain ⟨symbols, known⟩ := start_transcribed injective laid
  rw [symbols] at known
  exact (emitter_transcribes fun name among => congrArg _ (known name among)).run
    ⟨rfl, symbols, rfl, rfl⟩

theorem resolveAll_transcribed (laid : (layoutOf memory program).2 = none)
    (emitted : (emissionOf memory program).2 = none) :
    Relocation.resolveAll (emissionOf memory (program.map T.instruction)).1.symbols
        (emissionOf memory (program.map T.instruction)).1.code
        (emissionOf memory (program.map T.instruction)).1.relocations =
      T.resolution (Relocation.resolveAll (emissionOf memory program).1.symbols
        (emissionOf memory program).1.code (emissionOf memory program).1.relocations) := by
  obtain ⟨symbols, known⟩ := start_transcribed injective laid
  rw [symbols] at known
  have alike := (emissionOf_transcribed injective laid).2 emitted
  rw [alike.symbols', alike.code, alike.relocations, alike.symbols]
  refine Relocation.resolveAll_transcribed (fun r member => ?_) _
  obtain ⟨_, kept⟩ := (mem_relocations_iff emitted).mp member
  exact known r.name (name_mem_of_relocationAt kept)

end Emission

/-- The end of generation: what comes of the relocations, and the data after the code. -/
def link (memory : Memory) (layout : Layout Data) (symbols : SymbolTable) :
    Relocation.Outcome → Except GenerationFailure Image
  | .outside => throw .misplacedRelocation
  | .rejected _ fault => throw (.rejected fault)
  | .resolved code =>
    match CodeBuffer.extend memory layout.storage.bytes code with
    | .error fault _ => throw (.rejected ⟨.nowhere, fault⟩)
    | .ok _ code => return ⟨.x64, code.bytes, layout.pc, symbols, []⟩

theorem link_transcribed (T : Transcription) (layout : Layout Data) (symbols : SymbolTable)
    (resolution : Relocation.Outcome) :
    link memory (layout.rename T.name) (symbols.rename T.name) (T.resolution resolution) =
      T.outcome (link memory layout symbols resolution) := by
  cases resolution with
  | outside | rejected => rfl
  | resolved code =>
    simp only [Transcription.resolution, link, Layout.rename]
    cases extended : CodeBuffer.extend memory layout.storage.bytes code with
    | ok _ grown => rfl
    | error fault stopped =>
      cases CodeBuffer.extend_eq_error extended
      change Except.error (GenerationFailure.rejected ⟨.nowhere, _⟩) =
        Except.error (GenerationFailure.rejected ⟨T.place .nowhere, _⟩)
      rw [T.nowhere]
      rfl

/-- Generation, said with the passes over the whole program. -/
theorem generate_eq (program : List Instruction) :
    X64.generate memory program = (do
      passed () (layoutOf memory program).2
      let _ ← imageBuffer memory
        ((layoutOf memory program).1.pc + (layoutOf memory program).1.storage.size)
      passed () (emissionOf memory program).2
      link memory (layoutOf memory program).1 (emissionOf memory program).1.symbols
        (Relocation.resolveAll (emissionOf memory program).1.symbols (emissionOf memory program).1.code
          (emissionOf memory program).1.relocations)) := by
  unfold X64.generate
  change (passed () (layoutOf memory program).2 >>= fun _ => imageBuffer memory
    ((layoutOf memory program).1.pc + (layoutOf memory program).1.storage.size) >>= _) = _
  cases made : imageBuffer memory
      ((layoutOf memory program).1.pc + (layoutOf memory program).1.storage.size) with
  | error failure => rfl
  | ok code =>
    obtain ⟨_, rfl⟩ := imageBuffer_eq_ok_iff.mp made
    rfl

/-- On x86-64, a transcribed program comes to the transcript of what the program comes to. -/
theorem generate_transcribed {T : Transcription} {program : List Instruction}
    (injective : Set.InjOn T.name {name | name ∈ mentioned program}) :
    X64.generate memory (program.map T.instruction) = T.outcome (X64.generate memory program) := by
  obtain ⟨unlaid, layout⟩ := layout_transcribes injective
  rw [generate_eq, generate_eq, unlaid]
  cases laid : (layoutOf memory program).2 with
  | some report => rfl
  | none =>
    obtain ⟨unemitted, emission⟩ := emissionOf_transcribed injective laid
    rw [(layout laid).1, unemitted]
    change (imageBuffer memory
      ((layoutOf memory program).1.pc + (layoutOf memory program).1.storage.size) >>= _) = _
    cases made : imageBuffer memory
        ((layoutOf memory program).1.pc + (layoutOf memory program).1.storage.size) with
    | error failure => exact (T.outcome_imageBuffer made).symm
    | ok _ =>
      cases emitted : (emissionOf memory program).2 with
      | some report => rfl
      | none =>
        have alike := emission emitted
        change link memory _ _ _ = T.outcome (link memory _ _ _)
        rw [resolveAll_transcribed injective laid emitted, alike.symbols', alike.symbols]
        exact link_transcribed T _ _ _

end X64

end CrossAsm
