import CrossAsm.Proofs.Mcs51.Emission
import CrossAsm.Proofs.Mcs51.Ram
import CrossAsm.Proofs.Transcription

/-!
Transcription on the 8051. Lowering looks up names and nothing else depends on them, so what a
transcribed operation is lowered to is the transcript of what the operation is lowered to
(`lower_rename`). From there it goes over to whole programs (`generate_transcribed`).
-/
namespace CrossAsm.Mcs51

variable {memory : Memory}

section Lowering

variable (f : String → String)

@[simp] theorem renameFault_workReg (r : Register) : renameFault f (workReg r) = workReg r := by
  unfold workReg
  split <;> rfl

@[simp] theorem renameFault_pointer (r : Register) : renameFault f (pointer r) = pointer r := by
  unfold pointer
  rw [renameFault_bind, renameFault_workReg]
  congr 1
  funext w
  split <;> rfl

@[simp] theorem renameFault_imm8 (n : Int64) : renameFault f (imm8 n) = imm8 n := by
  rw [imm8, renameFault_map, renameFault_checkRange]

@[simp] theorem renameFault_bitAddress (n : Int64) : renameFault f (bitAddress n) = bitAddress n := by
  rw [bitAddress, renameFault_map, renameFault_checkRange]

@[simp] theorem renameFault_alu (op : AluOp) (src : Operand) :
    renameFault f (alu op src) = alu op src := by
  cases src <;> simp [alu]

@[simp] theorem renameFault_movDirect (direct : UInt8) (src : Operand) :
    renameFault f (movDirect direct src) = movDirect direct src := by
  cases src <;> simp [movDirect]

@[simp] theorem map_renameFault_throughA (dest : Register) (work : Steps) :
    (throughA dest work).map (renameFault f) = throughA dest (work.map (renameFault f)) := by
  simp [throughA]

theorem renameFault_sizeOf (op : Operation) : renameFault f (sizeOf op) = sizeOf op := by
  cases op with
  | binary op | unary op => cases op <;> rfl
  | product op _ src => cases op <;> cases src <;> rfl
  | branch condition => cases condition <;> rfl
  | set _ src => cases src <;> rfl
  | shift => simp [sizeOf]
  | _ => rfl

theorem sizeOf_nameless : Nameless sizeOf := by
  intro f op
  rw [renameFault_sizeOf]
  cases op with
  | branch condition => cases condition <;> rfl
  | set _ src => cases src <;> rfl
  | _ => rfl

variable {f} {t u : SymbolTable} {target : String}

theorem absolute_rename (known : u.get? (f target) = t.get? target) :
    absolute u (f target) = renameFault f (absolute t target) := by
  unfold absolute
  rw [renameFault_bind, SymbolTable.resolveLabel_rename known]
  congr 1
  funext address
  rw [renameFault_ite]
  rfl

theorem relative_rename (known : u.get? (f target) = t.get? target) (stop : Nat) :
    relative u (f target) stop = renameFault f (relative t target stop) := by
  simp only [relative, SymbolTable.resolveLabel_rename known, renameFault_bind, renameFault_ite,
    renameFault_pure, renameFault_throw, Fault.rename]

theorem branch_rename (known : u.get? (f target) = t.get? target) (offset : Nat)
    (condition : Condition) :
    branch u offset condition (f target) = (branch t offset condition target).map (renameFault f) := by
  cases condition <;> simp [branch, relative_rename known]

/-- Lowering looks at a name only to look it up. -/
theorem lower_rename {op : Operation}
    (known : ∀ name, op.mentions? = some name → u.get? (f name) = t.get? name) (offset : Nat) :
    lower u offset (op.rename f) = (lower t offset op).map (renameFault f) := by
  cases op with
  | mov dest src | store dest src => cases src <;> simp [lower, Operation.rename]
  | binary op | unary op => cases op <;> simp [lower, Operation.rename]
  | product op => cases op <;> simp [lower, Operation.rename]
  | bit op => cases op <;> simp [lower, Operation.rename]
  | jmp target | call target => simp [lower, Operation.rename, absolute_rename (known target rfl)]
  | branch condition target => exact branch_rename (known target rfl) offset condition
  | bitBranch ifSet n target | djnz counter target =>
    simp [lower, Operation.rename, relative_rename (known target rfl)]
  | set name src =>
    simp only [lower, Operation.rename, SymbolTable.resolveData_rename (known name rfl),
      map_renameFault_require]
    congr 1
    funext symbol
    cases symbol.kind <;> simp [Fault.rename, AddressingFault.rename]
  | get dest name =>
    simp only [lower, Operation.rename, SymbolTable.resolveData_rename (known name rfl),
      map_renameFault_require, renameFault_workReg]
    congr 1
    funext d
    congr 1
    funext symbol
    cases symbol.kind <;> simp
  | int => rfl
  | _ => simp [lower, Operation.rename]

end Lowering

theorem allocator_nameless : Ram.allocator.Nameless where
  var f init ram fault left failed := by
    obtain ⟨rfl | rfl, _⟩ := Ram.var_eq_error failed <;> rfl
  buffer f length ram fault left failed := by
    obtain ⟨rfl | rfl, _⟩ := Ram.buffer_eq_error failed <;> rfl

/-- The same code, while names are looked up in `t` and in `u`. -/
structure Output.Alike (t u : SymbolTable) (a b : Output) : Prop where
  symbols : a.symbols = t
  symbols' : b.symbols = u
  code : b.code = a.code

section Emission

variable {t u : SymbolTable} {a b : Output} {T : Transcription} {program : List Instruction}

theorem Output.put_alike (memory : Memory) (f : String → String) (i : Instr) (alike : Alike t u a b) :
    Corresponds f (Alike t u) (put memory i a) (put memory i b) := by
  refine .lift alike.code (fun code => ⟨alike.symbols, alike.symbols', rfl⟩) fun _ _ _ failed => ?_
  rw [CodeBuffer.extend_eq_error failed]
  rfl

theorem emitter_transcribes
    (known : ∀ name ∈ mentioned program, u.get? (T.name name) = t.get? name) :
    (emitter memory).Transcribes T (Output.Alike t u) program where
  sizes := sizeOf_nameless
  offset a b alike := congrArg CodeBuffer.size alike.code
  pad count a b alike := emitter_padsWith.corresponds T.name alike.code
    (fun _ => ⟨alike.symbols, alike.symbols', rfl⟩) count
  emit i member a b alike := by
    have lowered := lower_rename (f := T.name)
      (fun name found => known name (List.mem_filterMap.mpr ⟨i, member, found⟩)) a.code.size
    change Corresponds _ _ (putAll (Output.put memory) (lower a.symbols a.code.size i.op) a)
      (putAll (Output.put memory) (lower b.symbols b.code.size (i.op.rename T.name)) b)
    rw [alike.symbols, alike.symbols', alike.code, lowered]
    have each := Corresponds.putAll (g := id)
      (fun instr a b => Output.put_alike memory T.name instr) (lower t a.code.size i.op) alike
    simpa using each

variable (injective : Set.InjOn T.name {name | name ∈ mentioned program})
include injective

theorem layout_transcribes :
    Layout.Transcribed T program (layoutOf program) (layoutOf (program.map T.instruction)) :=
  Layout.run_transcribed (show Nameless sizer.sizeOf from sizeOf_nameless) allocator_nameless injective

theorem emissionOf_transcribed (laid : (layoutOf program).2 = none) :
    (emissionOf memory (program.map T.instruction)).2 = (emissionOf memory program).2.map T.report ∧
      ((emissionOf memory program).2 = none →
        Output.Alike (layoutOf program).1.symbols ((layoutOf program).1.symbols.rename T.name)
          (emissionOf memory program).1 (emissionOf memory (program.map T.instruction)).1) := by
  obtain ⟨layout, within⟩ := (layout_transcribes injective).2 laid
  have known (name : String) (among : name ∈ mentioned program) :=
    SymbolTable.get?_rename injective within among
  refine (emitter_transcribes known).run ⟨rfl, ?_, rfl⟩
  rw [start, layout]
  rfl

omit injective in
/-- Generation, said with the passes over the whole program. -/
theorem generate_eq (program : List Instruction) :
    Mcs51.generate memory program = do
      passed () (layoutOf program).2
      let _ ← imageBuffer memory (layoutOf program).1.pc
      passed () (emissionOf memory program).2
      return ⟨.mcs51, (emissionOf memory program).1.code.bytes, (emissionOf memory program).1.code.size,
        (emissionOf memory program).1.symbols, (layoutOf program).1.storage.image⟩ := by
  unfold Mcs51.generate
  change (passed () (layoutOf program).2 >>= fun _ => imageBuffer memory (layoutOf program).1.pc >>= _) = _
  cases made : imageBuffer memory (layoutOf program).1.pc with
  | error failure => rfl
  | ok code =>
    obtain ⟨_, rfl⟩ := imageBuffer_eq_ok_iff.mp made
    rfl

/-- On the 8051, a transcribed program comes to the transcript of what the program comes to. -/
theorem generate_transcribed :
    Mcs51.generate memory (program.map T.instruction) = T.outcome (Mcs51.generate memory program) := by
  obtain ⟨unlaid, layout⟩ := layout_transcribes injective
  rw [generate_eq, generate_eq, unlaid]
  cases laid : (layoutOf program).2 with
  | some report => rfl
  | none =>
    obtain ⟨unemitted, emission⟩ := emissionOf_transcribed injective laid
    rw [(layout laid).1, unemitted]
    change (imageBuffer memory (layoutOf program).1.pc >>= _) =
      T.outcome (imageBuffer memory (layoutOf program).1.pc >>= _)
    cases made : imageBuffer memory (layoutOf program).1.pc with
    | error failure => exact (T.outcome_imageBuffer made).symm
    | ok _ =>
      cases emitted : (emissionOf memory program).2 with
      | some report => rfl
      | none =>
        obtain ⟨symbols, symbols', code⟩ := emission emitted
        change Except.ok (Image.mk _ _ _ _ _) = .ok (Image.rename T.name (Image.mk _ _ _ _ _))
        rw [code, symbols', Image.rename, symbols]
        rfl

end Emission

end CrossAsm.Mcs51
