import CrossAsm.Proofs.Operands
import CrossAsm.Proofs.SymbolTable
import CrossAsm.Proofs.X64.CodeSize

/-!
Which operations have x86-64 code. `Encodable` is what the machine asks of the operands of an operation;
of the names in it, lowering asks only that no buffer is assigned to (`clear_lower_iff`), because
displacements are filled in later.
-/
namespace CrossAsm.X64

/-- What the machine asks of the operands of an operation. -/
structure Encodable (op : Operation) : Prop where
  noBit : ∀ action n, op ≠ .bit action n
  noBitBranch : ∀ ifSet n target, op ≠ .bitBranch ifSet n target
  noDjnz : ∀ counter target, op ≠ .djnz counter target
  registers : ∀ r ∈ op.registers, r.number.toNat ≤ 7
  /-- A division uses the stack, so the stack pointer cannot take part. -/
  divided : ∀ r ∈ op.divided, r.number.toNat ≠ 4
  shift : ∀ count, op.shiftCount? = some count → ∃ n, count = .imm n ∧ 0 ≤ n.toInt ∧ n.toInt ≤ 63
  immediates : ∀ n ∈ op.immediates, -0x80000000 ≤ n.toInt ∧ n.toInt ≤ 0x7FFFFFFF
  vector : ∀ n, op = .int n → 0 ≤ n.toInt ∧ n.toInt ≤ 255

theorem encodable_iff {op : Operation} :
    Encodable op ↔ ((∀ action n, op ≠ .bit action n) ∧
      (∀ ifSet n target, op ≠ .bitBranch ifSet n target) ∧
      ∀ counter target, op ≠ .djnz counter target) ∧
      (∀ r ∈ op.registers, r.number.toNat ≤ 7) ∧ (∀ r ∈ op.divided, r.number.toNat ≠ 4) ∧
      (∀ count, op.shiftCount? = some count → ∃ n, count = .imm n ∧ 0 ≤ n.toInt ∧ n.toInt ≤ 63) ∧
      (∀ n ∈ op.immediates, -0x80000000 ≤ n.toInt ∧ n.toInt ≤ 0x7FFFFFFF) ∧
      ∀ n, op = .int n → 0 ≤ n.toInt ∧ n.toInt ≤ 255 := by
  constructor
  · intro h
    exact ⟨⟨h.noBit, h.noBitBranch, h.noDjnz⟩, h.registers, h.divided, h.shift, h.immediates, h.vector⟩
  · intro h
    obtain ⟨⟨noBit, noBitBranch, noDjnz⟩, registers, divided, shift, immediates, vector⟩ := h
    exact ⟨noBit, noBitBranch, noDjnz, registers, divided, shift, immediates, vector⟩

section Operands

theorem generalReg_eq_ok_iff {r : Register} {g : GeneralReg} :
    generalReg r = .ok g ↔ r.number.toNat = g.code.toNat := by
  unfold generalReg
  constructor
  · intro known
    dsimp only at known
    split at known
    next found =>
      cases known
      unfold GeneralReg.ofCode? at found
      split at found <;> cases found <;> assumption
    next => split at known <;> cases known
  · intro same
    dsimp only
    rw [same, GeneralReg.ofCode?_code]

@[simp] theorem exists_generalReg {r : Register} :
    (∃ g, generalReg r = .ok g) ↔ r.number.toNat ≤ 7 := by
  constructor
  · rintro ⟨g, known⟩
    rw [generalReg_eq_ok_iff.mp known]
    cases g <;> decide
  · intro small
    have every : ∀ n : Fin 8, (GeneralReg.ofCode? n.val).isSome := by decide
    obtain ⟨g, found⟩ := Option.isSome_iff_exists.mp (every ⟨r.number.toNat, by omega⟩)
    refine ⟨g, ?_⟩
    unfold generalReg
    simp only [found]

@[simp] theorem exists_plain {i : Except Fault Instr} : (∃ s, plain i = .ok s) ↔ ∃ a, i = .ok a :=
  exists_map_eq_ok

@[simp] theorem exists_imm32 {n : Int64} :
    (∃ v, imm32 n = .ok v) ↔ -0x80000000 ≤ n.toInt ∧ n.toInt ≤ 0x7FFFFFFF := by
  rw [imm32, exists_map_eq_ok, exists_checkRange_eq_ok]

@[simp] theorem clear_withOperand {dest : Register} {src : Operand}
    {reg : GeneralReg → GeneralReg → Instr} {imm : GeneralReg → Int32 → Instr} :
    Clear (withOperand dest src reg imm) ↔ (∀ r ∈ dest :: src.registers, r.number.toNat ≤ 7) ∧
      ∀ n ∈ src.immediates, -0x80000000 ≤ n.toInt ∧ n.toInt ≤ 0x7FFFFFFF := by
  cases src with
  | reg r => simp [withOperand]
  | imm n => simp [withOperand]

theorem clear_move {same : Prop} [Decidable same] {dest src : GeneralReg} :
    Clear (if same then [] else [.ok (⟨.movReg dest src, none⟩ : Step)]) := by
  split <;> simp

theorem clear_around {p : Division} {load : Except Fault Step} :
    Clear (p.around load) ↔ ∃ s, load = .ok s := by
  simp [Division.around, clear_move, clear_map_ok, -List.map_reverse]

theorem clear_steps {p : Division} {src : Operand} :
    Clear (p.steps src) ↔ (∀ r ∈ src.registers, r.number.toNat ≤ 7) ∧
      ∀ n ∈ src.immediates, -0x80000000 ≤ n.toInt ∧ n.toInt ≤ 0x7FFFFFFF := by
  cases src with
  | reg r =>
    change Clear (p.around _) ↔ _
    simp [clear_around]
  | imm n =>
    change Clear (p.around _) ↔ _
    simp [clear_around]

/-- A division is planned for all registers but the stack pointer. -/
theorem exists_plan {dest : Register} {src : Operand} {remainder : Bool} :
    (∃ p, Division.plan dest src remainder = .ok p) ↔
      ∀ r ∈ dest :: src.registers, r.number.toNat ≤ 7 ∧ r.number.toNat ≠ 4 := by
  have other (r : Register) : (r.number.toNat ≤ 7 ∧ r.number.toNat ≠ 4) ↔
      ∃ g, generalReg r = .ok g ∧ g ≠ .rsp := by
    have stack : r.number.toNat = GeneralReg.rsp.code.toNat ↔ generalReg r = .ok .rsp :=
      generalReg_eq_ok_iff.symm
    change _ ∧ ¬ r.number.toNat = GeneralReg.rsp.code.toNat ↔ _
    rw [stack, ← exists_generalReg]
    cases generalReg r <;> simp
  have checked {refused : Prop} [Decidable refused] {fault : Fault} {made : Division} :
      (∃ p, (if refused then .error fault else .ok made : Except Fault Division) = .ok p) ↔
        ¬ refused := by
    split <;> simp [*]
  simp only [List.forall_mem_cons, other]
  unfold Division.plan
  cases src with
  | reg r =>
    cases generalReg dest with
    | error fault => simp [bind, Except.bind]
    | ok d =>
      cases known : generalReg r with
      | error fault => simp [bind, Except.bind, Except.map, known]
      | ok s =>
        simp [bind, Except.bind, Except.map, known, throw, throwThe, MonadExceptOf.throw, pure,
          Except.pure, checked]
  | imm n =>
    cases generalReg dest with
    | error fault => simp [bind, Except.bind]
    | ok d => simp [bind, Except.bind, throw, throwThe, MonadExceptOf.throw, pure, Except.pure, checked]

@[simp] theorem clear_division {dest : Register} {src : Operand} {remainder : Bool} :
    Clear (require (Division.plan dest src remainder) fun p => p.steps src) ↔
      (∀ r ∈ dest :: src.registers, r.number.toNat ≤ 7) ∧
      (∀ r ∈ dest :: src.registers, r.number.toNat ≠ 4) ∧
      ∀ n ∈ src.immediates, -0x80000000 ≤ n.toInt ∧ n.toInt ≤ 0x7FFFFFFF := by
  simp only [clear_require, clear_steps, exists_and_right, exists_plan]
  constructor
  · rintro ⟨planned, _, immediates⟩
    exact ⟨fun r member => (planned r member).1, fun r member => (planned r member).2, immediates⟩
  · rintro ⟨small, other, immediates⟩
    refine ⟨fun r member => ⟨small r member, other r member⟩, ?_, immediates⟩
    intro r member
    exact small r (List.mem_cons_of_mem _ member)

end Operands

/-- What the machine can have has a size. -/
theorem Encodable.exists_sizeOf {op : Operation} (encodable : Encodable op) :
    ∃ size, sizeOf op = .ok size := by
  cases op with
  | load dest p =>
    rw [sizeOf, exists_map_eq_ok, exists_generalReg]
    exact encodable.registers p (by simp)
  | store p src =>
    rw [sizeOf, exists_map_eq_ok, exists_generalReg]
    exact encodable.registers p (by simp)
  | product op dest src =>
    cases op with
    | mul => cases src <;> exact ⟨_, rfl⟩
    | div | mod =>
      rw [sizeOf, exists_map_eq_ok, exists_plan]
      intro r member
      exact ⟨encodable.registers r member, encodable.divided r member⟩
  | shift dir dest count =>
    rw [sizeOf, exists_map_eq_ok, exists_shiftCount]
    exact encodable.shift count rfl
  | set name src => cases src <;> exact ⟨_, rfl⟩
  | bit action n => exact absurd rfl (encodable.noBit action n)
  | bitBranch ifSet n target => exact absurd rfl (encodable.noBitBranch ifSet n target)
  | djnz counter target => exact absurd rfl (encodable.noDjnz counter target)
  | _ => exact ⟨_, rfl⟩

section Names

variable {symbols : SymbolTable}

theorem any_buffer_iff {name : String} : (symbols.get? name).any (·.kind = .buffer) ↔
    ∃ address, symbols.get? name = some ⟨.buffer, address⟩ := by
  rcases symbols.get? name with _ | ⟨kind, address⟩
  · simp
  · simp

/-- Lowering runs into no fault exactly if the machine can have the operands and no buffer is assigned
to. -/
theorem clear_lower_iff {op : Operation} :
    Clear (lower symbols op) ↔ Encodable op ∧
      ∀ name src, op = .set name src → ∀ address, symbols.get? name ≠ some ⟨.buffer, address⟩ := by
  rw [encodable_iff]
  cases op with
  | label | var | buffer | org => simp [lower]
  | ret | halt | nop => simp [lower]
  | jmp | call | branch => simp [lower, refer]
  | mov | store | binary | cmp => simp [lower]
  | load dest p => simp [lower]
  | product op dest src =>
    cases op with
    | mul => simp [lower]
    | div | mod => simp [lower, -clear_require, and_assoc]
  | unary | push | pop => simp [lower]
  | shift dir dest count =>
    cases count with
    | reg r => simp [lower]
    | imm n => simp [lower]
  | int n => simp [lower, exists_checkRange_eq_ok]
  | set name src =>
    by_cases assigned : (symbols.get? name).any (·.kind = .buffer)
    · obtain ⟨address, found⟩ := any_buffer_iff.mp assigned
      cases src <;> simp [lower, found]
    · have other (address : Nat) : symbols.get? name ≠ some ⟨.buffer, address⟩ :=
        fun found => assigned (any_buffer_iff.mpr ⟨address, found⟩)
      cases src <;> simp [lower, assigned, other, refer]
  | get dest name =>
    have either {d : GeneralReg} : Clear (if (symbols.get? name).any (·.kind = .buffer) then
        [refer name .data (.leaRip d)] else [refer name .data (.loadRip d)]) := by
      split <;> simp [refer]
    simp [lower, either]
  | bit | bitBranch | djnz => simp [lower]

end Names

end CrossAsm.X64
