import CrossAsm.Proofs.Mcs51.Transfers
import CrossAsm.Proofs.Operands

/-!
Which operations have 8051 code. `Encodable` is what the machine asks of the operands of an operation and
`Linked` what it asks of the names in it; lowering runs into no fault exactly if both hold
(`clear_lower_iff`).
-/
namespace CrossAsm.Mcs51

variable {memory : Memory}

/-- What the machine asks of the operands of an operation. -/
structure Encodable (op : Operation) : Prop where
  supported : ∀ vector, op ≠ .int vector
  shift : ∀ count, op.shiftCount? = some count → ∃ n, count = .imm n ∧ 0 ≤ n.toInt ∧ n.toInt ≤ 7
  registers : ∀ r ∈ op.registers, r.number.toNat ≤ 7
  pointers : ∀ r ∈ op.pointers, r.number.toNat ≤ 1
  immediates : ∀ n ∈ op.immediates, -128 ≤ n.toInt ∧ n.toInt ≤ 255
  bits : ∀ n ∈ op.bitAddresses, 0 ≤ n.toInt ∧ n.toInt ≤ 255

/-- A relative jump that ends at `stop` can go to the address. -/
def InReach (address stop : Nat) : Prop :=
  -128 ≤ (address : Int) - stop ∧ (address : Int) - stop ≤ 127

/-- The transfer that starts at `start` can go to the address. -/
def Reaches (address start : Nat) : Operation → Prop
  | .jmp _ | .call _ => address ≤ 0xFFFF
  | .branch .greater _ => InReach address (start + 6)
  | .branch .lessEqual _ => InReach address (start + 2) ∧ InReach address (start + 4)
  | .branch _ _ | .djnz _ _ => InReach address (start + 2)
  | .bitBranch _ _ _ => InReach address (start + 3)
  | _ => True

/-- What the machine asks of the names in an operation whose code starts at `start`. -/
structure Linked (symbols : SymbolTable) (start : Nat) (op : Operation) : Prop where
  target : ∀ name, target? op = some name →
    ∃ address, symbols.get? name = some ⟨.label, address⟩ ∧ Reaches address start op
  set : ∀ name src, op = .set name src → ∃ address, symbols.get? name = some ⟨.var, address⟩
  get : ∀ dest name, op = .get dest name →
    ∃ address, symbols.get? name = some ⟨.var, address⟩ ∨ symbols.get? name = some ⟨.buffer, address⟩

theorem encodable_iff {op : Operation} :
    Encodable op ↔ (∀ vector, op ≠ .int vector) ∧
      (∀ count, op.shiftCount? = some count → ∃ n, count = .imm n ∧ 0 ≤ n.toInt ∧ n.toInt ≤ 7) ∧
      (∀ r ∈ op.registers, r.number.toNat ≤ 7) ∧ (∀ r ∈ op.pointers, r.number.toNat ≤ 1) ∧
      (∀ n ∈ op.immediates, -128 ≤ n.toInt ∧ n.toInt ≤ 255) ∧
      ∀ n ∈ op.bitAddresses, 0 ≤ n.toInt ∧ n.toInt ≤ 255 := by
  constructor
  · intro h
    exact ⟨h.supported, h.shift, h.registers, h.pointers, h.immediates, h.bits⟩
  · intro h
    obtain ⟨supported, shift, registers, pointers, immediates, bits⟩ := h
    exact ⟨supported, shift, registers, pointers, immediates, bits⟩

theorem linked_iff {symbols : SymbolTable} {start : Nat} {op : Operation} :
    Linked symbols start op ↔
      (∀ name, target? op = some name →
        ∃ address, symbols.get? name = some ⟨.label, address⟩ ∧ Reaches address start op) ∧
      (∀ name src, op = .set name src → ∃ address, symbols.get? name = some ⟨.var, address⟩) ∧
      ∀ dest name, op = .get dest name → ∃ address,
        symbols.get? name = some ⟨.var, address⟩ ∨ symbols.get? name = some ⟨.buffer, address⟩ := by
  constructor
  · intro h
    exact ⟨h.target, h.set, h.get⟩
  · intro h
    obtain ⟨target, set, get⟩ := h
    exact ⟨target, set, get⟩

section Operands

@[simp] theorem exists_workReg {r : Register} : (∃ w, workReg r = .ok w) ↔ r.number.toNat ≤ 7 := by
  unfold workReg
  split
  next small => simp [Nat.le_of_lt_succ small]
  next large => simp [Nat.lt_of_not_le (fun small => large (Nat.lt_succ_of_le small))]

@[simp high] theorem exists_pointer {r : Register} : (∃ p, pointer r = .ok p) ↔ r.number.toNat ≤ 1 := by
  constructor
  · rintro ⟨p, known⟩
    obtain ⟨w, working, checked⟩ := bind_eq_ok_iff.mp known
    unfold workReg at working
    split at working
    · cases working
      dsimp only at checked
      split at checked
      · omega
      · cases checked
    · cases working
  · intro small
    refine ⟨⟨r.number.toNat, by omega⟩, bind_eq_ok_iff.mpr ⟨⟨r.number.toNat, by omega⟩, ?_, ?_⟩⟩
    · rw [workReg, dif_pos (by omega)]
    · rw [dif_pos (by dsimp only; omega)]
      rfl

@[simp] theorem exists_imm8 {n : Int64} : (∃ b, imm8 n = .ok b) ↔ -128 ≤ n.toInt ∧ n.toInt ≤ 255 := by
  rw [imm8, exists_map_eq_ok, exists_checkRange_eq_ok]

@[simp] theorem exists_bitAddress {n : Int64} :
    (∃ b, bitAddress n = .ok b) ↔ 0 ≤ n.toInt ∧ n.toInt ≤ 255 := by
  rw [bitAddress, exists_map_eq_ok, exists_checkRange_eq_ok]

@[simp] theorem exists_alu {op : AluOp} {src : Operand} :
    (∃ i, alu op src = .ok i) ↔ (∀ r ∈ src.registers, r.number.toNat ≤ 7) ∧
      ∀ n ∈ src.immediates, -128 ≤ n.toInt ∧ n.toInt ≤ 255 := by
  cases src with
  | reg r => simp [alu]
  | imm n => simp [alu]

@[simp] theorem exists_movDirect {direct : UInt8} {src : Operand} :
    (∃ i, movDirect direct src = .ok i) ↔ (∀ r ∈ src.registers, r.number.toNat ≤ 7) ∧
      ∀ n ∈ src.immediates, -128 ≤ n.toInt ∧ n.toInt ≤ 255 := by
  cases src with
  | reg r => simp [movDirect]
  | imm n => simp [movDirect]

@[simp] theorem clear_throughA {dest : Register} {work : Steps} :
    Clear (throughA dest work) ↔ dest.number.toNat ≤ 7 ∧ Clear work := by
  rw [throughA, clear_require, ← exists_workReg]
  simp

end Operands

/-- What the machine can have has a size. -/
theorem Encodable.exists_sizeOf {op : Operation} (encodable : Encodable op) :
    ∃ size, sizeOf op = .ok size := by
  cases op with
  | int vector => exact absurd rfl (encodable.supported vector)
  | shift dir dest count =>
    rw [sizeOf, exists_map_eq_ok, exists_shiftCount]
    exact encodable.shift count rfl
  | binary op dest src => cases op <;> exact ⟨_, rfl⟩
  | product op dest src => cases op <;> cases src <;> exact ⟨_, rfl⟩
  | unary op dest => cases op <;> exact ⟨_, rfl⟩
  | branch condition name => cases condition <;> exact ⟨_, rfl⟩
  | set name src => cases src <;> exact ⟨_, rfl⟩
  | _ => exact ⟨_, rfl⟩

section Names

variable {symbols : SymbolTable} {target name : String}

@[simp] theorem exists_absolute : (∃ word, absolute symbols target = .ok word) ↔
    ∃ address, symbols.get? target = some ⟨.label, address⟩ ∧ address ≤ 0xFFFF := by
  constructor
  · rintro ⟨word, known⟩
    exact ⟨_, absolute_eq_ok known, Nat.le_of_lt_succ word.toNat_lt⟩
  · rintro ⟨address, found, low⟩
    refine ⟨UInt16.ofNat address, bind_eq_ok_iff.mpr ⟨address, ?_, if_pos low⟩⟩
    exact SymbolTable.resolveLabel_eq_ok_iff.mpr found

theorem exists_relative (low : LowLabels symbols) {stop : Nat}
    (room : stop < 0x8000000000000000) :
    (∃ distance, relative symbols target stop = .ok distance) ↔
      ∃ address, symbols.get? target = some ⟨.label, address⟩ ∧ InReach address stop := by
  have signed (address : Nat) (found : symbols.get? target = some ⟨.label, address⟩) :
      signedDistance address stop = (address : Int) - stop :=
    signedDistance_of_nonneg (low _ _ found) room
  constructor
  · rintro ⟨distance, known⟩
    obtain ⟨address, found, same⟩ := relative_eq_ok known
    rw [signed address found] at same
    have least := distance.le_toInt
    have most := distance.toInt_lt
    exact ⟨address, found, by omega, by omega⟩
  · rintro ⟨address, found, within⟩
    refine ⟨Int8.ofInt (address - stop), bind_eq_ok_iff.mpr ⟨address, ?_, ?_⟩⟩
    · exact SymbolTable.resolveLabel_eq_ok_iff.mpr found
    · rw [signed address found]
      exact if_pos within

theorem clear_branch_iff (low : LowLabels symbols) {start : Nat}
    (room : start + 6 < 0x8000000000000000) {condition : Condition} :
    Clear (branch symbols start condition target) ↔
      ∃ address, symbols.get? target = some ⟨.label, address⟩ ∧
        Reaches address start (.branch condition target) := by
  have short {past : Nat} (small : past ≤ 6) :
      (∃ distance, relative symbols target (start + past) = .ok distance) ↔ _ :=
    exists_relative low (by omega)
  have first := short (by decide : 2 ≤ 6)
  have second := short (by decide : 4 ≤ 6)
  cases condition with
  | equal | notEqual | less | greaterEqual => simp [branch, first, Reaches]
  | greater => simp [branch, short, Reaches]
  | lessEqual =>
    simp only [branch, clear_cons, exists_map_eq_ok, first, second, clear_nil, and_true,
      Reaches]
    constructor
    · rintro ⟨⟨address, found, near⟩, again, same, far⟩
      cases found.symm.trans same
      exact ⟨address, found, near, far⟩
    · rintro ⟨address, found, near, far⟩
      exact ⟨⟨address, found, near⟩, address, found, far⟩

/-- Lowering runs into no fault exactly if the machine can have the operands and the names. -/
theorem clear_lower_iff (low : LowLabels symbols) {start : Nat}
    (room : start + 6 < 0x8000000000000000) {op : Operation} :
    Clear (lower symbols start op) ↔ Encodable op ∧ Linked symbols start op := by
  rw [encodable_iff, linked_iff]
  have short {name : String} {past : Nat} (small : past ≤ 6) :
      (∃ distance, relative symbols name (start + past) = .ok distance) ↔ _ :=
    exists_relative low (by omega)
  cases op with
  | label | var | buffer | org | ret | halt | nop => simp [lower, target?]
  | mov dest src => cases src <;> simp [lower, target?]
  | load dest pointer =>
    simp [lower, target?]
    omega
  | store pointer src => cases src <;> simp [lower, target?] <;> omega
  | binary op dest src => cases op <;> simp [lower, target?, and_assoc]
  | product op dest src => cases op <;> simp [lower, target?, and_assoc]
  | unary op dest => cases op <;> simp [lower, target?]
  | shift dir dest count =>
    cases count with
    | reg r => simp [lower, target?, shiftCount]
    | imm n => simp [lower, target?, clear_replicate_ok]
  | cmp left right => simp [lower, target?, and_assoc]
  | jmp name => simp [lower, target?, Reaches]
  | call name => simp [lower, target?, Reaches]
  | branch condition name => simp [lower, target?, clear_branch_iff low room]
  | push r => simp [lower, target?]
  | pop r => simp [lower, target?]
  | int n => simp [lower, target?]
  | set name src => simp [lower, target?, SymbolTable.exists_resolveData, and_comm]
  | get dest name => simp [lower, target?, SymbolTable.exists_resolveData, exists_or]
  | bit op n => cases op <;> simp [lower, target?]
  | bitBranch ifSet n name => simp [lower, target?, Reaches, short]
  | djnz counter name => simp [lower, target?, Reaches, short]

end Names

end CrossAsm.Mcs51
