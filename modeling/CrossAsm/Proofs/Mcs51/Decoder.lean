import CrossAsm.Mcs51.Instr

/-!
A decoder for 8051 code, in the format in which it is emitted. The high digit of an opcode tells the
operation; a low digit of 8 or more names a working register besides, and one of 6 or 7 a pointer. Where
the accumulator is combined with a register, a byte of its own names the register. Decoding gives back
every instruction and what follows it (`decode_bytes`), so code is made of instructions in one way only
(`flatMap_bytes_injective`).
-/
namespace CrossAsm.Mcs51.Decoder

/-- The operation of the accumulator and an operand that has this high digit. -/
def aluOp? : Nat → Option AluOp
  | 2 => some .add
  | 4 => some .orl
  | 5 => some .anl
  | 6 => some .xrl
  | 9 => some .subb
  | _ => none

/-- The working register at an address of RAM. -/
def workReg? (direct : UInt8) : Option WorkReg :=
  if low : direct.toNat < 8 then some ⟨direct.toNat, low⟩ else none

def address (high low : UInt8) : UInt16 := UInt16.ofNat (high.toNat * 256 + low.toNat)

/-- An instruction whose opcode ends in a working register. -/
def withRegister? (digit : Nat) (r : WorkReg) (rest : List UInt8) : Option (Instr × List UInt8) :=
  match digit, rest with
  | 0x0, rest => some (.incReg r, rest)
  | 0x1, rest => some (.decReg r, rest)
  | 0x7, data :: rest => some (.movRegImm r data, rest)
  | 0x8, direct :: rest => some (.movDirectReg direct r, rest)
  | 0xA, direct :: rest => some (.movRegDirect r direct, rest)
  | 0xD, distance :: rest => some (.djnz r distance.toInt8, rest)
  | 0xE, rest => some (.movAReg r, rest)
  | 0xF, rest => some (.movRegA r, rest)
  | digit, direct :: rest =>
    -- the register stands in the byte after the opcode, and not in the opcode
    if r = 0 then do
      let op ← aluOp? digit
      let operand ← workReg? direct
      some (.aluReg op operand, rest)
    else none
  | _, [] => none

/-- An instruction whose opcode ends in a pointer. -/
def withPointer? (digit : Nat) (p : Pointer) (rest : List UInt8) : Option (Instr × List UInt8) :=
  match digit, rest with
  | 0x7, data :: rest => some (.movIndirectImm p data, rest)
  | 0xE, rest => some (.movAIndirect p, rest)
  | 0xF, rest => some (.movIndirectA p, rest)
  | _, _ => none

/-- An instruction whose opcode names no register. -/
def plain? : List UInt8 → Option (Instr × List UInt8)
  | 0x00 :: rest => some (.nop, rest)
  | 0x02 :: high :: low :: rest => some (.ljmp (address high low), rest)
  | 0x03 :: rest => some (.rrA, rest)
  | 0x04 :: rest => some (.incA, rest)
  | 0x12 :: high :: low :: rest => some (.lcall (address high low), rest)
  | 0x20 :: bit :: distance :: rest => some (.jb bit distance.toInt8, rest)
  | 0x22 :: rest => some (.ret, rest)
  | 0x23 :: rest => some (.rlA, rest)
  | 0x30 :: bit :: distance :: rest => some (.jnb bit distance.toInt8, rest)
  | 0x40 :: distance :: rest => some (.jc distance.toInt8, rest)
  | 0x50 :: distance :: rest => some (.jnc distance.toInt8, rest)
  | 0x60 :: distance :: rest => some (.jz distance.toInt8, rest)
  | 0x70 :: distance :: rest => some (.jnz distance.toInt8, rest)
  | 0x75 :: direct :: data :: rest => some (.movDirectImm direct data, rest)
  | 0x80 :: distance :: rest => some (.sjmp distance.toInt8, rest)
  | 0x84 :: rest => some (.divAB, rest)
  | 0xA4 :: rest => some (.mulAB, rest)
  | 0xB2 :: bit :: rest => some (.complementBit bit, rest)
  | 0xC0 :: direct :: rest => some (.push direct, rest)
  | 0xC2 :: bit :: rest => some (.clearBit bit, rest)
  | 0xC3 :: rest => some (.clrC, rest)
  | 0xD0 :: direct :: rest => some (.pop direct, rest)
  | 0xD2 :: bit :: rest => some (.setBit bit, rest)
  | 0xE5 :: direct :: rest => some (.movADirect direct, rest)
  | 0xF4 :: rest => some (.cplA, rest)
  | opcode :: data :: rest =>
    if opcode.toNat % 16 = 4 then (aluOp? (opcode.toNat / 16)).map fun op => (.aluImm op data, rest)
    else none
  | _ => none

/-- The first instruction of some code, and what follows it. -/
def decode : List UInt8 → Option (Instr × List UInt8)
  | [] => none
  | opcode :: rest =>
    if 8 ≤ opcode.toNat % 16 then
      withRegister? (opcode.toNat / 16) ⟨opcode.toNat % 8, Nat.mod_lt _ (by decide)⟩ rest
    else if 6 ≤ opcode.toNat % 16 then
      withPointer? (opcode.toNat / 16) ⟨opcode.toNat % 2, Nat.mod_lt _ (by decide)⟩ rest
    else plain? (opcode :: rest)

theorem toNat_direct (r : WorkReg) : r.direct.toNat = r.val :=
  Nat.mod_eq_of_lt (Nat.lt_trans r.isLt (by decide))

theorem toNat_code (p : Pointer) : p.code.toNat = p.val :=
  Nat.mod_eq_of_lt (Nat.lt_trans p.isLt (by decide))

/-- An opcode with room for a register keeps its high digit and takes the register into its low one. -/
theorem decode_register {base : UInt8} (room : base.toNat % 16 = 8) (r : WorkReg) (rest : List UInt8) :
    decode ((base + r.direct) :: rest) = withRegister? (base.toNat / 16) r rest := by
  have bound := base.toNat_lt
  have sum : (base + r.direct).toNat = base.toNat + r.val := by
    rw [UInt8.toNat_add, toNat_direct]
    omega
  have low : 8 ≤ (base + r.direct).toNat % 16 := by omega
  have high : (base + r.direct).toNat / 16 = base.toNat / 16 := by omega
  have same : (⟨(base + r.direct).toNat % 8, Nat.mod_lt _ (by decide)⟩ : WorkReg) = r := by
    apply Fin.ext
    dsimp only
    omega
  rw [decode, if_pos low, high, same]

theorem decode_pointer {base : UInt8} (room : base.toNat % 16 = 6) (p : Pointer) (rest : List UInt8) :
    decode ((base + p.code) :: rest) = withPointer? (base.toNat / 16) p rest := by
  have bound := base.toNat_lt
  have sum : (base + p.code).toNat = base.toNat + p.val := by
    rw [UInt8.toNat_add, toNat_code]
    omega
  have notRegister : ¬ 8 ≤ (base + p.code).toNat % 16 := by omega
  have low : 6 ≤ (base + p.code).toNat % 16 := by omega
  have high : (base + p.code).toNat / 16 = base.toNat / 16 := by omega
  have same : (⟨(base + p.code).toNat % 2, Nat.mod_lt _ (by decide)⟩ : Pointer) = p := by
    apply Fin.ext
    dsimp only
    omega
  rw [decode, if_neg notRegister, if_pos low, high, same]

theorem workReg?_direct (r : WorkReg) : workReg? r.direct = some r := by
  simp [workReg?, toNat_direct]

/-- An address is read back from its two bytes. -/
theorem address_bytes (word : UInt16) :
    address (UInt8.ofNat (word.toNat / 256)) (UInt8.ofNat word.toNat) = word := by
  have bound := word.toNat_lt
  have joined : (UInt8.ofNat (word.toNat / 256)).toNat * 256 + (UInt8.ofNat word.toNat).toNat =
      word.toNat := by
    rw [UInt8.toNat_ofNat', UInt8.toNat_ofNat']
    omega
  rw [address, joined, UInt16.ofNat_toNat]

theorem decode_aluReg (op : AluOp) (r : WorkReg) (rest : List UInt8) :
    decode (op.register :: r.direct :: rest) = some (.aluReg op r, rest) := by
  cases op <;> simp [decode, AluOp.register, withRegister?, aluOp?, workReg?_direct]

theorem decode_aluImm (op : AluOp) (data : UInt8) (rest : List UInt8) :
    decode (op.immediate :: data :: rest) = some (.aluImm op data, rest) := by
  cases op <;> rfl

/-- An instruction is read back from its bytes, with what follows it. -/
theorem decode_bytes (i : Instr) (rest : List UInt8) : decode (i.bytes ++ rest) = some (i, rest) := by
  cases i with
  | movAReg r | movRegA r | incReg r | decReg r => exact decode_register rfl r _
  | movRegImm r data => exact decode_register rfl r _
  | movDirectReg direct r => exact decode_register rfl r _
  | movRegDirect r direct => exact decode_register rfl r _
  | djnz r distance =>
    refine (decode_register rfl r _).trans ?_
    simp [withRegister?]
  | movAIndirect p | movIndirectA p => exact decode_pointer rfl p _
  | movIndirectImm p data => exact decode_pointer rfl p _
  | aluReg op r => exact decode_aluReg op r rest
  | aluImm op data => exact decode_aluImm op data rest
  | ljmp word => exact congrArg (fun target => some (Instr.ljmp target, rest)) (address_bytes word)
  | lcall word => exact congrArg (fun target => some (Instr.lcall target, rest)) (address_bytes word)
  | sjmp distance => exact congrArg (fun d => some (Instr.sjmp d, rest)) distance.toInt8_toUInt8
  | jc distance => exact congrArg (fun d => some (Instr.jc d, rest)) distance.toInt8_toUInt8
  | jnc distance => exact congrArg (fun d => some (Instr.jnc d, rest)) distance.toInt8_toUInt8
  | jz distance => exact congrArg (fun d => some (Instr.jz d, rest)) distance.toInt8_toUInt8
  | jnz distance => exact congrArg (fun d => some (Instr.jnz d, rest)) distance.toInt8_toUInt8
  | jb bit distance => exact congrArg (fun d => some (Instr.jb bit d, rest)) distance.toInt8_toUInt8
  | jnb bit distance => exact congrArg (fun d => some (Instr.jnb bit d, rest)) distance.toInt8_toUInt8
  | _ => rfl

theorem bytes_ne_nil (i : Instr) : i.bytes ≠ [] := by
  intro empty
  have read := decode_bytes i []
  rw [empty] at read
  cases read

/-- Code is made of instructions in one way only. -/
theorem flatMap_bytes_injective {first second : List Instr}
    (same : first.flatMap Instr.bytes = second.flatMap Instr.bytes) : first = second := by
  induction first generalizing second with
  | nil =>
    cases second with
    | nil => rfl
    | cons j second =>
      have empty := (List.append_eq_nil_iff.mp same.symm).1
      exact absurd empty (bytes_ne_nil j)
  | cons i first ih =>
    cases second with
    | nil =>
      have empty := (List.append_eq_nil_iff.mp same).1
      exact absurd empty (bytes_ne_nil i)
    | cons j second =>
      have read := decode_bytes i (first.flatMap Instr.bytes)
      rw [← List.flatMap_cons, same, List.flatMap_cons, decode_bytes] at read
      obtain ⟨rfl, others⟩ := Prod.mk.inj (Option.some.inj read)
      rw [ih others.symm]

/-- All the instructions of some code. One that took no byte would be read forever. -/
def decodeAll (code : List UInt8) : Option (List Instr) :=
  match code with
  | [] => some []
  | byte :: rest =>
    match decode (byte :: rest) with
    | none => none
    | some (i, after) => if after.length ≤ rest.length then (decodeAll after).map (i :: ·) else none
termination_by code.length

theorem decodeAll_flatMap_bytes (instrs : List Instr) :
    decodeAll (instrs.flatMap Instr.bytes) = some instrs := by
  induction instrs with
  | nil => rw [List.flatMap_nil, decodeAll]
  | cons i instrs ih =>
    have read := decode_bytes i (instrs.flatMap Instr.bytes)
    rw [List.flatMap_cons]
    cases bytes : i.bytes with
    | nil => exact absurd bytes (bytes_ne_nil i)
    | cons byte more =>
      rw [bytes, List.cons_append] at read
      rw [List.cons_append, decodeAll, read]
      simp [ih]

end CrossAsm.Mcs51.Decoder
