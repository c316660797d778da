import CrossAsm.Proofs.Relocation
import CrossAsm.X64.Instr

/-!
A decoder for x86-64 code. The operand byte says where an operand is found: mode 3 is a register, mode 0
memory at a register and mode 1 memory at a register and a byte; base 4 stands for a further byte that
names the base, and base 5 in mode 0 for a displacement from the end of the instruction. Decoding gives
back every instruction that is emitted, the displacement in it, and what follows (`decode_bytes`).
-/
namespace CrossAsm.X64

/-- A native instruction read from code, and the displacement in it if it has one. -/
structure Decoded where
  instr : Instr
  displacement : Option Int32 := none
  deriving DecidableEq, Repr

namespace Decoder

/-- Where an operand is found. -/
inductive Place where
  | register (r : GeneralReg)
  | memory (base : GeneralReg) (past : UInt8)
  /-- At a displacement from the end of the instruction. -/
  | ahead (displacement : Int32)
  deriving DecidableEq, Repr

/-- A 32-bit word, the low byte first. -/
def word? : List UInt8 → Option (Int32 × List UInt8)
  | a :: b :: c :: d :: rest => some (Int32.ofNat (LittleEndian.value [a, b, c, d]), rest)
  | _ => none

/-- The base of a memory operand, which 4 leaves to a byte of its own. There an index of 4 is none. -/
def base? (rm : Nat) (rest : List UInt8) : Option (GeneralReg × List UInt8) :=
  if rm = 4 then
    match rest with
    | sib :: rest =>
      if sib.toNat / 8 % 8 = 4 then (GeneralReg.ofCode? (sib.toNat % 8)).map fun base => (base, rest)
      else none
    | [] => none
  else (GeneralReg.ofCode? rm).map fun base => (base, rest)

/-- The operand that a mode and the low digit of the operand byte stand for. -/
def place? (mode rm : Nat) (rest : List UInt8) : Option (Place × List UInt8) :=
  match mode with
  | 0 =>
    if rm = 5 then (word? rest).map fun (displacement, rest) => (.ahead displacement, rest)
    else
      match base? rm rest with
      | some (.rbp, _) => none
      | some (base, rest) => some (.memory base 0, rest)
      | none => none
  | 1 =>
    match base? rm rest with
    | some (base, past :: rest) => some (.memory base past, rest)
    | _ => none
  | 3 => (GeneralReg.ofCode? rm).map fun r => (.register r, rest)
  | _ => none

/-- The operand byte and what belongs to it: a register or extension, and the other operand. -/
def operands? : List UInt8 → Option (Nat × Place × List UInt8)
  | [] => none
  | byte :: rest =>
    (place? (byte.toNat / 64) (byte.toNat % 8) rest).map fun operand => (byte.toNat / 8 % 8, operand)

/-- The operation on two registers that has this opcode. -/
def aluOp? (opcode : UInt8) : Option AluOp :=
  [AluOp.add, .or, .and, .sub, .xor, .cmp].find? fun op => op.opcode = opcode

/-- The operation on a register and an immediate that has this extension. -/
def aluImmOp? (extension : Nat) : Option AluOp :=
  [AluOp.add, .or, .and, .sub, .xor, .cmp].find? fun op => op.extension.toNat = extension

/-- The operation on one register that has this opcode and this extension. -/
def groupOp? (opcode : UInt8) (extension : Nat) : Option Group :=
  [Group.inc, .dec, .not, .neg, .idiv, .shl, .shr].find? fun op =>
    op.opcode = opcode ∧ op.extension.toNat = extension

def condition? (opcode : UInt8) : Option Condition :=
  [Condition.equal, .notEqual, .less, .greaterEqual, .lessEqual, .greater].find? fun condition =>
    0x80 + conditionCode condition = opcode

/-- An instruction on 64-bit operands, without the byte that says so. -/
def wide? : List UInt8 → Option (Decoded × List UInt8)
  | 0x99 :: rest => some (⟨.cqo, none⟩, rest)
  | 0x0F :: 0xAF :: rest => do
    let (reg, place, rest) ← operands? rest
    let dest ← GeneralReg.ofCode? reg
    match place with
    | .register src => some (⟨.imul dest src, none⟩, rest)
    | _ => none
  | 0x69 :: rest => do
    let (reg, place, rest) ← operands? rest
    let dest ← GeneralReg.ofCode? reg
    let (imm, rest) ← word? rest
    match place with
    | .register src => some (⟨.imulImm dest src imm, none⟩, rest)
    | _ => none
  | 0x89 :: rest => do
    let (reg, place, rest) ← operands? rest
    let src ← GeneralReg.ofCode? reg
    match place with
    | .register dest => some (⟨.movReg dest src, none⟩, rest)
    | .memory base 0 => some (⟨.store base src, none⟩, rest)
    | .memory _ _ => none
    | .ahead displacement => some (⟨.storeRip src, some displacement⟩, rest)
  | 0x8B :: rest => do
    let (reg, place, rest) ← operands? rest
    let dest ← GeneralReg.ofCode? reg
    match place with
    | .memory base 0 => some (⟨.load dest base, none⟩, rest)
    | .ahead displacement => some (⟨.loadRip dest, some displacement⟩, rest)
    | _ => none
  | 0x8D :: rest => do
    let (reg, place, rest) ← operands? rest
    let dest ← GeneralReg.ofCode? reg
    match place with
    | .ahead displacement => some (⟨.leaRip dest, some displacement⟩, rest)
    | _ => none
  | 0xC7 :: rest => do
    let (0, place, rest) ← operands? rest | none
    let (imm, rest) ← word? rest
    match place with
    | .register dest => some (⟨.movImm dest imm, none⟩, rest)
    | .memory base 0 => some (⟨.storeImm base imm, none⟩, rest)
    | .memory _ _ => none
    | .ahead displacement => some (⟨.storeRipImm imm, some displacement⟩, rest)
  | 0x81 :: rest => do
    let (extension, .register dest, rest) ← operands? rest | none
    let op ← aluImmOp? extension
    let (imm, rest) ← word? rest
    some (⟨.aluImm op dest imm, none⟩, rest)
  | 0xC1 :: rest => do
    let (extension, .register reg, count :: rest) ← operands? rest | none
    let op ← groupOp? 0xC1 extension
    if small : count.toNat < 64 then some (⟨.shift op reg ⟨count.toNat, small⟩, none⟩, rest) else none
  | opcode :: rest => do
    let (extension, .register reg, rest) ← operands? rest | none
    match aluOp? opcode with
    | some op => (GeneralReg.ofCode? extension).map fun src => (⟨.alu op reg src, none⟩, rest)
    | none => (groupOp? opcode extension).map fun op => (⟨.group op reg, none⟩, rest)
  | [] => none

/-- The first instruction of some code, and what follows it. -/
def decode : List UInt8 → Option (Decoded × List UInt8)
  | 0x48 :: rest => wide? rest
  | 0x0F :: opcode :: rest => do
    let condition ← condition? opcode
    let (displacement, rest) ← word? rest
    some (⟨.jcc condition, some displacement⟩, rest)
  | 0xE9 :: rest => (word? rest).map fun (displacement, rest) => (⟨.jmp, some displacement⟩, rest)
  | 0xE8 :: rest => (word? rest).map fun (displacement, rest) => (⟨.call, some displacement⟩, rest)
  | 0xC3 :: rest => some (⟨.ret, none⟩, rest)
  | 0x90 :: rest => some (⟨.nop, none⟩, rest)
  | 0xCD :: vector :: rest => some (⟨.int vector, none⟩, rest)
  | byte :: rest =>
    if byte.toNat / 8 = 10 then
      (GeneralReg.ofCode? (byte.toNat % 8)).map fun r => (⟨.push r, none⟩, rest)
    else if byte.toNat / 8 = 11 then
      (GeneralReg.ofCode? (byte.toNat % 8)).map fun r => (⟨.pop r, none⟩, rest)
    else none
  | [] => none

theorem word?_bytes (word : Int32) (rest : List UInt8) :
    word? (LittleEndian.bytes 4 word.toUInt32.toNat ++ rest) = some (word, rest) := by
  have value := word_of_bytes word
  simp only [LittleEndian.bytes, List.cons_append, List.nil_append, word?] at value ⊢
  rw [value]

@[simp] theorem word?_immBytes (imm : Int32) (rest : List UInt8) :
    word? (Instr.immBytes imm ++ rest) = some (imm, rest) := word?_bytes imm rest

@[simp] theorem word?_displacementBytes (d : Int32) (rest : List UInt8) :
    word? (Relocation.displacementBytes d ++ rest) = some (d, rest) := word?_bytes d rest

@[simp] theorem code_lt (r : GeneralReg) : r.code.toNat < 8 := by cases r <;> decide

theorem operands?_modrm {mode reg rm : UInt8} (mode_lt : mode.toNat < 4) (reg_lt : reg.toNat < 8)
    (rm_lt : rm.toNat < 8) (rest : List UInt8) :
    operands? (Instr.modrm mode reg rm :: rest) =
      (place? mode.toNat rm.toNat rest).map fun operand => (reg.toNat, operand) := by
  have sixtyFour : (64 : UInt8).toNat = 64 := rfl
  have eight : (8 : UInt8).toNat = 8 := rfl
  have byte : (Instr.modrm mode reg rm).toNat = mode.toNat * 64 + reg.toNat * 8 + rm.toNat := by
    simp only [Instr.modrm, UInt8.toNat_add, UInt8.toNat_mul, sixtyFour, eight]
    omega
  have high : (Instr.modrm mode reg rm).toNat / 64 = mode.toNat := by omega
  have middle : (Instr.modrm mode reg rm).toNat / 8 % 8 = reg.toNat := by omega
  have low : (Instr.modrm mode reg rm).toNat % 8 = rm.toNat := by omega
  rw [operands?, high, middle, low]

@[simp] theorem operands?_direct {reg : UInt8} (reg_lt : reg.toNat < 8) (r : GeneralReg) (rest : List UInt8) :
    operands? (Instr.direct reg r.code :: rest) = some (reg.toNat, .register r, rest) := by
  rw [Instr.direct, operands?_modrm (by decide) reg_lt (code_lt r)]
  cases r <;> rfl

@[simp] theorem operands?_ahead {reg : UInt8} (reg_lt : reg.toNat < 8) (d : Int32) (rest : List UInt8) :
    operands? (Instr.modrm 0 reg 5 :: (Relocation.displacementBytes d ++ rest)) =
      some (reg.toNat, .ahead d, rest) := by
  have operand : place? 0 5 (Relocation.displacementBytes d ++ rest) = some (.ahead d, rest) := by
    simp [place?]
  rw [operands?_modrm (by decide) reg_lt (by decide)]
  exact congrArg (Option.map _) operand

@[simp] theorem operands?_memory {reg : UInt8} (reg_lt : reg.toNat < 8) (base : GeneralReg)
    (rest : List UInt8) :
    operands? (Instr.memory reg base ++ rest) = some (reg.toNat, .memory base 0, rest) := by
  cases base <;>
    simp only [Instr.memory, List.cons_append, List.nil_append] <;>
    rw [operands?_modrm (by decide) reg_lt (by decide)] <;>
    rfl

end Decoder

namespace Instr

/-- The instructions that lowering gives: of those on one register, shifts alone have a count. -/
def Emittable : Instr → Prop
  | group op _ => op ∈ [Group.inc, .dec, .not, .neg, .idiv]
  | shift op _ _ => op ∈ [Group.shl, .shr]
  | _ => True

/-- The bytes of an instruction with this displacement written into it, if it has one. -/
def bytesWith (i : Instr) (displacement : Int32) : List UInt8 :=
  match i.displacementOffset with
  | none => i.bytes
  | some offset =>
    i.bytes.take offset ++ Relocation.displacementBytes displacement ++ i.bytes.drop (offset + 4)

theorem bytesWith_of_none {i : Instr} (unplaced : i.displacementOffset = none) (d : Int32) :
    i.bytesWith d = i.bytes := by
  rw [bytesWith, unplaced]

theorem bytesWith_of_some {i : Instr} {offset : Nat} (placed : i.displacementOffset = some offset)
    (d : Int32) :
    i.bytesWith d = i.bytes.take offset ++ Relocation.displacementBytes d ++ i.bytes.drop (offset + 4) := by
  rw [bytesWith, placed]

end Instr

namespace Decoder

@[simp] theorem decode_wide (rest : List UInt8) : decode (Rex.wide.byte :: rest) = wide? rest := rfl

theorem wide?_group {op : Group} (emittable : op ∈ [Group.inc, .dec, .not, .neg, .idiv])
    (reg : GeneralReg) (rest : List UInt8) :
    wide? (op.opcode :: Instr.direct op.extension reg.code :: rest) =
      some (⟨.group op reg, none⟩, rest) := by
  cases op with
  | shl | shr => simp at emittable
  | _ => simp [Group.opcode, Group.extension, wide?, aluOp?, groupOp?, AluOp.opcode]

theorem wide?_shift {op : Group} (emittable : op ∈ [Group.shl, .shr]) (reg : GeneralReg)
    (count : Fin 64) (rest : List UInt8) :
    wide? (op.opcode :: Instr.direct op.extension reg.code :: UInt8.ofNat count.val :: rest) =
      some (⟨.shift op reg count, none⟩, rest) := by
  have same : (UInt8.ofNat count.val).toNat = count.val :=
    Nat.mod_eq_of_lt (Nat.lt_trans count.isLt (by decide))
  cases op with
  | shl | shr => simp [Group.opcode, Group.extension, wide?, groupOp?, same]
  | _ => simp at emittable

/-- An instruction is read back from its bytes, with what was written into it and what follows. -/
theorem decode_bytesWith {i : Instr} (emittable : i.Emittable) (d : Int32) (rest : List UInt8) :
    decode (i.bytesWith d ++ rest) = some (⟨i, i.displacementOffset.map fun _ => d⟩, rest) := by
  cases i with
  | cqo | ret | nop | int vector => rfl
  | push reg | pop reg => cases reg <;> rfl
  | group op reg => exact wide?_group emittable reg rest
  | shift op reg count => exact wide?_shift emittable reg count rest
  | movReg dest src | imul dest src | load dest base | store base src | movImm dest imm
  | imulImm dest src imm | storeImm base imm =>
    simp [Instr.bytesWith, Instr.displacementOffset, Instr.bytes, wide?]
  | storeRip src | storeRipImm imm | loadRip dest | leaRip dest =>
    simp [Instr.bytesWith, Instr.displacementOffset, Instr.bytes, wide?, Instr.zeroWord, Instr.ripRelative]
  | alu op dest src =>
    cases op <;>
      simp [Instr.bytesWith, Instr.displacementOffset, Instr.bytes, wide?, AluOp.opcode, aluOp?]
  | aluImm op dest imm =>
    cases op <;>
      simp [Instr.bytesWith, Instr.displacementOffset, Instr.bytes, wide?, AluOp.extension, aluImmOp?]
  | jcc condition =>
    cases condition <;>
      simp [Instr.bytesWith, Instr.displacementOffset, Instr.bytes, decode, Instr.zeroWord,
        conditionCode, condition?]
  | jmp | call =>
    simp [Instr.bytesWith, Instr.displacementOffset, Instr.bytes, decode, Instr.zeroWord]

end Decoder

namespace Decoded

def bytes (x : Decoded) : List UInt8 := x.instr.bytesWith (x.displacement.getD 0)

/-- What emitted code is made of: the instruction has a displacement where it has a place for one. -/
structure Lawful (x : Decoded) : Prop where
  emittable : x.instr.Emittable
  displaced : x.displacement.isSome = x.instr.displacementOffset.isSome

end Decoded

namespace Decoder

theorem decode_bytes {x : Decoded} (lawful : x.Lawful) (rest : List UInt8) :
    decode (x.bytes ++ rest) = some (x, rest) := by
  have displacement : (x.instr.displacementOffset.map fun _ => x.displacement.getD 0) = x.displacement := by
    have displaced := lawful.displaced
    cases written : x.displacement <;> cases place : x.instr.displacementOffset <;>
      simp_all
  rw [Decoded.bytes, decode_bytesWith lawful.emittable, displacement]

/-- All the instructions of some code. One that took no byte would be read forever. -/
def decodeAll (code : List UInt8) : Option (List Decoded) :=
  match code with
  | [] => some []
  | byte :: rest =>
    match decode (byte :: rest) with
    | none => none
    | some (x, after) => if after.length ≤ rest.length then (decodeAll after).map (x :: ·) else none
termination_by code.length

theorem length_bytes_pos {x : Decoded} (lawful : x.Lawful) : 0 < x.bytes.length := by
  cases bytes : x.bytes with
  | nil =>
    have read := decode_bytes lawful []
    rw [bytes] at read
    cases read
  | cons byte rest => exact Nat.succ_pos _

theorem decodeAll_flatMap_bytes {xs : List Decoded} (lawful : ∀ x ∈ xs, x.Lawful) :
    decodeAll (xs.flatMap Decoded.bytes) = some xs := by
  induction xs with
  | nil => rw [List.flatMap_nil, decodeAll]
  | cons x xs ih =>
    have first := lawful x List.mem_cons_self
    have read := decode_bytes first (xs.flatMap Decoded.bytes)
    have others := ih fun y mem => lawful y (List.mem_cons_of_mem _ mem)
    have pos := length_bytes_pos first
    rw [List.flatMap_cons]
    cases bytes : x.bytes with
    | nil => simp [bytes] at pos
    | cons byte more =>
      rw [bytes, List.cons_append] at read
      rw [List.cons_append, decodeAll, read]
      simp [others]

end Decoder

end CrossAsm.X64
