import CrossAsm.Proofs.X64.Disassembly
import CrossAsm.Proofs.X64.Encodable
import CrossAsm.Proofs.X64.Machine

/-!
Signed division on x86-64. The machine divides `rdx` and `rax` only, so a division borrows a register for
the divisor and saves what it needs on the stack. The destination gets the quotient or the remainder, and
everything else but the bytes below the stack pointer is as before, whichever registers take part
(`division_takes_effect`). As addresses wrap around, these bytes may be the last of all
(`low_stack_reaches_around`).
-/
namespace CrossAsm.X64

variable {memory : Memory}

/-- The value of an operand, if the machine has it. -/
def Registers.value? (x : Registers) : Operand → Option Word
  | .reg r => (GeneralReg.ofCode? r.number.toNat).map x
  | .imm n => some n.toBitVec

section Words

/-- A word is not changed by extending its sign. -/
theorem toInt_extended (x : Word) :
    ((if x.msb then .allOnes 64 else 0 : Word) ++ x).toInt = x.toInt := by
  rw [BitVec.toInt_append, BitVec.toInt_eq_msb_cond x]
  cases x.msb with
  | false => simp
  | true =>
    simp
    omega

theorem FitsWord.toInt_ofInt {n : Int} (fits : FitsWord n) : (BitVec.ofInt 64 n).toInt = n :=
  BitVec.toInt_ofInt_eq_self (by decide) fits.1 (Int.lt_of_le_of_lt fits.2 (by decide))

theorem toInt_ofInt_tmod (x y : Word) :
    (BitVec.ofInt 64 (x.toInt.tmod y.toInt)).toInt = x.toInt.tmod y.toInt := by
  rw [← BitVec.toInt_srem, BitVec.ofInt_toInt]

theorem signExtend_of_imm32 {n : Int64} {imm : Int32} (checked : imm32 n = .ok imm) :
    imm.toBitVec.signExtend 64 = n.toBitVec := by
  obtain ⟨_, within, rfl⟩ := map_eq_ok_iff.mp checked
  obtain ⟨⟨low, high⟩, rfl⟩ := checkRange_eq_ok_iff.mp within
  apply BitVec.eq_of_toInt_eq
  change ((Int32.ofInt n.toInt).toBitVec.signExtend 64).toInt = n.toInt
  rw [BitVec.toInt_signExtend_of_le (by decide)]
  exact Int32.toInt_ofInt_of_le low (Int.lt_of_le_of_lt high (by decide))

end Words

section Instructions

variable {depth : Nat} {x : Registers} {dest src divisor : GeneralReg}

theorem yields_movReg (assigned : dest ≠ .rsp) (read : src ≠ .rsp) :
    Yields [.movReg dest src] depth x (Function.update x dest (x src)) :=
  .set assigned fun m carries => by rw [Machine.exec, carries src read]

/-- A move that is left out if its operands are the same. -/
theorem yields_move {same : Prop} [Decidable same] (means : same → dest = src) (assigned : dest ≠ .rsp)
    (read : src ≠ .rsp) :
    Yields (if same then [] else [.movReg dest src]) depth x (Function.update x dest (x src)) := by
  split
  case isTrue holds =>
    rw [means holds, Function.update_eq_self]
    exact .nil
  case isFalse => exact yields_movReg assigned read

theorem yields_cqo : Yields [.cqo] depth x
    (Function.update x .rdx (if (x .rax).msb then .allOnes 64 else 0)) :=
  .set (by decide) fun m carries => by rw [Machine.exec, carries .rax (by decide)]

theorem yields_idiv {y : Word} {dividend : Int} (read : divisor ≠ .rsp) (holds : x divisor = y)
    (nonzero : y ≠ 0) (double : (x .rdx ++ x .rax).toInt = dividend)
    (fits : FitsWord (dividend.tdiv y.toInt)) :
    Yields [.group .idiv divisor] depth x
      (Function.update (Function.update x .rax (.ofInt 64 (dividend.tdiv y.toInt))) .rdx
        (.ofInt 64 (dividend.tmod y.toInt))) := by
  refine .single fun m carries => ⟨_, ?_, (Machine.Balanced.set m (by decide) _).trans
    (.set _ (by decide) _), (carries.set .rax _).set .rdx _⟩
  rw [Machine.exec, Machine.divide?, carries divisor read, carries .rdx (by decide),
    carries .rax (by decide), holds, double]
  exact if_pos ⟨nonzero, fits⟩

/-- Divides `rax`, after its sign has been extended into `rdx`. -/
theorem yields_divide {y : Word} (notRdx : divisor ≠ .rdx) (notRsp : divisor ≠ .rsp)
    (holds : x divisor = y) (nonzero : y ≠ 0) (fits : FitsWord ((x .rax).toInt.tdiv y.toInt)) :
    ∃ z, Yields [.cqo, .group .idiv divisor] depth x z ∧
      (z .rax).toInt = (x .rax).toInt.tdiv y.toInt ∧ (z .rdx).toInt = (x .rax).toInt.tmod y.toInt ∧
      ∀ r, r ≠ .rax → r ≠ .rdx → z r = x r := by
  let extended := Function.update x .rdx (if (x .rax).msb then .allOnes 64 else 0)
  have upper : extended .rdx = if (x .rax).msb then .allOnes 64 else 0 := Function.update_self ..
  have others (r : GeneralReg) (other : r ≠ .rdx) : extended r = x r := Function.update_of_ne other ..
  have double : (extended .rdx ++ extended .rax).toInt = (x .rax).toInt := by
    rw [upper, others .rax (by decide), toInt_extended]
  have same : extended divisor = y := (others divisor notRdx).trans holds
  refine ⟨_, yields_cqo.append (yields_idiv notRsp same nonzero double fits), ?_, ?_, ?_⟩
  · rw [Function.update_of_ne (by decide), Function.update_self, fits.toInt_ofInt]
  · rw [Function.update_self, toInt_ofInt_tmod]
  · intro r notRax notRdx
    rw [Function.update_of_ne notRdx, Function.update_of_ne notRax]
    exact others r notRdx

end Instructions

namespace Division

/-- What a plan keeps to: the stack pointer takes no part, and the borrowed register no other part. -/
structure Planned (p : Division) : Prop where
  dest : p.dest ≠ .rsp
  notRax : p.divisor ≠ .rax
  notRdx : p.divisor ≠ .rdx
  notRsp : p.divisor ≠ .rsp
  notDest : p.divisor ≠ p.dest

/-- What the destination is to hold. -/
def wanted (p : Division) (dividend divisor : Int) : Int :=
  if p.remainder then dividend.tmod divisor else dividend.tdiv divisor

/-- The instructions between those that save registers and restore them. -/
def core (p : Division) : List Instr :=
  (if p.dest = .rax then [] else [.movReg .rax p.dest]) ++
    ([.cqo, .group .idiv p.divisor] ++
      (if p.dest = p.result then [] else [.movReg p.dest p.result]))

/-- All the instructions, with the one that loads the divisor. -/
def code (p : Division) (load : Instr) : List Instr :=
  .push p.divisor :: (([load] ++ (p.saved.map .push ++ (p.core ++ p.saved.reverse.map .pop))) ++
    [.pop p.divisor])

theorem mem_saved {p : Division} {r : GeneralReg} :
    r ∈ p.saved ↔ (r = .rdx ∨ r = .rax) ∧ r ≠ p.dest := by simp [saved]

theorem around_ok (p : Division) (load : Instr) :
    p.around (.ok ⟨load, none⟩) = (p.code load).map fun i => .ok ⟨i, none⟩ := by
  have move (same : Prop) [Decidable same] (dest src : GeneralReg) :
      (if same then [] else [.ok ⟨.movReg dest src, none⟩] : Steps) =
        (if same then [] else [.movReg dest src]).map fun i => .ok ⟨i, none⟩ := by
    split <;> rfl
  simp [around, code, core, move, Function.comp_def]

variable {p : Division} {x : Registers}

/-- The core leaves what is wanted in the destination, and changes `rax` and `rdx`. -/
theorem Planned.yields_core (planned : p.Planned) (nonzero : x p.divisor ≠ 0)
    (fits : FitsWord ((x p.dest).toInt.tdiv (x p.divisor).toInt)) :
    ∃ y, Yields p.core 0 x y ∧
      (y p.dest).toInt = p.wanted (x p.dest).toInt (x p.divisor).toInt ∧
      ∀ r, r ≠ .rax → r ≠ .rdx → r ≠ p.dest → y r = x r := by
  let loaded := Function.update x .rax (x p.dest)
  have rax : loaded .rax = x p.dest := Function.update_self ..
  have divisor : loaded p.divisor = x p.divisor := Function.update_of_ne planned.notRax ..
  rw [← rax] at fits ⊢
  obtain ⟨divided, yields, quotient, remainder, others⟩ :=
    yields_divide planned.notRdx planned.notRsp divisor nonzero fits
  have result : (divided p.result).toInt = p.wanted (loaded .rax).toInt (x p.divisor).toInt := by
    unfold wanted Division.result
    split
    · exact remainder
    · exact quotient
  have readable : p.result ≠ .rsp := by
    unfold Division.result
    split <;> decide
  refine ⟨Function.update divided p.dest (divided p.result), ?_, ?_, ?_⟩
  · exact (yields_move Eq.symm (by decide) planned.dest).append
      (yields.append (yields_move id planned.dest readable))
  · rw [Function.update_self, result]
  · intro r notRax notRdx notDest
    rw [Function.update_of_ne notDest, others r notRax notRdx]
    exact Function.update_of_ne notRax ..

/-- Around the core, the stack holds what the other registers had. -/
theorem Planned.yields_code (planned : p.Planned) {load : Instr} {y : Word}
    (loads : Yields [load] 16 x (Function.update x p.divisor y)) (nonzero : y ≠ 0)
    (fits : FitsWord ((x p.dest).toInt.tdiv y.toInt)) :
    ∃ z, Yields (p.code load) 24 x z ∧ (z p.dest).toInt = p.wanted (x p.dest).toInt y.toInt ∧
      ∀ r, r ≠ p.dest → z r = x r := by
  let loaded := Function.update x p.divisor y
  have divisor : loaded p.divisor = y := Function.update_self ..
  have others (r : GeneralReg) (other : r ≠ p.divisor) : loaded r = x r :=
    Function.update_of_ne other ..
  rw [← divisor] at nonzero
  rw [← divisor, ← others p.dest planned.notDest.symm] at fits ⊢
  obtain ⟨divided, yields, wanted, kept⟩ := planned.yields_core nonzero fits
  have pointer : .rsp ∉ p.saved := by simp [mem_saved]
  have two : p.saved.length ≤ 2 := List.length_filter_le _ _
  have room : 0 + 8 * p.saved.length ≤ addressCount := by
    unfold addressCount
    omega
  have saved := (yields.savedAll pointer room).mono (show _ ≤ 16 by omega)
  refine ⟨_, (loads.append saved).saved planned.notRsp (by decide), ?_, ?_⟩
  · rw [Function.update_of_ne planned.notDest.symm, if_neg (by simp [mem_saved]), wanted]
  · intro r other
    by_cases borrowed : r = p.divisor
    · rw [borrowed, Function.update_self]
    · rw [Function.update_of_ne borrowed, ← others r borrowed]
      split
      case isTrue => rfl
      case isFalse unsaved =>
        have free : ¬ (r = .rdx ∨ r = .rax) := fun named => unsaved (mem_saved.mpr ⟨named, other⟩)
        rw [not_or] at free
        exact kept r free.2 free.1 other

theorem scratch_apart (d : GeneralReg) : GeneralReg.scratch [d] ≠ .rax ∧
    GeneralReg.scratch [d] ≠ .rdx ∧ GeneralReg.scratch [d] ≠ .rsp ∧ GeneralReg.scratch [d] ≠ d := by
  cases d <;> decide

theorem planned_of_scratch {d : GeneralReg} (free : d ≠ .rsp) (remainder : Bool) :
    Planned ⟨d, .scratch [d], remainder⟩ := by
  obtain ⟨notRax, notRdx, notRsp, notDest⟩ := scratch_apart d
  exact ⟨free, notRax, notRdx, notRsp, notDest⟩

theorem planned_of_plan {dest : Register} {src : Operand} {remainder : Bool}
    (made : plan dest src remainder = .ok p) :
    generalReg dest = .ok p.dest ∧ p.remainder = remainder ∧ p.Planned ∧
      ∀ r, src = .reg r → generalReg r ≠ .ok .rsp := by
  unfold plan at made
  obtain ⟨d, known, made⟩ := bind_eq_ok_iff.mp made
  have checked {s : Option GeneralReg} {fault : Fault}
      (made : (if d = .rsp ∨ s = some .rsp then .error fault
        else .ok ⟨d, .scratch [d], remainder⟩ : Except Fault Division) = .ok p) :
      p = ⟨d, .scratch [d], remainder⟩ ∧ d ≠ .rsp ∧ s ≠ some .rsp := by
    split at made
    case isTrue => cases made
    case isFalse apart =>
      cases made
      exact ⟨rfl, not_or.mp apart⟩
  cases src with
  | reg r =>
    obtain ⟨s, source, made⟩ := bind_eq_ok_iff.mp made
    obtain ⟨rfl, free, other⟩ := checked made
    refine ⟨known, rfl, planned_of_scratch free remainder, ?_⟩
    rintro _ ⟨⟩ stack
    rw [stack] at source
    cases source
    exact other rfl
  | imm n =>
    obtain ⟨_, _, made⟩ := bind_eq_ok_iff.mp made
    obtain ⟨rfl, free, _⟩ := checked made
    refine ⟨known, rfl, planned_of_scratch free remainder, ?_⟩
    rintro _ ⟨⟩

/-- The divisor is loaded into the borrowed register. -/
theorem exists_load {src : Operand} (clear : Clear (p.steps src)) (assigned : p.divisor ≠ .rsp)
    (read : ∀ r, src = .reg r → generalReg r ≠ .ok .rsp) :
    ∃ load : Instr, p.steps src = p.around (.ok ⟨load, none⟩) ∧ ∀ (depth : Nat) (x : Registers),
      ∃ y, x.value? src = some y ∧ Yields [load] depth x (Function.update x p.divisor y) := by
  cases src with
  | reg r =>
    change Clear (p.around (plain ((generalReg r).map (.movReg p.divisor)))) at clear
    obtain ⟨g, known⟩ := exists_map_eq_ok.mp (exists_plain.mp (clear_around.mp clear))
    refine ⟨.movReg p.divisor g, ?_, fun depth x => ⟨x g, ?_, yields_movReg assigned ?_⟩⟩
    · change p.around (plain ((generalReg r).map (.movReg p.divisor))) = _
      rw [known]
      rfl
    · rw [Registers.value?, generalReg_eq_ok_iff.mp known, GeneralReg.ofCode?_code]
      rfl
    · rintro rfl
      exact read r rfl known
  | imm n =>
    change Clear (p.around (plain ((imm32 n).map (.movImm p.divisor)))) at clear
    obtain ⟨v, known⟩ := exists_map_eq_ok.mp (exists_plain.mp (clear_around.mp clear))
    refine ⟨.movImm p.divisor v, ?_, fun depth x => ⟨n.toBitVec, rfl, ?_⟩⟩
    · change p.around (plain ((imm32 n).map (.movImm p.divisor))) = _
      rw [known]
      rfl
    · exact .set assigned fun m carries => by rw [Machine.exec, signExtend_of_imm32 known]

end Division

theorem decodeAll_of_holds {code : Array UInt8} {start stop : Nat} {decoded : List Decoded}
    (lawful : ∀ x ∈ decoded, x.Lawful) (holds : Holds code start (decoded.flatMap Decoded.bytes))
    (ends : stop = start + (decoded.flatMap Decoded.bytes).length) :
    Decoder.decodeAll (code.extract start stop).toList = some decoded := by
  have cut : (code.extract start stop).toList = decoded.flatMap Decoded.bytes := by
    by_cases empty : decoded.flatMap Decoded.bytes = []
    · simp [ends, empty]
    · rw [ends, holds.extract_eq empty]
  rw [cut]
  exact Decoder.decodeAll_flatMap_bytes lawful

theorem lower_division {symbols : SymbolTable} {op : ProductOp} {dest : Register} {src : Operand}
    (divides : op ≠ .mul) : lower symbols (.product op dest src) =
      require (Division.plan dest src (op = .mod)) fun p => p.steps src := by
  cases op with
  | mul => exact absurd rfl divides
  | div | mod => rfl

/-- Division is correct and clobbers nothing. Unless the divisor is zero or the quotient no word, the code
of a division that is accepted takes any machine to one where the destination holds the truncated signed
quotient or remainder of the values that the operands had. All other registers are as they were, and so
is the memory but for the 24 bytes below the stack pointer; if there are as many addresses below it, all
memory at or above it is as it was. -/
theorem division_takes_effect {program : List Instruction} {image : Image} {index : Nat}
    (accepted : CrossAsm.generate memory .x64 program = .ok image) {op : ProductOp} {dest : Register}
    {src : Operand} {pos : Position} (present : program[index]? = some ⟨.product op dest src, pos⟩)
    (divides : op ≠ .mul) :
    ∃ (d : GeneralReg) (decoded : List Decoded), generalReg dest = .ok d ∧ d ≠ .rsp ∧
      Decoder.decodeAll (image.code.extract (offsetAt memory program index)
        (offsetAt memory program (index + 1))).toList = some decoded ∧
      ∀ m : Machine, ∃ y, m.regs.value? src = some y ∧
        (y ≠ 0 → FitsWord ((m.regs d).toInt.tdiv y.toInt) →
          ∃ after, m.run (decoded.map Decoded.instr) = some after ∧
            (after.regs d).toInt =
              (if op = .mod then Int.tmod else Int.tdiv) (m.regs d).toInt y.toInt ∧
            (∀ r, r ≠ d → after.regs r = m.regs r) ∧ Machine.Balanced 24 m after ∧
            (24 ≤ (m.regs .rsp).toNat →
              ∀ address, m.regs .rsp ≤ address → after.memory address = m.memory address)) := by
  obtain ⟨steps, decoded, lowered, disassembles, holds, stop⟩ :=
    disassembled_at accepted present (fun _ => by simp)
  rw [lower_division divides] at lowered
  obtain ⟨p, made, lowered⟩ := require_eq_map_ok lowered
  obtain ⟨known, remainder, planned, read⟩ := Division.planned_of_plan made
  obtain ⟨load, whole, loads⟩ :=
    Division.exists_load (clear_iff.mpr ⟨steps, lowered⟩) planned.notRsp read
  have code : decoded.map Decoded.instr = p.code load := by
    rw [whole, Division.around_ok] at lowered
    have same : (p.code load).map (fun i => ⟨i, none⟩) = steps := by
      refine (List.map_inj_right (f := Except.ok (ε := Fault)) ?_).mp (List.map_map.trans lowered)
      exact fun _ _ => Except.ok.inj
    rw [disassembles.same, ← same, List.map_map]
    exact List.map_id _
  refine ⟨p.dest, decoded, known, planned.dest, ?_, fun m => ?_⟩
  · exact decodeAll_of_holds disassembles.lawful holds stop
  · obtain ⟨y, value, loads⟩ := loads 16 m.regs
    refine ⟨y, value, fun nonzero fits => ?_⟩
    obtain ⟨z, yields, wanted, kept⟩ := planned.yields_code loads nonzero fits
    obtain ⟨after, ran, balanced, carries⟩ := yields m fun _ _ => rfl
    refine ⟨after, code ▸ ran, ?_, ?_, balanced, fun room _ above => balanced.memory_of_le room above⟩
    · rw [carries _ planned.dest, wanted, Division.wanted, remainder]
      simp only [decide_eq_true_eq]
      split <;> rfl
    · intro r other
      by_cases stack : r = .rsp
      · rw [stack, balanced.rsp]
      · rw [carries r stack, kept r other]

/-- Of -7 in `rdx` divided by two, the remainder is -1. The divisor stands in the register that is
borrowed for it. -/
theorem division_takes_effect_of_negative_remainder :
    let program : List Instruction := [⟨.product .mod ⟨2⟩ (.reg ⟨1⟩), ⟨1, 1⟩⟩]
    let m : Machine := ⟨fun r => if r = .rdx then -7 else if r = .rcx then 2 else 4096, fun _ => 0⟩
    ∃ image, CrossAsm.generate .ofProcess .x64 program = .ok image ∧
      ∃ (decoded : List Decoded) (after : Machine),
        Decoder.decodeAll (image.code.extract (offsetAt .ofProcess program 0)
          (offsetAt .ofProcess program 1)).toList = some decoded ∧
        m.run (decoded.map Decoded.instr) = some after ∧ (after.regs .rdx).toInt = -1 ∧
        (∀ r, r ≠ .rdx → after.regs r = m.regs r) ∧
        ∀ address, 4096 ≤ address → after.memory address = 0 := by
  intro program m
  obtain ⟨image, generated⟩ : ∃ image, CrossAsm.generate .ofProcess .x64 program = .ok image := ⟨_, rfl⟩
  have present : program[0]? = some ⟨.product .mod ⟨2⟩ (.reg ⟨1⟩), ⟨1, 1⟩⟩ := rfl
  obtain ⟨d, decoded, known, _, read, runs⟩ := division_takes_effect generated present (by decide)
  have dest : generalReg ⟨2⟩ = .ok .rdx := rfl
  cases dest.symm.trans known
  obtain ⟨y, value, runs⟩ := runs m
  have two : m.regs.value? (.reg ⟨1⟩) = some 2 := rfl
  cases two.symm.trans value
  obtain ⟨after, ran, remainder, others, _, above⟩ := runs (by decide) (by decide)
  exact ⟨image, generated, decoded, after, read, ran, remainder, others, above (by decide)⟩

/-- If the stack pointer is eight, the second word that is saved goes around to the last addresses, which
lie above the stack pointer. -/
theorem low_stack_reaches_around :
    let program : List Instruction := [⟨.product .div ⟨0⟩ (.reg ⟨1⟩), ⟨1, 1⟩⟩]
    let m : Machine := ⟨fun r => if r = .rsp then 8 else 1, fun _ => 0⟩
    ∃ image, CrossAsm.generate .ofProcess .x64 program = .ok image ∧
      ∃ (decoded : List Decoded) (after : Machine),
        Decoder.decodeAll (image.code.extract (offsetAt .ofProcess program 0)
          (offsetAt .ofProcess program 1)).toList = some decoded ∧
        m.regs .rcx ≠ 0 ∧ FitsWord ((m.regs .rax).toInt.tdiv (m.regs .rcx).toInt) ∧
        m.run (decoded.map Decoded.instr) = some after ∧
        ¬ ∀ address, m.regs .rsp ≤ address → after.memory address = m.memory address := by
  intro program m
  let code : List Instr := [.push .rcx, .movReg .rcx .rcx, .push .rdx, .cqo, .group .idiv .rcx,
    .pop .rdx, .pop .rcx]
  have last : (m.run code).map (fun after => after.memory 0xFFFFFFFFFFFFFFF8) = some 1 := by
    decide +kernel
  obtain ⟨after, ran, written⟩ := Option.map_eq_some_iff.mp last
  refine ⟨_, rfl, code.map (⟨·, none⟩), after, by decide +kernel, by decide, by decide, ran, ?_⟩
  intro kept
  have unwritten := kept 0xFFFFFFFFFFFFFFF8 (by decide)
  rw [written] at unwritten
  exact absurd unwritten (by decide)
end CrossAsm.X64
