import CrossAsm.Proofs.Mcs51.Ram
import CrossAsm.Proofs.PassAgreement

/-!
Control transfers in finished 8051 code. `TransfersTo` is a table of the native jumps that each
transfer becomes and of where they lead. Every transfer that is accepted follows it, with the address of
its label (`transfers_reach_targets`).
-/
namespace CrossAsm.Mcs51

variable {memory : Memory}

/-- A jump to an absolute address: an opcode and the two bytes of the address, the high one first. -/
def AbsoluteAt (code : Array UInt8) (start : Nat) (opcode : UInt8) (address : Nat) : Prop :=
  ∃ high low : UInt8, Holds code start [opcode, high, low] ∧ high.toNat * 256 + low.toNat = address

/-- A relative jump: some bytes and then one that, as a signed number, leads from the end of the jump to
the address. -/
def JumpAt (code : Array UInt8) (start : Nat) (front : List UInt8) (address : Nat) : Prop :=
  ∃ distance : UInt8, Holds code start (front ++ [distance]) ∧
    distance.toInt8.toInt + (start + front.length + 1 : Nat) = address

/-- The label that a control transfer goes to. -/
def target? : Operation → Option String
  | .jmp target | .call target | .branch _ target | .bitBranch _ _ target | .djnz _ target =>
    some target
  | _ => none

/-- The code from `start` to `stop` is that of a control transfer to the address. -/
def TransfersTo (code : Array UInt8) (start stop address : Nat) : Operation → Prop
  | .jmp _ => stop = start + 3 ∧ AbsoluteAt code start 0x02 address
  | .call _ => stop = start + 3 ∧ AbsoluteAt code start 0x12 address
  | .branch .equal _ => stop = start + 2 ∧ JumpAt code start [0x60] address
  | .branch .notEqual _ => stop = start + 2 ∧ JumpAt code start [0x70] address
  | .branch .less _ => stop = start + 2 ∧ JumpAt code start [0x40] address
  | .branch .greaterEqual _ => stop = start + 2 ∧ JumpAt code start [0x50] address
  | .branch .lessEqual _ =>
    stop = start + 4 ∧ JumpAt code start [0x40] address ∧ JumpAt code (start + 2) [0x60] address
  -- less-than and equality skip the jump, to the code after it
  | .branch .greater _ =>
    stop = start + 6 ∧ JumpAt code start [0x40] stop ∧ JumpAt code (start + 2) [0x60] stop ∧
      JumpAt code (start + 4) [0x80] address
  | .bitBranch ifSet bit _ =>
    stop = start + 3 ∧
      JumpAt code start [if ifSet then 0x20 else 0x30, UInt8.ofInt bit.toInt] address
  | .djnz counter _ => stop = start + 2 ∧ JumpAt code start [0xD8 + counter.number] address
  | _ => False

section Operands

variable {symbols : SymbolTable} {target : String}

theorem direct_of_workReg {r : Register} {w : WorkReg} (known : workReg r = .ok w) :
    w.direct = r.number := by
  unfold workReg at known
  split at known
  · cases known
    exact UInt8.ofNat_toNat
  · cases known

theorem bitAddress_eq_ok {n : Int64} {bit : UInt8} (known : bitAddress n = .ok bit) :
    bit = UInt8.ofInt n.toInt := by
  obtain ⟨value, checked, rfl⟩ := map_eq_ok_iff.mp known
  rw [(checkRange_eq_ok_iff.mp checked).2]

theorem absolute_eq_ok {word : UInt16} (known : absolute symbols target = .ok word) :
    symbols.get? target = some ⟨.label, word.toNat⟩ := by
  obtain ⟨address, found, checked⟩ := bind_eq_ok_iff.mp known
  split at checked
  next low =>
    cases checked
    rw [UInt16.toNat_ofNat_of_lt' (Nat.lt_of_le_of_lt low (by decide))]
    exact SymbolTable.resolveLabel_eq_ok_iff.mp found
  next => cases checked

theorem relative_eq_ok {stop : Nat} {distance : Int8}
    (known : relative symbols target stop = .ok distance) :
    ∃ address, symbols.get? target = some ⟨.label, address⟩ ∧
      distance.toInt = signedDistance address stop := by
  obtain ⟨address, found, checked⟩ := bind_eq_ok_iff.mp known
  dsimp only at checked
  split at checked
  next within =>
    refine ⟨address, SymbolTable.resolveLabel_eq_ok_iff.mp found, ?_⟩
    rw [← Except.ok.inj checked]
    exact Int8.toInt_ofInt_of_le within.1 (by omega)
  next => cases checked

end Operands

section Code

variable {symbols : SymbolTable} {code : Array UInt8} {start : Nat} {target : String}

theorem absoluteAt_of_holds {opcode : UInt8} {word : UInt16}
    (holds : Holds code start (opcode :: Instr.addressBytes word)) :
    AbsoluteAt code start opcode word.toNat := by
  refine ⟨_, _, holds, ?_⟩
  have bound := word.toNat_lt
  rw [UInt8.toNat_ofNat', UInt8.toNat_ofNat']
  omega

theorem jumpAt_of_holds {front : List UInt8} {distance : Int8} {address : Nat}
    (holds : Holds code start (front ++ [distance.toUInt8]))
    (leads : distance.toInt + (start + front.length + 1 : Nat) = address) :
    JumpAt code start front address :=
  ⟨_, holds, by rw [Int8.toInt8_toUInt8]; exact leads⟩

/-- All labels are low enough to be the same number when they are read as signed words. -/
def LowLabels (symbols : SymbolTable) : Prop :=
  ∀ name address, symbols.get? name = some ⟨.label, address⟩ → address < 0x8000000000000000

theorem jumpAt_of_relative (low : LowLabels symbols) (front : List UInt8) {stop : Nat}
    {distance : Int8} (known : relative symbols target stop = .ok distance)
    (room : stop < 0x8000000000000000) (ends : stop = start + front.length + 1)
    (holds : Holds code start (front ++ [distance.toUInt8])) :
    ∃ address, symbols.get? target = some ⟨.label, address⟩ ∧ JumpAt code start front address := by
  obtain ⟨address, found, same⟩ := relative_eq_ok known
  refine ⟨address, found, jumpAt_of_holds holds ?_⟩
  rw [signedDistance_of_nonneg (low _ _ found) room] at same
  omega

/-- A transfer that becomes one relative jump. -/
theorem jumpAt_of_single (low : LowLabels symbols) (front : List UInt8) {jump : Int8 → Instr}
    (encoded : ∀ distance, (jump distance).bytes = front ++ [distance.toUInt8]) {stop : Nat}
    (room : stop < 0x8000000000000000) (ends : stop = start + front.length + 1)
    {instrs : List Instr} (all : [(relative symbols target stop).map jump] = instrs.map .ok)
    (holds : Holds code start (instrs.flatMap Instr.bytes)) :
    ∃ address, symbols.get? target = some ⟨.label, address⟩ ∧
      start + (instrs.flatMap Instr.bytes).length = stop ∧ JumpAt code start front address := by
  obtain ⟨i, made, rfl⟩ := singleton_eq_map_ok all
  obtain ⟨distance, known, rfl⟩ := map_eq_ok_iff.mp made
  rw [List.flatMap_singleton, encoded] at holds ⊢
  obtain ⟨address, found, jumps⟩ := jumpAt_of_relative low front known room ends holds
  refine ⟨address, found, ?_, jumps⟩
  rw [List.length_append, List.length_singleton]
  omega

/-- A transfer to an absolute address. -/
theorem absoluteAt_of_single {jump : UInt16 → Instr} {opcode : UInt8}
    (encoded : ∀ word, (jump word).bytes = opcode :: Instr.addressBytes word) {instrs : List Instr}
    (all : [(absolute symbols target).map jump] = instrs.map .ok)
    (holds : Holds code start (instrs.flatMap Instr.bytes)) :
    ∃ address, symbols.get? target = some ⟨.label, address⟩ ∧
      start + (instrs.flatMap Instr.bytes).length = start + 3 ∧
      AbsoluteAt code start opcode address := by
  obtain ⟨i, made, rfl⟩ := singleton_eq_map_ok all
  obtain ⟨word, known, rfl⟩ := map_eq_ok_iff.mp made
  rw [List.flatMap_singleton, encoded] at holds ⊢
  exact ⟨_, absolute_eq_ok known, rfl, absoluteAt_of_holds holds⟩

theorem transfersTo_of_branch (low : LowLabels symbols) (room : start + 6 < 0x8000000000000000)
    {condition : Condition} {instrs : List Instr}
    (all : branch symbols start condition target = instrs.map .ok)
    (holds : Holds code start (instrs.flatMap Instr.bytes)) :
    ∃ address, symbols.get? target = some ⟨.label, address⟩ ∧
      TransfersTo code start (start + (instrs.flatMap Instr.bytes).length) address
        (.branch condition target) := by
  have short : start + 2 < 0x8000000000000000 := by omega
  cases condition with
  | equal => exact jumpAt_of_single low [0x60] (fun _ => rfl) short rfl all holds
  | notEqual => exact jumpAt_of_single low [0x70] (fun _ => rfl) short rfl all holds
  | less => exact jumpAt_of_single low [0x40] (fun _ => rfl) short rfl all holds
  | greaterEqual => exact jumpAt_of_single low [0x50] (fun _ => rfl) short rfl all holds
  | lessEqual =>
    obtain ⟨first, rest, made, others, rfl⟩ := cons_eq_map_ok all
    obtain ⟨distance, known, rfl⟩ := map_eq_ok_iff.mp made
    obtain ⟨second, made', rfl⟩ := singleton_eq_map_ok others
    obtain ⟨distance', known', rfl⟩ := map_eq_ok_iff.mp made'
    have both : Holds code start
        (([0x40] ++ [distance.toUInt8]) ++ ([0x60] ++ [distance'.toUInt8])) := holds
    obtain ⟨address, found, jumps⟩ := jumpAt_of_relative low [0x40] known short rfl both.left
    obtain ⟨again, found', jumps'⟩ :=
      jumpAt_of_relative low [0x60] known' (by omega) rfl both.right
    cases found.symm.trans found'
    exact ⟨address, found, rfl, jumps, jumps'⟩
  | greater =>
    obtain ⟨distance, known, sequence⟩ := require_eq_map_ok all
    obtain rfl : instrs = [.jc 4, .jz 2, .sjmp distance] := by
      obtain ⟨first, rest, made, others, rfl⟩ := cons_eq_map_ok sequence
      obtain ⟨second, last, made', only, rfl⟩ := cons_eq_map_ok others
      obtain ⟨third, made'', rfl⟩ := singleton_eq_map_ok only
      cases made
      cases made'
      cases made''
      rfl
    have three : Holds code start
        (([0x40] ++ [(4 : Int8).toUInt8]) ++
          (([0x60] ++ [(2 : Int8).toUInt8]) ++ ([0x80] ++ [distance.toUInt8]))) := holds
    obtain ⟨address, found, jumps⟩ :=
      jumpAt_of_relative low [0x80] known room rfl three.right.right
    have overLess : JumpAt code start [0x40] (start + 6) := by
      refine jumpAt_of_holds three.left ?_
      have four : (4 : Int8).toInt = 4 := by decide
      rw [four, List.length_singleton]
      omega
    have overEqual : JumpAt code (start + 2) [0x60] (start + 6) := by
      refine jumpAt_of_holds three.right.left ?_
      have two : (2 : Int8).toInt = 2 := by decide
      rw [two, List.length_singleton]
      omega
    exact ⟨address, found, rfl, overLess, overEqual, jumps⟩

/-- Lowering keeps to the table of transfers. -/
theorem transfersTo_of_lower (low : LowLabels symbols) (room : start + 6 < 0x8000000000000000)
    {op : Operation} (transfers : target? op = some target) {instrs : List Instr}
    (all : lower symbols start op = instrs.map .ok)
    (holds : Holds code start (instrs.flatMap Instr.bytes)) :
    ∃ address, symbols.get? target = some ⟨.label, address⟩ ∧
      TransfersTo code start (start + (instrs.flatMap Instr.bytes).length) address op := by
  cases op with
  | jmp | call =>
    cases transfers
    exact absoluteAt_of_single (fun _ => rfl) all holds
  | branch condition name =>
    cases transfers
    exact transfersTo_of_branch low room all holds
  | bitBranch ifSet n name =>
    cases transfers
    obtain ⟨bit, known, all⟩ := require_eq_map_ok all
    rw [bitAddress_eq_ok known] at all
    have long : start + 3 < 0x8000000000000000 := by omega
    refine jumpAt_of_single low _ (fun _ => ?_) long rfl all holds
    cases ifSet <;> rfl
  | djnz counter name =>
    cases transfers
    obtain ⟨r, known, all⟩ := require_eq_map_ok all
    have short : start + 2 < 0x8000000000000000 := by omega
    refine jumpAt_of_single low _ (fun _ => ?_) short rfl all holds
    rw [← direct_of_workReg known]
    rfl
  | _ => cases transfers

end Code

section Image

variable {program : List Instruction} {image : Image}

theorem offsetAt_le_programMemory (accepted : Mcs51.generate memory program = .ok image) {index : Nat}
    (within : index ≤ program.length) : offsetAt memory program index ≤ programMemory := by
  obtain ⟨laid, _⟩ := generate_eq_ok_iff.mp accepted
  have reached : _ = offsetAt memory program index := (inStep_of_generate accepted).counter index within
  rw [← reached]
  exact Layout.pc_before_le_addressSpace laid rfl (Nat.zero_le _) index within

theorem lists_layoutOf (laid : (layoutOf program).2 = none) :
    (layoutOf program).1.symbols.Lists sizer Ram.start 1 program :=
  Layout.lists_run Ram.allocator_consecutive laid .nil

theorem counterAt_le_programMemory (laid : (layoutOf program).2 = none) {index : Nat}
    (within : index ≤ program.length) : sizer.counterAt program index ≤ programMemory := by
  rw [← Layout.pc_before laid index within]
  exact Layout.pc_before_le_addressSpace laid rfl (Nat.zero_le _) index within

theorem lowLabels (laid : (layoutOf program).2 = none) : LowLabels (layoutOf program).1.symbols := by
  intro name address known
  obtain ⟨index, pos, present, same⟩ :=
    ((lists_layoutOf laid).exists_label (P := fun a => a = address)).mp ⟨address, known, rfl⟩
  have bound := counterAt_le_programMemory laid
    (Nat.le_of_lt (List.getElem?_eq_some_iff.mp present).1)
  rw [← same]
  exact Nat.lt_of_le_of_lt bound (by decide)

/-- Control transfers point where they should in all finished code: each is encoded as the table says,
with the address of its own label. -/
theorem transfers_reach_targets (accepted : CrossAsm.generate memory .mcs51 program = .ok image)
    {index : Nat} {op : Operation} {pos : Position} (present : program[index]? = some ⟨op, pos⟩)
    {name : String} (transfers : target? op = some name) :
    ∃ label place, program[label]? = some ⟨.label name, place⟩ ∧
      image.symbols.get? name = some ⟨.label, offsetAt memory program label⟩ ∧
      TransfersTo image.code (offsetAt memory program index) (offsetAt memory program (index + 1))
        (offsetAt memory program label) op := by
  obtain ⟨laid, _, emitted, whole⟩ := generate_eq_ok_iff.mp accepted
  have isCode : op.isCode := by
    cases op with
    | label | var | buffer | org => cases transfers
    | _ => rfl
  have room : offsetAt memory program index + 6 < 0x8000000000000000 := by
    have bound := offsetAt_le_programMemory accepted
      (Nat.le_of_lt (List.getElem?_eq_some_iff.mp present).1)
    have limit : programMemory + 6 < 0x8000000000000000 := by decide
    omega
  obtain ⟨instrs, lowered, stop, holds⟩ := lowered_at emitted present isCode
  obtain ⟨address, found, jumps⟩ :=
    transfersTo_of_lower (lowLabels laid) room transfers lowered holds
  rw [← symbols_of_generate accepted] at found
  obtain ⟨label, place, declared, rfl⟩ := (label_of_generate accepted).mp found
  refine ⟨label, place, declared, found, ?_⟩
  rw [stop, whole]
  exact jumps

/-- A loop that goes on while a register is greater than three: six bytes after the comparison, with two
jumps over the one that goes back. -/
theorem transfers_reach_targets_when_greater :
    let program : List Instruction :=
      [⟨.label "again", ⟨1, 1⟩⟩, ⟨.cmp ⟨0⟩ (.imm 3), ⟨2, 1⟩⟩, ⟨.branch .greater "again", ⟨3, 1⟩⟩]
    ∃ image, CrossAsm.generate .ofProcess .mcs51 program = .ok image ∧
      ∃ address, image.symbols.get? "again" = some ⟨.label, address⟩ ∧
        TransfersTo image.code 4 10 address (.branch .greater "again") := by
  intro program
  obtain ⟨image, generated⟩ : ∃ image, CrossAsm.generate .ofProcess .mcs51 program = .ok image := ⟨_, rfl⟩
  have present : program[2]? = some ⟨.branch .greater "again", ⟨3, 1⟩⟩ := rfl
  obtain ⟨label, place, _, found, jumps⟩ := transfers_reach_targets generated present rfl
  have start : offsetAt .ofProcess program 2 = 4 := by decide +kernel
  have stop : offsetAt .ofProcess program 3 = 10 := by decide +kernel
  rw [start, stop] at jumps
  exact ⟨image, generated, _, found, jumps⟩

end Image

end CrossAsm.Mcs51
