import CrossAsm.Proofs.Mcs51.Acceptance
import CrossAsm.Proofs.Mcs51.Rotation

/-!
What the operations of a program mean on the 8051. An operation that transfers no control assigns one
byte of RAM, and moves the stack pointer if it uses the stack (`effect?`). The code that it is lowered
to does this and changes nothing else but the accumulator, B and the carry
(`straight_line_code_takes_effect`).
-/
namespace CrossAsm

variable {memory : Memory}

/-- Arithmetic on bytes wraps around. -/
def BinaryOp.onBytes : BinaryOp → UInt8 → UInt8 → UInt8
  | .add, x, y => x + y
  | .sub, x, y => x - y
  | .and, x, y => x &&& y
  | .or, x, y => x ||| y
  | .xor, x, y => x ^^^ y

/-- The low byte of a product, and the quotient and remainder of unsigned numbers. -/
def ProductOp.onBytes : ProductOp → UInt8 → UInt8 → UInt8
  | .mul, x, y => x * y
  | .div, x, y => x / y
  | .mod, x, y => x % y

def UnaryOp.onByte : UnaryOp → UInt8 → UInt8
  | .not, x => ~~~x
  | .neg, x => -x
  | .inc, x => x + 1
  | .dec, x => x - 1

namespace Operation

/-- The operations whose code is executed from its start to its end. -/
def isStraightLine : Operation → Bool
  | mov _ _ | load _ _ | store _ _ | binary _ _ _ | product _ _ _ | unary _ _ | shift _ _ _ | push _
  | pop _ | set _ _ | get _ _ => true
  | _ => false

def divisor? : Operation → Option Operand
  | product .div _ src | product .mod _ src => some src
  | _ => none

end Operation

namespace Mcs51

/-- An assignment to a byte of RAM, and the stack pointer after it. -/
structure Effect where
  location : UInt8
  value : UInt8
  sp : UInt8
  deriving DecidableEq, Repr

/-- The assignment is made, and no other byte changes. -/
structure Effect.Turns (e : Effect) (m after : Machine) : Prop where
  assigned : after.ram e.location = e.value
  unchanged : ∀ other, other ≠ e.location → after.ram other = m.ram other
  sp : after.sp = e.sp

/-- Immediates are taken modulo 256. -/
def Machine.value (m : Machine) : Operand → UInt8
  | .reg r => m.ram r.number
  | .imm n => UInt8.ofInt n.toInt

theorem Machine.value_of_ram {m n : Machine} (same : m.ram = n.ram) (src : Operand) :
    m.value src = n.value src := by
  cases src with
  | reg r => exact congrFun same r.number
  | imm n => rfl

/-- What an operation does. A division by zero has no meaning, and only data can be set and got. -/
def effect? (symbols : SymbolTable) (m : Machine) : Operation → Option Effect
  | .mov dest src => some ⟨dest.number, m.value src, m.sp⟩
  | .load dest p => some ⟨dest.number, m.ram (m.ram p.number), m.sp⟩
  | .store p src => some ⟨m.ram p.number, m.value src, m.sp⟩
  | .binary op dest src => some ⟨dest.number, op.onBytes (m.ram dest.number) (m.value src), m.sp⟩
  | .product op dest src =>
    if op ≠ .mul ∧ m.value src = 0 then none
    else some ⟨dest.number, op.onBytes (m.ram dest.number) (m.value src), m.sp⟩
  | .unary op dest => some ⟨dest.number, op.onByte (m.ram dest.number), m.sp⟩
  | .shift dir dest count =>
    some ⟨dest.number, dir.onByte (m.ram dest.number) (m.value count).toNat, m.sp⟩
  | .push src => some ⟨m.sp + 1, m.ram src.number, m.sp + 1⟩
  | .pop dest => some ⟨dest.number, m.ram m.sp, m.sp - 1⟩
  | .set name src =>
    match symbols.get? name with
    | some ⟨.var, address⟩ => some ⟨UInt8.ofNat address, m.value src, m.sp⟩
    | _ => none
  | .get dest name =>
    match symbols.get? name with
    | some ⟨.var, address⟩ => some ⟨dest.number, m.ram (UInt8.ofNat address), m.sp⟩
    | some ⟨.buffer, address⟩ => some ⟨dest.number, UInt8.ofNat address, m.sp⟩
    | _ => none
  | _ => none

theorem Effect.turns_of_ram {e : Effect} {m after : Machine}
    (ram : after.ram = (m.write e.location e.value).ram) (sp : after.sp = e.sp) : e.Turns m after where
  assigned := by rw [ram, Machine.ram_write_self]
  unchanged other ne := by rw [ram, Machine.ram_write_of_ne _ _ ne]
  sp := sp

section Operands

variable {m : Machine}

theorem imm8_eq_ok {n : Int64} {data : UInt8} (known : imm8 n = .ok data) :
    data = UInt8.ofInt n.toInt := by
  obtain ⟨value, checked, rfl⟩ := map_eq_ok_iff.mp known
  rw [(checkRange_eq_ok_iff.mp checked).2]

theorem code_of_pointer {r : Register} {p : Pointer} (known : pointer r = .ok p) :
    p.code = r.number := by
  obtain ⟨w, found, checked⟩ := bind_eq_ok_iff.mp known
  split at checked
  · cases checked
    exact direct_of_workReg found
  · cases checked

theorem number_lt_of_workReg {r : Register} {w : WorkReg} (known : workReg r = .ok w) :
    r.number < 0x80 := by
  unfold workReg at known
  split at known
  next small => exact UInt8.lt_iff_toNat_lt.mpr (Nat.lt_trans small (by decide))
  next => cases known

theorem toNat_value_of_shiftCount {count : Operand} {n : Nat}
    (known : shiftCount .mcs51 count = .ok n) : n ≤ 7 ∧ (m.value count).toNat = n := by
  obtain ⟨value, rfl, low, high, rfl⟩ := shiftCount_eq_ok_iff.mp known
  have few : value.toInt ≤ 7 := high
  refine ⟨by omega, ?_⟩
  rw [Machine.value, UInt8.ofInt, UInt8.toNat_ofNat']
  omega

end Operands

section Work

variable {m : Machine} {rest : Steps} {P : Machine → Prop}

theorem gives_alu (op : AluOp) {src : Operand} {x : UInt8} (value : m.value src = x)
    (more : Gives rest (m.alu op x) P) : Gives (alu op src :: rest) m P := by
  subst value
  cases src with
  | reg r =>
    refine .map fun w known => .ok rfl ?_
    rw [direct_of_workReg known]
    exact more
  | imm n =>
    refine .map fun data known => .ok rfl ?_
    rw [imm8_eq_ok known]
    exact more

theorem gives_movDirect {direct : UInt8} {src : Operand} {x : UInt8} {next : Machine}
    (value : m.value src = x) (written : m.writeDirect? direct x = some next)
    (more : Gives rest next P) : Gives (movDirect direct src :: rest) m P := by
  subst value
  cases src with
  | reg r =>
    refine .map fun w known => .ok ?_ more
    rw [Machine.exec, direct_of_workReg known]
    exact written
  | imm n =>
    refine .map fun data known => .ok ?_ more
    rw [Machine.exec, imm8_eq_ok known]
    exact written

/-- The accumulator holds a value, and neither RAM nor the stack pointer has changed. -/
structure Holding (m : Machine) (value : UInt8) (after : Machine) : Prop where
  a : after.a = value
  ram : after.ram = m.ram
  sp : after.sp = m.sp

/-- What is computed in the accumulator ends up in the register that was taken through it. -/
theorem gives_throughA {dest : Register} {work : Steps} {value : UInt8}
    (worked : Gives work { m with a := m.ram dest.number } (Holding m value)) :
    Gives (throughA dest work) m (Effect.Turns ⟨dest.number, value, m.sp⟩ m) := by
  refine .require fun d known => ?_
  have loaded : m.exec (.movAReg d) = some { m with a := m.ram dest.number } := by
    rw [Machine.exec, direct_of_workReg known]
  refine .ok loaded (.append worked ?_)
  intro next holding
  refine .ok rfl (.nil (Effect.turns_of_ram ?_ holding.sp))
  rw [direct_of_workReg known, holding.a]
  simp only [Machine.write, holding.ram]

theorem gives_rotations (dir : Shift) (n : Nat) (m : Machine) :
    Gives (List.replicate n (.ok (rotate dir))) m fun after =>
      after = { m with a := turned dir n m.a } := by
  induction n generalizing m with
  | zero => exact .nil rfl
  | succ n ih =>
    rw [List.replicate_succ]
    cases dir with
    | left => exact .ok rfl (ih { m with a := Machine.rotateLeft m.a })
    | right => exact .ok rfl (ih { m with a := Machine.rotateRight m.a })

theorem gives_masked {dir : Shift} {n : Nat} (few : n ≤ 7) (m : Machine) {x : UInt8} :
    Gives (List.replicate n (.ok (rotate dir)) ++ [.ok (.aluImm .anl (shiftMask dir n))])
      { m with a := x } (Holding m (dir.onByte x n)) := by
  refine .append (gives_rotations dir n _) ?_
  rintro next rfl
  exact .ok rfl (.nil ⟨masked_turned dir few x, rfl, rfl⟩)

end Work

/-- All data are where direct addresses reach RAM. -/
def DataInRam (symbols : SymbolTable) : Prop :=
  ∀ name symbol, symbols.get? name = some symbol → symbol.kind.isData → symbol.address < Ram.size

theorem ofNat_lt_of_dataInRam {address : Nat} (low : address < Ram.size) : UInt8.ofNat address < 0x80 := by
  unfold Ram.size at low
  apply UInt8.lt_iff_toNat_lt.mpr
  rw [UInt8.toNat_ofNat', Nat.mod_eq_of_lt (by omega)]
  exact low

section Lowering

variable {symbols : SymbolTable} {offset : Nat} {m : Machine} {e : Effect}

theorem gives_mov {dest : Register} {src : Operand} :
    Gives (lower symbols offset (.mov dest src)) m
      (Effect.Turns ⟨dest.number, m.value src, m.sp⟩ m) := by
  cases src with
  | reg r =>
    refine .require fun d known => .map fun s source => .ok rfl (.ok rfl (.nil ?_))
    rw [← direct_of_workReg known, Machine.value, ← direct_of_workReg source]
    exact Effect.turns_of_ram rfl rfl
  | imm n =>
    refine .require fun d known => .map fun data immediate => .ok rfl (.nil ?_)
    rw [← direct_of_workReg known, Machine.value, ← imm8_eq_ok immediate]
    exact Effect.turns_of_ram rfl rfl

theorem gives_load {dest p : Register} :
    Gives (lower symbols offset (.load dest p)) m
      (Effect.Turns ⟨dest.number, m.ram (m.ram p.number), m.sp⟩ m) := by
  refine .require fun d known => .require fun q pointing => .ok rfl (.ok rfl (.nil ?_))
  rw [← direct_of_workReg known, ← code_of_pointer pointing]
  exact Effect.turns_of_ram rfl rfl

theorem gives_store {p : Register} {src : Operand} :
    Gives (lower symbols offset (.store p src)) m
      (Effect.Turns ⟨m.ram p.number, m.value src, m.sp⟩ m) := by
  cases src with
  | reg r =>
    refine .require fun q pointing => .map fun s source => .ok rfl (.ok rfl (.nil ?_))
    rw [← code_of_pointer pointing, Machine.value, ← direct_of_workReg source]
    exact Effect.turns_of_ram rfl rfl
  | imm n =>
    refine .require fun q pointing => .map fun data immediate => .ok rfl (.nil ?_)
    rw [← code_of_pointer pointing, Machine.value, ← imm8_eq_ok immediate]
    exact Effect.turns_of_ram rfl rfl

theorem gives_binary {op : BinaryOp} {dest : Register} {src : Operand} :
    Gives (lower symbols offset (.binary op dest src)) m
      (Effect.Turns ⟨dest.number, op.onBytes (m.ram dest.number) (m.value src), m.sp⟩ m) := by
  cases op with
  | sub =>
    -- the carry is cleared first, so nothing is borrowed
    refine gives_throughA (.ok rfl (gives_alu .subb (Machine.value_of_ram rfl src)
      (.nil ⟨?_, rfl, rfl⟩)))
    exact UInt8.sub_zero _
  | add | and | or | xor =>
    exact gives_throughA (gives_alu _ (Machine.value_of_ram rfl src) (.nil ⟨rfl, rfl, rfl⟩))

theorem gives_product {op : ProductOp} {dest : Register} {src : Operand}
    (divides : op = .mul ∨ m.value src ≠ 0) :
    Gives (lower symbols offset (.product op dest src)) m
      (Effect.Turns ⟨dest.number, op.onBytes (m.ram dest.number) (m.value src), m.sp⟩ m) := by
  have loaded := Machine.value_of_ram (m := { m with a := m.ram dest.number }) (n := m) rfl src
  cases op with
  | mul =>
    exact gives_throughA (gives_movDirect loaded rfl (.ok rfl (.nil ⟨rfl, rfl, rfl⟩)))
  | div =>
    have nonzero : m.value src ≠ 0 := divides.resolve_left (by decide)
    exact gives_throughA (gives_movDirect loaded rfl (.ok (if_neg nonzero) (.nil ⟨rfl, rfl, rfl⟩)))
  | mod =>
    have nonzero : m.value src ≠ 0 := divides.resolve_left (by decide)
    exact gives_throughA (gives_movDirect loaded rfl
      (.ok (if_neg nonzero) (.ok rfl (.nil ⟨rfl, rfl, rfl⟩))))

theorem gives_unary {op : UnaryOp} {dest : Register} :
    Gives (lower symbols offset (.unary op dest)) m
      (Effect.Turns ⟨dest.number, op.onByte (m.ram dest.number), m.sp⟩ m) := by
  cases op with
  | not => exact gives_throughA (.ok rfl (.nil ⟨rfl, rfl, rfl⟩))
  | neg =>
    refine gives_throughA (.ok rfl (.ok rfl (.nil ⟨?_, rfl, rfl⟩)))
    exact (UInt8.neg_eq_not_add _).symm
  | inc | dec =>
    refine .map fun d known => .ok rfl (.nil ?_)
    rw [← direct_of_workReg known]
    exact Effect.turns_of_ram rfl rfl

theorem gives_shift {dir : Shift} {dest : Register} {count : Operand} :
    Gives (lower symbols offset (.shift dir dest count)) m
      (Effect.Turns ⟨dest.number, dir.onByte (m.ram dest.number) (m.value count).toNat, m.sp⟩ m) := by
  refine .require fun n counted => ?_
  obtain ⟨few, value⟩ := toNat_value_of_shiftCount (m := m) counted
  rw [value]
  exact gives_throughA (gives_masked few m)

theorem gives_push {src : Register} :
    Gives (lower symbols offset (.push src)) m
      (Effect.Turns ⟨m.sp + 1, m.ram src.number, m.sp + 1⟩ m) := by
  refine .map fun r known => ?_
  have pushed : m.exec (.push r.direct) =
      some ({ m with sp := m.sp + 1 }.write (m.sp + 1) (m.ram src.number)) := by
    rw [direct_of_workReg known, Machine.exec, Machine.direct?_of_lt _ (number_lt_of_workReg known)]
    rfl
  exact .ok pushed (.nil (Effect.turns_of_ram rfl rfl))

theorem gives_pop {dest : Register} :
    Gives (lower symbols offset (.pop dest)) m
      (Effect.Turns ⟨dest.number, m.ram m.sp, m.sp - 1⟩ m) := by
  refine .map fun r known => ?_
  have popped : m.exec (.pop r.direct) =
      some ({ m with sp := m.sp - 1 }.write dest.number (m.ram m.sp)) := by
    rw [direct_of_workReg known, Machine.exec,
      Machine.writeDirect?_of_lt _ (number_lt_of_workReg known)]
  exact .ok popped (.nil (Effect.turns_of_ram rfl rfl))

theorem gives_set (inRam : DataInRam symbols) {name : String} {src : Operand}
    (means : effect? symbols m (.set name src) = some e) :
    Gives (lower symbols offset (.set name src)) m (e.Turns m) := by
  refine .require fun symbol resolved => ?_
  obtain ⟨known, isData⟩ := SymbolTable.resolveData_eq_ok_iff.mp resolved
  have low := ofNat_lt_of_dataInRam (inRam name symbol known isData)
  obtain ⟨kind, address⟩ := symbol
  simp only [effect?, known] at means
  cases kind with
  | label | buffer => cases means
  | var =>
    cases means
    exact gives_movDirect rfl (Machine.writeDirect?_of_lt _ low _)
      (.nil (Effect.turns_of_ram rfl rfl))

theorem gives_get (inRam : DataInRam symbols) {dest : Register} {name : String}
    (means : effect? symbols m (.get dest name) = some e) :
    Gives (lower symbols offset (.get dest name)) m (e.Turns m) := by
  refine .require fun d known => .require fun symbol resolved => ?_
  have number := direct_of_workReg known
  obtain ⟨found, isData⟩ := SymbolTable.resolveData_eq_ok_iff.mp resolved
  have low := ofNat_lt_of_dataInRam (inRam name symbol found isData)
  obtain ⟨kind, address⟩ := symbol
  simp only [effect?, found, ← number] at means
  cases kind with
  | label => cases means
  | var =>
    cases means
    have loaded : m.exec (.movRegDirect d (UInt8.ofNat address)) =
        some (m.write d.direct (m.ram (UInt8.ofNat address))) := by
      rw [Machine.exec, Machine.direct?_of_lt _ low]
      rfl
    exact .ok loaded (.nil (Effect.turns_of_ram rfl rfl))
  | buffer =>
    cases means
    exact .ok rfl (.nil (Effect.turns_of_ram rfl rfl))

/-- The code of an operation does what the operation means. -/
theorem gives_lower (inRam : DataInRam symbols) {op : Operation} (means : effect? symbols m op = some e) :
    Gives (lower symbols offset op) m (e.Turns m) := by
  cases op with
  | mov =>
    cases means
    exact gives_mov
  | load =>
    cases means
    exact gives_load
  | store =>
    cases means
    exact gives_store
  | binary =>
    cases means
    exact gives_binary
  | product op dest src =>
    simp only [effect?] at means
    split at means
    next => cases means
    next divides =>
      cases means
      exact gives_product (by simpa [Decidable.or_iff_not_imp_left] using divides)
  | unary =>
    cases means
    exact gives_unary
  | shift =>
    cases means
    exact gives_shift
  | push =>
    cases means
    exact gives_push
  | pop =>
    cases means
    exact gives_pop
  | set => exact gives_set inRam means
  | get => exact gives_get inRam means
  | _ => cases means

/-- What can be lowered has a meaning, unless it divides by zero. -/
theorem exists_effect {op : Operation} {instrs : List Instr} (straight : op.isStraightLine)
    (all : lower symbols offset op = instrs.map .ok)
    (nonzero : ∀ src, op.divisor? = some src → m.value src ≠ 0) : ∃ e, effect? symbols m op = some e := by
  cases op with
  | mov | load | store | binary | unary | shift | push | pop => exact ⟨_, rfl⟩
  | product op dest src =>
    cases op with
    | mul => exact ⟨_, rfl⟩
    | div | mod =>
      have divides := nonzero src rfl
      exact ⟨_, by simp [effect?, divides]; rfl⟩
  | set name src =>
    obtain ⟨symbol, resolved, all⟩ := require_eq_map_ok all
    obtain ⟨known, isData⟩ := SymbolTable.resolveData_eq_ok_iff.mp resolved
    obtain ⟨kind, address⟩ := symbol
    cases kind with
    | label => cases isData
    | var => exact ⟨_, by simp only [effect?, known]; rfl⟩
    | buffer =>
      obtain ⟨_, made, _⟩ := singleton_eq_map_ok all
      cases made
  | get dest name =>
    obtain ⟨d, _, all⟩ := require_eq_map_ok all
    obtain ⟨symbol, resolved, _⟩ := require_eq_map_ok all
    obtain ⟨known, isData⟩ := SymbolTable.resolveData_eq_ok_iff.mp resolved
    obtain ⟨kind, address⟩ := symbol
    cases kind with
    | label => cases isData
    | var | buffer => exact ⟨_, by simp only [effect?, known]; rfl⟩
  | _ => cases straight

end Lowering

/-- Every declaration takes some of the storage, so it starts inside of it. -/
theorem dataInRam {program : List Instruction} (laid : (layoutOf program).2 = none) :
    DataInRam (layoutOf program).1.symbols := by
  intro name symbol known isData
  obtain ⟨index, ⟨op, pos⟩, present, declared⟩ := (lists_layoutOf laid name symbol).mp known
  have within := (List.getElem?_eq_some_iff.mp present).1
  have stored := storageBefore_le_ram laid within
  rw [storageBefore_succ 1 present] at stored
  cases op with
  | label =>
    cases declared
    cases isData
  | var =>
    cases declared
    simp only [Operation.storage, Ram.start, Ram.size] at *
    omega
  | buffer name length =>
    cases declared
    obtain ⟨address, next, reserved⟩ := (Layout.placed_before laid present).buffer_reserved
    have positive := (Ram.buffer_eq_ok_iff.mp reserved).1
    simp only [Operation.storage, Ram.start, Ram.size] at *
    omega
  | _ => cases declared

/-- Lowering keeps the meaning of straight-line operations. Where emission accepts one, with the symbols
of a layout, the native instructions it adds take every machine (on which no divisor is zero) to one
where the assignment that the operation stands for has been made, no other byte of RAM has changed and
the stack pointer is as it says. -/
theorem straight_line_code_takes_effect {program : List Instruction} {out after : Output}
    {op : Operation} (laid : (layoutOf program).2 = none)
    (symbols : out.symbols = (layoutOf program).1.symbols) (straight : op.isStraightLine)
    (emitted : Output.emit memory op out = .ok () after) :
    ∃ instrs : List Instr,
      lower out.symbols out.code.size op = instrs.map .ok ∧
      after = ⟨out.symbols, out.code.append (instrs.flatMap Instr.bytes)⟩ ∧
      ∀ m : Machine, (∀ src, op.divisor? = some src → m.value src ≠ 0) →
        ∃ (e : Effect) (reached : Machine), effect? out.symbols m op = some e ∧
          Machine.run instrs m = some reached ∧ e.Turns m reached := by
  obtain ⟨instrs, all, grown⟩ := Output.emit_eq_ok emitted
  refine ⟨instrs, all, grown, ?_⟩
  intro m nonzero
  obtain ⟨e, means⟩ := exists_effect straight all nonzero
  obtain ⟨reached, ran, turns⟩ := gives_lower (symbols ▸ dataInRam laid) means instrs all
  exact ⟨e, reached, means, ran, turns⟩

/-- Of 37 divided by ten, the remainder is seven. It is found in B and goes back to the register through
the accumulator. -/
theorem straight_line_code_takes_effect_of_remainder :
    let program : List Instruction := [⟨.var "count" none, ⟨1, 1⟩⟩]
    let m : Machine := ⟨0, 0, true, 0x7F, fun _ => 37⟩
    ∃ (instrs : List Instr) (reached : Machine),
      lower (layoutOf program).1.symbols 0 (.product .mod ⟨2⟩ (.imm 10)) = instrs.map .ok ∧
      Machine.run instrs m = some reached ∧ Effect.Turns ⟨2, 7, 0x7F⟩ m reached := by
  intro program m
  obtain ⟨after, emitted⟩ : ∃ after, Output.emit .ofProcess (.product .mod ⟨2⟩ (.imm 10))
      ⟨(layoutOf program).1.symbols, .empty⟩ = .ok () after := ⟨_, rfl⟩
  have laid : (layoutOf program).2 = none := rfl
  obtain ⟨instrs, all, _, runs⟩ := straight_line_code_takes_effect laid rfl rfl emitted
  obtain ⟨e, reached, means, ran, turns⟩ := runs m fun src divisor => by
    cases divisor
    decide
  have seven : effect? (layoutOf program).1.symbols m (.product .mod ⟨2⟩ (.imm 10)) =
      some ⟨2, 7, 0x7F⟩ := by decide
  cases seven.symm.trans means
  exact ⟨instrs, reached, all, ran, turns⟩

end Mcs51

end CrossAsm
