import CrossAsm.Mcs51.Lowering
import CrossAsm.Proofs.CodeBuffer
import CrossAsm.Proofs.Steps

/-!
The size of the code of an operation on the 8051. Lowering keeps to the table of sizes: what it gives
takes the bytes that the table promises (`lower_size`), and emission adds exactly these
(`emit_eq_ok`).
-/
namespace CrossAsm.Mcs51

variable {memory : Memory}

theorem takes_alu (op : AluOp) (src : Operand) {rest : Steps} {n : Nat}
    (more : Takes Instr.bytes rest n) : Takes Instr.bytes (alu op src :: rest) (2 + n) := by
  cases src with
  | reg r => exact .map 2 (fun _ => rfl) more
  | imm n => exact .map 2 (fun _ => rfl) more

/-- The bytes that writing an operand to RAM takes. -/
def movDirectSize : Operand → Nat
  | .reg _ => 2
  | .imm _ => 3

theorem takes_movDirect (direct : UInt8) (src : Operand) {rest : Steps} {n : Nat}
    (more : Takes Instr.bytes rest n) :
    Takes Instr.bytes (movDirect direct src :: rest) (movDirectSize src + n) := by
  cases src with
  | reg r => exact .map 2 (fun _ => rfl) more
  | imm n => exact .map 3 (fun _ => rfl) more

theorem takes_throughA (dest : Register) {work : Steps} {n : Nat}
    (worked : Takes Instr.bytes work n) : Takes Instr.bytes (throughA dest work) (1 + (n + 1)) :=
  .require fun _ _ => .ok 1 rfl (worked.append (.ok 1 rfl .nil))

theorem takes_branch (symbols : SymbolTable) (offset : Nat) (condition : Condition)
    (target : String) {size : Nat} (sized : sizeOf (.branch condition target) = .ok size) :
    Takes Instr.bytes (branch symbols offset condition target) size := by
  cases condition with
  | equal | notEqual | less | greaterEqual =>
    cases sized
    exact .map 2 (fun _ => rfl) .nil
  | greater =>
    cases sized
    exact .require fun _ _ => .ok 2 rfl (.ok 2 rfl (.ok 2 rfl .nil))
  | lessEqual =>
    cases sized
    exact .map 2 (fun _ => rfl) (.map 2 (fun _ => rfl) .nil)

/-- A shift rotates once for each bit and then masks. -/
theorem takes_shift (symbols : SymbolTable) (offset : Nat) (dir : Shift) (dest : Register)
    (count : Operand) {size : Nat} (sized : sizeOf (.shift dir dest count) = .ok size) :
    Takes Instr.bytes (lower symbols offset (.shift dir dest count)) size := by
  obtain ⟨bits, counted, rfl⟩ := map_eq_ok_iff.mp sized
  have rotations : Takes Instr.bytes (List.replicate bits (.ok (rotate dir))) (bits * 1) :=
    .replicate 1 (by cases dir <;> rfl) bits
  have through := takes_throughA dest
    (rotations.append (.ok (i := .aluImm .anl (shiftMask dir bits)) 2 rfl .nil))
  rw [lower, counted]
  exact through.of_eq (by omega)

/-- Lowering keeps to the table of sizes. -/
theorem takes_lower (symbols : SymbolTable) (offset : Nat) (op : Operation) {size : Nat}
    (sized : sizeOf op = .ok size) : Takes Instr.bytes (lower symbols offset op) size := by
  cases op with
  | label | var | buffer | org =>
    cases sized
    exact .nil
  | mov dest src =>
    cases sized
    cases src with
    | reg => exact .require fun _ _ => .map 1 (fun _ => rfl) (.ok 1 rfl .nil)
    | imm => exact .require fun _ _ => .map 2 (fun _ => rfl) .nil
  | load =>
    cases sized
    exact .require fun _ _ => .require fun _ _ => .ok 1 rfl (.ok 1 rfl .nil)
  | store p src =>
    cases sized
    cases src with
    | reg => exact .require fun _ _ => .map 1 (fun _ => rfl) (.ok 1 rfl .nil)
    | imm => exact .require fun _ _ => .map 2 (fun _ => rfl) .nil
  | binary op dest src =>
    cases op with
    | sub =>
      cases sized
      exact takes_throughA dest (.ok 1 rfl (takes_alu _ src .nil))
    | add | and | or | xor =>
      cases sized
      exact takes_throughA dest (takes_alu _ src .nil)
  | product op dest src =>
    cases op with
    | mul | div =>
      cases src <;> cases sized <;>
        exact takes_throughA dest (takes_movDirect _ _ (.ok 1 rfl .nil))
    | mod =>
      cases src <;> cases sized <;>
        exact takes_throughA dest (takes_movDirect _ _ (.ok 1 rfl (.ok 2 rfl .nil)))
  | unary op dest =>
    cases op with
    | not =>
      cases sized
      exact takes_throughA dest (.ok 1 rfl .nil)
    | neg =>
      cases sized
      exact takes_throughA dest (.ok 1 rfl (.ok 1 rfl .nil))
    | inc | dec =>
      cases sized
      exact .map 1 (fun _ => rfl) .nil
  | shift dir dest count => exact takes_shift symbols offset dir dest count sized
  | cmp left right =>
    cases sized
    exact .map 1 (fun _ => rfl) (.ok 1 rfl (takes_alu _ right .nil))
  | jmp | call =>
    cases sized
    exact .map 3 (fun _ => rfl) .nil
  | branch condition target => exact takes_branch symbols offset condition target sized
  | ret | nop =>
    cases sized
    exact .ok 1 rfl .nil
  | halt =>
    cases sized
    exact .ok 2 rfl .nil
  | push | pop =>
    cases sized
    exact .map 2 (fun _ => rfl) .nil
  | int => cases sized
  | set name src =>
    refine .require fun symbol _ => ?_
    cases kind : symbol.kind with
    | buffer => exact .error _
    | label | var => cases src <;> cases sized <;> exact takes_movDirect _ _ .nil
  | get =>
    cases sized
    refine .require fun _ _ => .require fun symbol _ => ?_
    cases kind : symbol.kind with
    | label | var | buffer => exact .ok 2 rfl .nil
  | bit op =>
    cases sized
    cases op with
    | set | clear | complement => exact .map 2 (fun _ => rfl) .nil
  | bitBranch ifSet =>
    cases sized
    cases ifSet with
    | true | false => exact .require fun _ _ => .map 3 (fun _ => rfl) .nil
  | djnz =>
    cases sized
    exact .require fun _ _ => .map 2 (fun _ => rfl) .nil

/-- What cannot be sized cannot be lowered either, for the same reason. -/
theorem lower_of_unsized (symbols : SymbolTable) (offset : Nat) {op : Operation} {fault : Fault}
    (unsized : sizeOf op = .error fault) : lower symbols offset op = [.error fault] := by
  cases op with
  | shift dir dest count =>
    cases counted : shiftCount .mcs51 count with
    | ok bits => simp [sizeOf, counted, Except.map] at unsized
    | error earlier =>
      rw [sizeOf, counted] at unsized
      cases unsized
      rw [lower, counted]
      rfl
  | int =>
    cases unsized
    rfl
  | binary op | unary op => cases op <;> cases unsized
  | product op dest src => cases op <;> cases src <;> cases unsized
  | branch condition => cases condition <;> cases unsized
  | set name src => cases src <;> cases unsized
  | _ => cases unsized

theorem lower_size {symbols : SymbolTable} {offset : Nat} {op : Operation} {instrs : List Instr}
    (all : lower symbols offset op = instrs.map .ok) :
    sizeOf op = .ok (instrs.flatMap Instr.bytes).length := by
  cases sized : sizeOf op with
  | ok size => rw [takes_lower symbols offset op sized instrs all]
  | error fault =>
    rw [lower_of_unsized symbols offset sized] at all
    cases instrs with
    | nil => cases all
    | cons i instrs => cases (List.cons_eq_cons.mp all).1

namespace Output

variable {out after : Output}

theorem put_eq_ok {i : Instr} (ran : put memory i out = .ok () after) :
    after = ⟨out.symbols, out.code.append i.bytes⟩ :=
  (CodeView.lift_extend_eq_ok_iff.mp ran).2

/-- Emission adds the bytes of the lowered instructions and nothing else. -/
theorem emit_eq_ok {op : Operation} (ran : emit memory op out = .ok () after) :
    ∃ instrs : List Instr, lower out.symbols out.code.size op = instrs.map .ok ∧
      after = ⟨out.symbols, out.code.append (instrs.flatMap Instr.bytes)⟩ := by
  obtain ⟨instrs, all, rfl⟩ := putAll_eq_ok (fun i s after => put_eq_ok (i := i)) ran
  refine ⟨instrs, all, ?_⟩
  clear all ran
  induction instrs generalizing out with
  | nil => rw [List.foldl_nil, List.flatMap_nil, CodeBuffer.append_nil]
  | cons i instrs ih => rw [List.foldl_cons, ih, CodeBuffer.append_append, List.flatMap_cons]

end Output

end CrossAsm.Mcs51
