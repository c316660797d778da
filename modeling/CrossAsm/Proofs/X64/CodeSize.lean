import CrossAsm.Proofs.CodeBuffer
import CrossAsm.Proofs.Steps
import CrossAsm.X64.Lowering

/-!
The size of the code of an operation on x86-64. Lowering keeps to the table of sizes: what it gives
takes the bytes that the table promises (`lower_size`), and emission adds exactly these, with a
relocation for each instruction that refers to a symbol (`emit_eq_ok`).
-/
namespace CrossAsm.X64

variable {memory : Memory}

def Step.bytes (s : Step) : List UInt8 := s.instr.bytes

theorem takes_plain {value : Except Fault Instr} {rest : Steps} {n : Nat} (m : Nat)
    (first : ∀ i, value = .ok i → i.bytes.length = m) (more : Takes Step.bytes rest n) :
    Takes Step.bytes (plain value :: rest) (m + n) := by
  refine .cons (fun s made => ?_) more
  obtain ⟨i, checked, rfl⟩ := map_eq_ok_iff.mp made
  exact first i checked

theorem takes_plain_map {α : Type} {value : Except Fault α} {instr : α → Instr} {rest : Steps}
    {n : Nat} (m : Nat) (first : ∀ a, (instr a).bytes.length = m)
    (more : Takes Step.bytes rest n) :
    Takes Step.bytes (plain (value.map instr) :: rest) (m + n) := by
  refine takes_plain m (fun i made => ?_) more
  obtain ⟨a, _, rfl⟩ := map_eq_ok_iff.mp made
  exact first a

theorem takes_withOperand {dest : Register} {src : Operand} {reg : GeneralReg → GeneralReg → Instr}
    {imm : GeneralReg → Int32 → Instr} {size : Nat}
    (ofReg : ∀ r d s, src = .reg r → generalReg dest = .ok d → (reg d s).bytes.length = size)
    (ofImm : ∀ n d v, src = .imm n → generalReg dest = .ok d → (imm d v).bytes.length = size) :
    Takes Step.bytes (withOperand dest src reg imm) size := by
  refine .require fun d known => ?_
  cases src with
  | reg r => exact takes_plain_map size (fun s => ofReg r d s rfl known) .nil
  | imm n => exact takes_plain_map size (fun v => ofImm n d v rfl known) .nil

/-- Instructions that are as long as `operandSize` says. -/
theorem takes_operandSize {dest : Register} {src : Operand}
    {reg : GeneralReg → GeneralReg → Instr} {imm : GeneralReg → Int32 → Instr}
    (ofReg : ∀ d s, (reg d s).bytes.length = 3) (ofImm : ∀ d v, (imm d v).bytes.length = 7) :
    Takes Step.bytes (withOperand dest src reg imm) (operandSize src) := by
  apply takes_withOperand
  · rintro r d s rfl _
    exact ofReg d s
  · rintro n d v rfl _
    exact ofImm d v

/-- A move that is left out if its operands are the same. -/
theorem takes_move (same : Prop) [Decidable same] (dest src : GeneralReg) :
    Takes Step.bytes (if same then [] else [.ok ⟨.movReg dest src, none⟩])
      (if same then 0 else 3) := by
  split
  · exact .nil
  · exact .ok 3 rfl .nil

/-- The steps of a division around the one that loads the divisor. -/
def Division.around (p : Division) (load : Except Fault Step) : Steps :=
  [.ok ⟨.push p.divisor, none⟩, load] ++ p.saved.map (fun r => .ok ⟨.push r, none⟩) ++
    (if p.dest = .rax then [] else [.ok ⟨.movReg .rax p.dest, none⟩]) ++
    [.ok ⟨.cqo, none⟩, .ok ⟨.group .idiv p.divisor, none⟩] ++
    (if p.dest = p.result then [] else [.ok ⟨.movReg p.dest p.result, none⟩]) ++
    p.saved.reverse.map (fun r => .ok ⟨.pop r, none⟩) ++ [.ok ⟨.pop p.divisor, none⟩]

theorem takes_around (p : Division) {load : Except Fault Step} {n : Nat}
    (loaded : Takes Step.bytes [load] n) :
    Takes Step.bytes (p.around load)
      (1 + n + p.saved.length + (if p.dest = .rax then 0 else 3) + 2 + 3 +
        (if p.dest = p.result then 0 else 3) + p.saved.length + 1) := by
  have pushes : Takes Step.bytes (p.saved.map fun r => .ok ⟨.push r, none⟩)
      (p.saved.length * 1) := .each 1 (fun _ => rfl) _
  have pops : Takes Step.bytes (p.saved.reverse.map fun r => .ok ⟨.pop r, none⟩)
      (p.saved.reverse.length * 1) := .each 1 (fun _ => rfl) _
  have divide : Takes Step.bytes [.ok ⟨.cqo, none⟩, .ok ⟨.group .idiv p.divisor, none⟩] 5 :=
    .ok 2 rfl (.ok 3 rfl .nil)
  refine .of_eq ((((((Takes.append (.ok 1 rfl loaded) pushes).append (takes_move _ _ _)).append
    divide).append (takes_move _ _ _)).append pops).append (.ok 1 rfl .nil)) ?_
  rw [List.length_reverse]
  omega

theorem takes_division (p : Division) (src : Operand) :
    Takes Step.bytes (p.steps src) (p.size src) := by
  cases src with
  | reg r => exact takes_around p (takes_plain_map 3 (fun _ => rfl) .nil)
  | imm n => exact takes_around p (takes_plain_map 7 (fun _ => rfl) .nil)

theorem each_withOperand {P : Except Fault Step → Prop} {dest : Register} {src : Operand}
    {reg : GeneralReg → GeneralReg → Instr} {imm : GeneralReg → Int32 → Instr}
    (unmet : ∀ fault, generalReg dest = .error fault → P (.error fault))
    (ofReg : ∀ d r, P (plain ((generalReg r).map (reg d))))
    (ofImm : ∀ d n, P (plain ((imm32 n).map (imm d)))) : Each P (withOperand dest src reg imm) := by
  refine .require unmet fun d _ => ?_
  cases src with
  | reg r => exact .single (ofReg d r)
  | imm n => exact .single (ofImm d n)

theorem each_division {P : Except Fault Step → Prop} {p : Division} {src : Operand}
    (put : ∀ r s, ∀ i ∈ [Instr.push r, .pop r, .movReg r s, .cqo, .group .idiv r], P (.ok ⟨i, none⟩))
    (ofReg : ∀ r, P (plain ((generalReg r).map (.movReg p.divisor))))
    (ofImm : ∀ n, P (plain ((imm32 n).map (.movImm p.divisor)))) : Each P (p.steps src) := by
  have move (same : Prop) [Decidable same] (dest source : GeneralReg) :
      Each P (if same then [] else [.ok ⟨.movReg dest source, none⟩]) := by
    split
    · exact .nil
    · exact .single (put dest source _ (by simp))
  have push (r : GeneralReg) : P (.ok ⟨.push r, none⟩) := put r r _ (by simp)
  have pop (r : GeneralReg) : P (.ok ⟨.pop r, none⟩) := put r r _ (by simp)
  have divide : Each P [.ok ⟨.cqo, none⟩, .ok ⟨.group .idiv p.divisor, none⟩] :=
    .cons (put p.divisor p.divisor _ (by simp)) (.single (put p.divisor p.divisor _ (by simp)))
  have around (load : Except Fault Step) (loaded : P load) : Each P (p.around load) :=
    (((((Each.append (.cons (push _) (.single loaded)) (.map push)).append (move _ _ _)).append
      divide).append (move _ _ _)).append (.map pop)).append (.single (pop _))
  cases src with
  | reg r => exact around _ (ofReg r)
  | imm n => exact around _ (ofImm n)

/-- Lowering keeps to the table of sizes. -/
theorem takes_lower (symbols : SymbolTable) (op : Operation) {size : Nat}
    (sized : sizeOf op = .ok size) : Takes Step.bytes (lower symbols op) size := by
  cases op with
  | label | var | buffer | org =>
    cases sized
    exact .nil
  | mov | binary | cmp =>
    cases sized
    exact takes_operandSize (fun _ _ => rfl) (fun _ _ => rfl)
  | load dest p =>
    obtain ⟨base, known, rfl⟩ := map_eq_ok_iff.mp sized
    refine (takes_plain (3 + base.baseOverhead) (fun i made => ?_) .nil).of_eq (Nat.add_zero _)
    obtain ⟨d, _, made⟩ := bind_eq_ok_iff.mp made
    obtain ⟨b, again, made⟩ := bind_eq_ok_iff.mp made
    cases made
    cases known.symm.trans again
    simp only [Instr.bytes, List.length_append, Instr.length_memory, List.length_cons,
      List.length_nil]
    omega
  | store p src =>
    obtain ⟨base, known, rfl⟩ := map_eq_ok_iff.mp sized
    apply takes_withOperand
    · rintro r d s rfl again
      cases known.symm.trans again
      simp only [Instr.bytes, List.length_append, Instr.length_memory, List.length_cons,
        List.length_nil, operandSize]
      omega
    · rintro n d v rfl again
      cases known.symm.trans again
      simp only [Instr.bytes, List.length_append, Instr.length_memory, List.length_cons,
        List.length_nil, Instr.length_immBytes, operandSize]
      omega
  | product op dest src =>
    cases op with
    | mul =>
      apply takes_withOperand
      · rintro r d s rfl _
        cases sized
        rfl
      · rintro n d v rfl _
        cases sized
        rfl
    | div | mod =>
      obtain ⟨p, planned, rfl⟩ := map_eq_ok_iff.mp sized
      rw [lower, planned]
      exact takes_division p src
  | unary =>
    cases sized
    exact takes_plain_map 3 (fun _ => rfl) .nil
  | push | pop =>
    cases sized
    exact takes_plain_map 1 (fun _ => rfl) .nil
  | shift dir dest count =>
    obtain ⟨bits, _, rfl⟩ := map_eq_ok_iff.mp sized
    refine takes_plain 4 (fun i made => ?_) .nil
    obtain ⟨d, _, made⟩ := bind_eq_ok_iff.mp made
    obtain ⟨n, _, made⟩ := bind_eq_ok_iff.mp made
    cases made
    rfl
  | jmp | call =>
    cases sized
    exact .ok 5 rfl .nil
  | branch =>
    cases sized
    exact .ok 6 rfl .nil
  | ret | halt | nop =>
    cases sized
    exact .ok 1 rfl .nil
  | int =>
    cases sized
    exact takes_plain_map 2 (fun _ => rfl) .nil
  | set name src =>
    cases src with
    | reg =>
      cases sized
      rw [lower]
      split
      · exact .error _
      · exact .require fun _ _ => .ok 7 rfl .nil
    | imm =>
      cases sized
      rw [lower]
      split
      · exact .error _
      · exact .require fun _ _ => .ok 11 rfl .nil
  | get =>
    cases sized
    refine .require fun d _ => ?_
    split
    · exact .ok 7 rfl .nil
    · exact .ok 7 rfl .nil
  | bit | bitBranch | djnz => cases sized

/-- What cannot be sized cannot be lowered either. The reasons may differ: sizing a `load` looks at the
pointer alone, lowering at the destination first. -/
theorem lower_of_unsized (symbols : SymbolTable) {op : Operation} {fault : Fault}
    (unsized : sizeOf op = .error fault) : ∃ other, lower symbols op = [.error other] := by
  cases op with
  | load dest p =>
    cases base : generalReg p with
    | ok b => simp [sizeOf, base, Except.map] at unsized
    | error reason =>
      cases known : generalReg dest with
      | ok d => exact ⟨reason, by rw [lower, known, base]; rfl⟩
      | error first => exact ⟨first, by rw [lower, known]; rfl⟩
  | store p src =>
    cases base : generalReg p with
    | ok b => simp [sizeOf, base, Except.map] at unsized
    | error reason => exact ⟨reason, by rw [lower, withOperand, base]; rfl⟩
  | product op dest src =>
    cases op with
    | mul => cases src <;> cases unsized
    | div =>
      cases planned : Division.plan dest src false with
      | ok p => simp [sizeOf, planned, Except.map] at unsized
      | error reason => exact ⟨reason, by rw [lower, planned]; rfl⟩
    | mod =>
      cases planned : Division.plan dest src true with
      | ok p => simp [sizeOf, planned, Except.map] at unsized
      | error reason => exact ⟨reason, by rw [lower, planned]; rfl⟩
  | shift dir dest count =>
    cases counted : shiftCount .x64 count with
    | ok bits => simp [sizeOf, counted, Except.map] at unsized
    | error reason =>
      cases known : generalReg dest with
      | ok d => exact ⟨reason, by rw [lower, known, counted]; rfl⟩
      | error first => exact ⟨first, by rw [lower, known]; rfl⟩
  | set name src => cases src <;> cases unsized
  | bit | bitBranch | djnz => exact ⟨_, rfl⟩
  | _ => cases unsized

theorem lower_size {symbols : SymbolTable} {op : Operation} {steps : List Step}
    (all : lower symbols op = steps.map .ok) :
    sizeOf op = .ok (steps.flatMap Step.bytes).length := by
  cases sized : sizeOf op with
  | ok size => rw [takes_lower symbols op sized steps all]
  | error fault =>
    obtain ⟨other, failed⟩ := lower_of_unsized symbols sized
    rw [failed] at all
    cases steps with
    | nil => cases all
    | cons s steps => cases (List.cons_eq_cons.mp all).1

namespace Output

variable {out after : Output} {pos : Position}

/-- The relocations of steps whose code starts at `start`. -/
def relocationsOf (pos : Position) : (start : Nat) → List Step → List Relocation
  | _, [] => []
  | start, s :: rest =>
    (relocation? pos start s).toList ++ relocationsOf pos (start + s.bytes.length) rest

theorem put_eq_ok {s : Step} (ran : put memory pos s out = .ok () after) :
    after = ⟨out.symbols, out.code.append s.bytes,
      out.relocations ++ (relocation? pos out.code.size s).toList⟩ := by
  unfold put at ran
  cases extended : CodeBuffer.extend memory s.instr.bytes out.code with
  | error fault code => simp [extended] at ran
  | ok _ code =>
    obtain ⟨_, rfl⟩ := CodeBuffer.extend_eq_ok_iff.mp extended
    simp only [extended] at ran
    cases ran
    rfl

/-- Emission adds the bytes and the relocations of the lowered instructions and nothing else. -/
theorem emit_eq_ok {op : Operation} (ran : emit memory op pos out = .ok () after) :
    ∃ steps : List Step, lower out.symbols op = steps.map .ok ∧
      after = ⟨out.symbols, out.code.append (steps.flatMap Step.bytes),
        out.relocations ++ relocationsOf pos out.code.size steps⟩ := by
  obtain ⟨steps, all, rfl⟩ := putAll_eq_ok (fun s before after => put_eq_ok (s := s)) ran
  refine ⟨steps, all, ?_⟩
  clear all ran
  induction steps generalizing out with
  | nil => simp [relocationsOf]
  | cons s steps ih =>
    rw [List.foldl_cons, ih, CodeBuffer.append_append, List.flatMap_cons, relocationsOf,
      CodeBuffer.size_append, List.append_assoc]

end Output

end CrossAsm.X64
