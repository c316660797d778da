import CrossAsm.Proofs.Attribution
import CrossAsm.Proofs.Mcs51.Emission
import CrossAsm.Proofs.Mcs51.Ram

/-!
On the 8051 code is always as long as promised, so no fault of layout or emission is the assembler's
own.
-/
namespace CrossAsm.Mcs51

variable {memory : Memory}

theorem attributable_workReg (r : Register) : Attributable (workReg r) := by
  unfold workReg
  split
  · exact .ok _
  · exact .error rfl

theorem attributable_pointer (r : Register) : Attributable (pointer r) := by
  refine (attributable_workReg r).bind fun w => ?_
  split
  · exact .ok _
  · exact .error rfl

theorem attributable_imm8 (n : Int64) : Attributable (imm8 n) :=
  (attributable_checkRange _ _ _).map _

theorem attributable_bitAddress (n : Int64) : Attributable (bitAddress n) :=
  (attributable_checkRange _ _ _).map _

theorem attributable_absolute (symbols : SymbolTable) (target : String) :
    Attributable (absolute symbols target) :=
  (symbols.attributable_resolveLabel target).bind fun _ => .ite (.ok _) (.error rfl)

theorem attributable_relative (symbols : SymbolTable) (target : String) (stop : Nat) :
    Attributable (relative symbols target stop) :=
  (symbols.attributable_resolveLabel target).bind fun _ => .ite (.ok _) (.error rfl)

theorem attributable_alu (op : AluOp) (src : Operand) : Attributable (alu op src) := by
  cases src with
  | reg r => exact (attributable_workReg r).map _
  | imm n => exact (attributable_imm8 n).map _

theorem attributable_movDirect (direct : UInt8) (src : Operand) :
    Attributable (movDirect direct src) := by
  cases src with
  | reg r => exact (attributable_workReg r).map _
  | imm n => exact (attributable_imm8 n).map _

theorem attributable_throughA (dest : Register) {work : Steps} (worked : Each Attributable work) :
    Each Attributable (throughA dest work) :=
  (attributable_workReg dest).require fun _ => .cons (.ok _) (worked.append (.single (.ok _)))

theorem attributable_branch (symbols : SymbolTable) (offset : Nat) (condition : Condition)
    (target : String) : Each Attributable (branch symbols offset condition target) := by
  cases condition with
  | equal | notEqual | less | greaterEqual => exact .single ((attributable_relative _ _ _).map _)
  | greater =>
    exact (attributable_relative _ _ _).require fun _ =>
      .cons (.ok _) (.cons (.ok _) (.single (.ok _)))
  | lessEqual =>
    exact .cons ((attributable_relative _ _ _).map _) (.single ((attributable_relative _ _ _).map _))

/-- What lowering refuses is refused for a reason that lies in the program. -/
theorem attributable_lower (symbols : SymbolTable) (offset : Nat) (op : Operation) :
    Each Attributable (lower symbols offset op) := by
  cases op with
  | label | var | buffer | org => exact .nil
  | mov dest src =>
    cases src with
    | reg src =>
      exact (attributable_workReg dest).require fun _ =>
        .cons ((attributable_workReg src).map _) (.single (.ok _))
    | imm n => exact (attributable_workReg dest).require fun _ => .single ((attributable_imm8 n).map _)
  | load dest p =>
    exact (attributable_workReg dest).require fun _ => (attributable_pointer p).require fun _ =>
      .cons (.ok _) (.single (.ok _))
  | store p src =>
    cases src with
    | reg src =>
      exact (attributable_pointer p).require fun _ =>
        .cons ((attributable_workReg src).map _) (.single (.ok _))
    | imm n => exact (attributable_pointer p).require fun _ => .single ((attributable_imm8 n).map _)
  | binary op dest src =>
    cases op with
    | sub => exact attributable_throughA dest (.cons (.ok _) (.single (attributable_alu _ src)))
    | add | and | or | xor => exact attributable_throughA dest (.single (attributable_alu _ src))
  | product op dest src =>
    have load := attributable_movDirect registerB src
    cases op with
    | mul | div => exact attributable_throughA dest (.cons load (.single (.ok _)))
    | mod => exact attributable_throughA dest (.cons load (.cons (.ok _) (.single (.ok _))))
  | unary op dest =>
    cases op with
    | not => exact attributable_throughA dest (.single (.ok _))
    | neg => exact attributable_throughA dest (.cons (.ok _) (.single (.ok _)))
    | inc | dec => exact .single ((attributable_workReg dest).map _)
  | shift dir dest count =>
    refine (attributable_shiftCount _ count).require fun n => attributable_throughA dest ?_
    refine Each.append (fun step member => ?_) (.single (.ok _))
    rw [List.eq_of_mem_replicate member]
    exact .ok _
  | cmp left right =>
    exact .cons ((attributable_workReg left).map _)
      (.cons (.ok _) (.single (attributable_alu _ right)))
  | jmp target | call target => exact .single ((attributable_absolute symbols target).map _)
  | branch condition target => exact attributable_branch symbols offset condition target
  | ret | halt | nop => exact .single (.ok _)
  | push r | pop r => exact .single ((attributable_workReg r).map _)
  | int => exact .single (.error rfl)
  | set name src =>
    refine (symbols.attributable_resolveData name).require fun symbol => ?_
    cases symbol.kind with
    | buffer => exact .single (.error rfl)
    | label | var => exact .single (attributable_movDirect _ src)
  | get dest name =>
    refine (attributable_workReg dest).require fun _ =>
      (symbols.attributable_resolveData name).require fun symbol => ?_
    cases symbol.kind with
    | label | var | buffer => exact .single (.ok _)
  | bit op n =>
    cases op with
    | set | clear | complement => exact .single ((attributable_bitAddress n).map _)
  | bitBranch ifSet n target =>
    exact (attributable_bitAddress n).require fun _ =>
      .single ((attributable_relative symbols target _).map _)
  | djnz counter target =>
    exact (attributable_workReg counter).require fun _ =>
      .single ((attributable_relative symbols target _).map _)

theorem attributable_sizeOf (op : Operation) : Attributable (sizeOf op) := by
  intro fault unsized
  have refused := attributable_lower .empty 0 op
  rw [lower_of_unsized .empty 0 unsized] at refused
  exact refused _ List.mem_cons_self fault rfl

theorem Ram.allocator_external : Ram.allocator.External where
  var init ram fault left failed := by
    obtain ⟨rfl | rfl, _⟩ := var_eq_error failed <;> rfl
  buffer length ram fault left failed := by
    obtain ⟨rfl | rfl, _⟩ := buffer_eq_error failed <;> rfl

theorem Output.put_eq_error {i : Instr} {out after : Output} {fault : Fault}
    (failed : put memory i out = .error fault after) : fault = .outOfMemory := by
  obtain ⟨code, unextended⟩ := CodeView.exists_of_lift_eq_error failed
  exact CodeBuffer.extend_eq_error unextended

theorem emitter_external : (emitter memory).External := by
  refine emitter_padsWith.external attributable_sizeOf fun op pos out fault after failed => ?_
  exact external_of_putAll (attributable_lower _ _ op) (fun _ _ _ _ => Output.put_eq_error) failed

end CrossAsm.Mcs51
