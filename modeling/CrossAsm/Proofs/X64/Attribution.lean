import CrossAsm.Proofs.Attribution
import CrossAsm.Proofs.Relocation
import CrossAsm.Proofs.X64.Data
import CrossAsm.Proofs.X64.Emission

/-!
On x86-64 code is always as long as promised, so no fault of layout, emission or relocation is the
assembler's own.
-/
namespace CrossAsm

variable {memory : Memory}

namespace Relocation

variable {symbols : SymbolTable}

theorem attributable_displacement (r : Relocation) (symbols : SymbolTable) :
    Attributable (r.displacement symbols) := by
  have target : Attributable (r.target symbols) := by
    unfold Relocation.target
    cases r.reference with
    | code => exact symbols.attributable_resolveLabel r.name
    | data => exact (symbols.attributable_resolveData r.name).map _
  exact target.bind fun _ => .ite (.ok _) (.error rfl)

theorem attributable_resolveAll {code stopped : CodeBuffer} {relocations : List Relocation}
    {report : FaultAt} (failed : resolveAll symbols code relocations = .rejected stopped report) :
    report.fault.isInternal = false := by
  obtain ⟨r, _, _, found⟩ := exists_of_resolveAll_rejected failed
  exact r.attributable_displacement symbols _ found

end Relocation

namespace X64

theorem attributable_generalReg (r : Register) : Attributable (generalReg r) := by
  unfold generalReg
  dsimp only
  split
  · exact .ok _
  · exact .ite (.error rfl) (.error rfl)

theorem attributable_imm32 (n : Int64) : Attributable (imm32 n) :=
  (attributable_checkRange _ _ _).map _

theorem attributable_plan (dest : Register) (src : Operand) (remainder : Bool) :
    Attributable (Division.plan dest src remainder) := by
  refine (attributable_generalReg dest).bind fun d => ?_
  cases src with
  | reg r => exact ((attributable_generalReg r).map _).bind fun _ => .ite (.error rfl) (.ok _)
  | imm n => exact .bind (.ok none) fun _ => .ite (.error rfl) (.ok _)

theorem attributable_withOperand (dest : Register) (src : Operand)
    (reg : GeneralReg → GeneralReg → Instr) (imm : GeneralReg → Int32 → Instr) :
    Each Attributable (withOperand dest src reg imm) :=
  each_withOperand (fun fault failed => .error (attributable_generalReg dest fault failed))
    (fun _ r => ((attributable_generalReg r).map _).map _)
    (fun _ n => ((attributable_imm32 n).map _).map _)

theorem attributable_division (dest : Register) (src : Operand) (remainder : Bool) :
    Each Attributable (require (Division.plan dest src remainder) fun p => p.steps src) :=
  (attributable_plan dest src remainder).require fun _ =>
    each_division (fun _ _ _ _ => .ok _) (fun r => ((attributable_generalReg r).map _).map _)
      (fun n => ((attributable_imm32 n).map _).map _)

/-- What lowering refuses is refused for a reason that lies in the program. -/
theorem attributable_lower (symbols : SymbolTable) (op : Operation) :
    Each Attributable (lower symbols op) := by
  cases op with
  | label | var | buffer | org => exact .nil
  | mov | store | binary | cmp => exact attributable_withOperand _ _ _ _
  | load dest p =>
    exact .single (.map ((attributable_generalReg dest).bind fun _ =>
      (attributable_generalReg p).bind fun _ => .ok _) _)
  | product op dest src =>
    cases op with
    | mul => exact attributable_withOperand _ _ _ _
    | div | mod => exact attributable_division dest src _
  | unary op r | push r | pop r => exact .single (((attributable_generalReg _).map _).map _)
  | shift dir dest count =>
    exact .single (.map ((attributable_generalReg dest).bind fun _ =>
      (attributable_shiftCount _ count).bind fun _ => .ok _) _)
  | jmp | call | branch | ret | halt | nop => exact .single (.ok _)
  | int n => exact .single (((attributable_checkRange _ _ _).map _).map _)
  | set name src =>
    cases src with
    | reg r =>
      rw [lower]
      split
      · exact .single (.error rfl)
      · exact (attributable_generalReg r).require fun _ => .single (.ok _)
    | imm n =>
      rw [lower]
      split
      · exact .single (.error rfl)
      · exact (attributable_imm32 n).require fun _ => .single (.ok _)
  | get dest name =>
    refine (attributable_generalReg dest).require fun _ => ?_
    split
    · exact .single (.ok _)
    · exact .single (.ok _)
  | bit | bitBranch | djnz => exact .single (.error rfl)

theorem attributable_sizeOf (op : Operation) : Attributable (sizeOf op) := by
  cases op with
  | load dest p | store p src => exact (attributable_generalReg p).map _
  | product op dest src =>
    cases op with
    | mul => cases src <;> exact .ok _
    | div | mod => exact (attributable_plan dest src _).map _
  | shift dir dest count => exact (attributable_shiftCount _ count).map _
  | set name src => cases src <;> exact .ok _
  | bit | bitBranch | djnz => exact .error rfl
  | _ => exact .ok _

theorem Data.allocator_external : (Data.allocator memory).External where
  var init d fault left failed := by
    obtain ⟨rfl, _⟩ := var_eq_error failed
    rfl
  buffer length d fault left failed := by
    obtain ⟨⟨rfl, _⟩ | ⟨rfl, _⟩, _⟩ := buffer_eq_error failed <;> rfl

theorem Output.put_eq_error {pos : Position} {s : Step} {out after : Output} {fault : Fault}
    (failed : put memory pos s out = .error fault after) : fault = .outOfMemory := by
  unfold put at failed
  cases extended : CodeBuffer.extend memory s.instr.bytes out.code with
  | ok _ code => simp [extended] at failed
  | error reason code =>
    simp only [extended] at failed
    cases failed
    exact CodeBuffer.extend_eq_error extended

theorem emitter_external : (emitter memory).External := by
  refine emitter_padsWith.external attributable_sizeOf fun op pos out fault after failed => ?_
  exact external_of_putAll (attributable_lower _ op) (fun _ _ _ _ => Output.put_eq_error) failed

end X64

end CrossAsm
