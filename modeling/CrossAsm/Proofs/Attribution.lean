import CrossAsm.Proofs.Refusal
import CrossAsm.Proofs.Steps

/-!
Whose fault a fault is. All faults but one are reasons to be given to the author of a program; the one
left says that code was not as long as promised, for which only the assembler is to blame. A check, a
step or a pass is `Attributable` if it never fails for that reason. Layout is, if sizes and storage
are; emission is, if moreover all code is as long as promised.
-/
namespace CrossAsm

/-- Whether a fault is the assembler's own. -/
def Fault.isInternal : Fault → Bool
  | sizeMismatch _ _ _ => true
  | _ => false

/-- The value, or a fault that is not the assembler's own. -/
def Attributable {α : Type} (value : Except Fault α) : Prop :=
  ∀ fault, value = .error fault → fault.isInternal = false

namespace Attributable

variable {α β ι : Type}

theorem ok (a : α) : Attributable (.ok a : Except Fault α) := by
  intro fault failed
  cases failed

theorem error {fault : Fault} (external : fault.isInternal = false) :
    Attributable (.error fault : Except Fault α) := by
  intro other same
  cases same
  exact external

theorem map {value : Except Fault α} (attributable : Attributable value) (f : α → β) :
    Attributable (value.map f) := by
  cases value with
  | ok a => exact ok (f a)
  | error fault => exact error (attributable fault rfl)

theorem bind {first : Except Fault α} {second : α → Except Fault β}
    (attributable : Attributable first) (next : ∀ a, Attributable (second a)) :
    Attributable (first >>= second) := by
  cases first with
  | ok a => exact next a
  | error fault => exact error (attributable fault rfl)

theorem ite {condition : Prop} [Decidable condition] {yes no : Except Fault α}
    (first : Attributable yes) (second : Attributable no) :
    Attributable (if condition then yes else no) := by
  split
  · exact first
  · exact second

theorem require {value : Except Fault α} {steps : α → List (Except Fault ι)}
    (attributable : Attributable value) (met : ∀ a, Each Attributable (steps a)) :
    Each Attributable (require value steps) :=
  .require (fun fault failed => error (attributable fault failed)) fun a _ => met a

end Attributable

theorem attributable_checkRange (value low high : Int) :
    Attributable (checkRange value low high) :=
  .ite (.ok _) (.error rfl)

theorem attributable_shiftCount (arch : Arch) (count : Operand) :
    Attributable (shiftCount arch count) := by
  cases count with
  | reg r => exact .error rfl
  | imm n => exact (attributable_checkRange _ _ _).map _

namespace SymbolTable

variable (t : SymbolTable) (name : String)

theorem attributable_resolve : Attributable (t.resolve name) := by
  unfold resolve
  cases t.get? name with
  | some symbol => exact .ok symbol
  | none => exact .error rfl

theorem attributable_resolveLabel : Attributable (t.resolveLabel name) :=
  (t.attributable_resolve name).bind fun _ => .ite (.ok _) (.error rfl)

theorem attributable_resolveData : Attributable (t.resolveData name) :=
  (t.attributable_resolve name).bind fun _ => .ite (.ok _) (.error rfl)

end SymbolTable

/-- Storage is refused for reasons of the program only. -/
structure Allocator.External {σ : Type} (a : Allocator σ) : Prop where
  var : ∀ init storage fault left, a.var init storage = .error fault left → fault.isInternal = false
  buffer : ∀ length storage fault left, a.buffer length storage = .error fault left →
    fault.isInternal = false

namespace Layout

variable {σ : Type} {sizer : Sizer} {allocator : Allocator σ}
  (sizes : ∀ op, Attributable (sizer.sizeOf op)) (storages : allocator.External)
include sizes storages

theorem Refused.external {l : Layout σ} {op : Operation} {fault : Fault}
    (refused : Refused sizer allocator l op fault) : fault.isInternal = false := by
  cases refused with
  | known | backwards | beyond => rfl
  | var failed => exact storages.var _ _ _ _ failed
  | buffer failed => exact storages.buffer _ _ _ _ failed
  | unsized _ unsized => exact sizes op fault unsized

theorem attributable_run {l : Layout σ} {program : List Instruction} {report : FaultAt}
    (failed : (run sizer allocator l program).2 = some report) :
    report.fault.isInternal = false := by
  obtain ⟨index, i, left, _, _, _, stopped⟩ := fault_of_run failed
  exact (refused_of_step stopped).external sizes storages

end Layout

/-- Steps that are attributable, put where only memory can be short, fail for no other reasons. -/
theorem external_of_putAll {σ ι : Type} {put : ι → EStateM Fault σ Unit} {steps : List (Except Fault ι)}
    {s after : σ} {fault : Fault} (each : Each Attributable steps)
    (puts : ∀ i s fault after, put i s = .error fault after → fault = .outOfMemory)
    (failed : putAll put steps s = .error fault after) : fault.isInternal = false := by
  obtain refused | ⟨i, earlier, later, stopped⟩ := putAll_eq_error failed
  · exact each _ refused fault rfl
  · rw [puts i earlier fault later stopped]
    rfl

/-- Operations are refused by an emitter for reasons of the program only, or for want of memory. -/
structure Emitter.External {σ : Type} (e : Emitter σ) : Prop where
  sizeOf : ∀ op, Attributable (e.sizeOf op)
  emit : ∀ op pos s fault after, e.emit op pos s = .error fault after → fault.isInternal = false
  pad : ∀ count s fault after, e.pad count s = .error fault after → fault.isInternal = false

theorem Emitter.PadsWith.external {σ : Type} {e : Emitter σ} {memory : Memory} {v : CodeView σ}
    {byte : UInt8} (pads : e.PadsWith memory v byte) (sizes : ∀ op, Attributable (e.sizeOf op))
    (emits : ∀ op pos s fault after, e.emit op pos s = .error fault after → fault.isInternal = false) :
    e.External where
  sizeOf := sizes
  emit := emits
  pad count s fault after failed := by
    rw [pads.pad_eq_error failed]
    rfl

namespace Emitter.Appends

variable {σ : Type} {e : Emitter σ} {symbols : σ → SymbolTable} {code : σ → CodeBuffer}
  (appends : e.Appends symbols code) (external : e.External)
include appends external

theorem attributable_emitOne {i : Instruction} {s after : σ} {fault : Fault}
    (failed : e.emitOne i s = .error fault after) : fault.isInternal = false := by
  obtain ⟨address, _, unpadded⟩ | ⟨_, unsized | unemitted⟩ := appends.emitOne_eq_error failed
  · exact external.pad _ _ _ _ unpadded
  · exact external.sizeOf i.op fault unsized
  · exact external.emit i.op i.pos s fault after unemitted

theorem attributable_run {s : σ} {program : List Instruction} {report : FaultAt}
    (failed : (e.run s program).2 = some report) : report.fault.isInternal = false := by
  obtain ⟨index, i, after, _, _, _, stopped⟩ := fault_of_run failed
  exact appends.attributable_emitOne external stopped

end Emitter.Appends

end CrossAsm
