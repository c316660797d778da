import Mathlib.Data.Set.Function
import CrossAsm.Proofs.Emission
import CrossAsm.Proofs.Generation
import CrossAsm.Proofs.Steps

/-!
Programs written down otherwise. A `Transcription` gives every name another name and every position
another position. Faults and symbol tables follow suit, and so do both passes: as long as no two names of
a program fall together, layout and emission of the transcribed program come to the transcript of what
they come to otherwise (`Layout.run_transcribed`, `Emitter.Transcribes.run`).
-/
namespace CrossAsm

variable {memory : Memory}

namespace Operation

/-- The name that an operation declares or refers to. -/
def mentions? : Operation → Option String
  | label name | var name _ | buffer name _ | set name _ | get _ name => some name
  | jmp target | call target | branch _ target | bitBranch _ _ target | djnz _ target => some target
  | _ => none

/-- The operation with another name in it. -/
def rename (f : String → String) : Operation → Operation
  | label name => label (f name)
  | var name init => var (f name) init
  | buffer name length => buffer (f name) length
  | set name src => set (f name) src
  | get dest name => get dest (f name)
  | jmp target => jmp (f target)
  | call target => call (f target)
  | branch condition target => branch condition (f target)
  | bitBranch ifSet address target => bitBranch ifSet address (f target)
  | djnz counter target => djnz counter (f target)
  | op => op

@[simp] theorem isCode_rename (f : String → String) (op : Operation) :
    (op.rename f).isCode = op.isCode := by cases op <;> rfl

@[simp] theorem name_rename (f : String → String) (op : Operation) : (op.rename f).name = op.name := by
  cases op <;> rfl

@[simp] theorem rename_id (op : Operation) : op.rename id = op := by cases op <;> rfl

end Operation

/-- The names that a program declares or refers to. -/
def mentioned (program : List Instruction) : List String := program.filterMap fun i => i.op.mentions?

/-- The fault, about the same thing under another name. -/
def AddressingFault.rename (f : String → String) : AddressingFault → AddressingFault
  | assignedBuffer name => assignedBuffer (f name)
  | notLabel name kind => notLabel (f name) kind
  | notData name => notData (f name)
  | fault => fault

@[inherit_doc AddressingFault.rename]
def Fault.rename (f : String → String) : Fault → Fault
  | duplicateSymbol name => duplicateSymbol (f name)
  | unresolvedSymbol name => unresolvedSymbol (f name)
  | branchOutOfRange target displacement low high => branchOutOfRange (f target) displacement low high
  | addressingMode fault => addressingMode (fault.rename f)
  | fault => fault

/-- A fault under another name is a fault of the same kind. -/
theorem Fault.ctorIdx_rename (f : String → String) (fault : Fault) :
    (fault.rename f).ctorIdx = fault.ctorIdx := by cases fault <;> rfl

@[simp] theorem Fault.rename_id (fault : Fault) : fault.rename id = fault := by
  cases fault with
  | addressingMode fault => cases fault <;> rfl
  | _ => rfl

/-- How a program is written down otherwise. -/
structure Transcription where
  name : String → String
  place : Position → Position
  /-- What belongs to no instruction goes on to belong to none. -/
  nowhere : place .nowhere = .nowhere

namespace Transcription

/-- Other names and the same positions. -/
def ofNames (f : String → String) : Transcription := ⟨f, id, rfl⟩

def instruction (T : Transcription) (i : Instruction) : Instruction :=
  ⟨i.op.rename T.name, T.place i.pos⟩

def report (T : Transcription) (f : FaultAt) : FaultAt := ⟨T.place f.pos, f.fault.rename T.name⟩

end Transcription

section Checks

variable {α β ι : Type} (f : String → String)

/-- A checked value, whose fault is about the same thing under another name. -/
def renameFault : Except Fault α → Except Fault α
  | .ok a => .ok a
  | .error fault => .error (fault.rename f)

@[simp] theorem renameFault_ok (a : α) : renameFault f (.ok a) = .ok a := rfl

@[simp] theorem renameFault_error (fault : Fault) :
    renameFault f (.error fault : Except Fault α) = .error (fault.rename f) := rfl

@[simp] theorem renameFault_pure (a : α) : renameFault f (pure a) = pure a := rfl

@[simp] theorem renameFault_throw (fault : Fault) :
    renameFault f (throw fault : Except Fault α) = throw (fault.rename f) := rfl

@[simp] theorem renameFault_map (value : Except Fault α) (g : α → β) :
    renameFault f (value.map g) = (renameFault f value).map g := by
  cases value <;> rfl

@[simp] theorem renameFault_functor_map (value : Except Fault α) (g : α → β) :
    renameFault f (g <$> value) = g <$> renameFault f value := renameFault_map f value g

@[simp] theorem renameFault_bind (first : Except Fault α) (second : α → Except Fault β) :
    renameFault f (first >>= second) = renameFault f first >>= fun a => renameFault f (second a) := by
  cases first <;> rfl

theorem renameFault_ite (condition : Prop) [Decidable condition] (yes no : Except Fault α) :
    renameFault f (if condition then yes else no) =
      if condition then renameFault f yes else renameFault f no := by
  split <;> rfl

@[simp] theorem renameFault_checkRange (value low high : Int) :
    renameFault f (checkRange value low high) = checkRange value low high := by
  rw [checkRange, renameFault_ite]
  rfl

@[simp] theorem renameFault_shiftCount (arch : Arch) (count : Operand) :
    renameFault f (shiftCount arch count) = shiftCount arch count := by
  cases count with
  | reg r => rfl
  | imm n => rw [shiftCount, renameFault_map, renameFault_checkRange]

@[simp] theorem map_renameFault_require (value : Except Fault α)
    (steps : α → List (Except Fault ι)) :
    (require value steps).map (renameFault f) =
      require (renameFault f value) fun a => (steps a).map (renameFault f) := by
  cases value <;> rfl

end Checks

/-- Both results are successes that `R` relates, or the second is a failure for the reason of the first
under another name. -/
inductive Corresponds {σ τ : Type} (f : String → String) (R : σ → τ → Prop) :
    EStateM.Result Fault σ Unit → EStateM.Result Fault τ Unit → Prop
  | ok {s : σ} {s' : τ} (related : R s s') : Corresponds f R (.ok () s) (.ok () s')
  | error {s : σ} {s' : τ} (fault : Fault) :
    Corresponds f R (.error fault s) (.error (fault.rename f) s')

theorem Corresponds.error_of_nameless {σ τ : Type} {f : String → String} {R : σ → τ → Prop} {s : σ}
    {s' : τ} {fault : Fault} (nameless : fault.rename f = fault) :
    Corresponds f R (.error fault s) (.error fault s') := by
  have corresponds : Corresponds f R (.error fault s) (.error (fault.rename f) s') := .error fault
  rwa [nameless] at corresponds

namespace SymbolTable

/-- The table with other names in it. -/
def rename (f : String → String) (t : SymbolTable) : SymbolTable :=
  ⟨t.entries.map fun entry => (f entry.1, entry.2)⟩

/-- All names in the table are among the given ones. -/
def Within (t : SymbolTable) (names : Set String) : Prop := ∀ entry ∈ t.entries, entry.1 ∈ names

/-- A name is found under its new name, if no other name falls together with it. -/
theorem get?_rename {t : SymbolTable} {f : String → String} {names : Set String} {name : String}
    (injective : Set.InjOn f names) (within : t.Within names) (among : name ∈ names) :
    (t.rename f).get? (f name) = t.get? name := by
  obtain ⟨entries⟩ := t
  unfold get? rename
  induction entries with
  | nil => rfl
  | cons entry rest ih =>
    obtain ⟨key, symbol⟩ := entry
    obtain ⟨first, later⟩ := List.forall_mem_cons.mp within
    have same : (f name == f key) = (name == key) := by
      rw [Bool.eq_iff_iff, beq_iff_eq, beq_iff_eq]
      exact injective.eq_iff among first
    simp only [List.map_cons, List.lookup_cons, same]
    cases name == key with
    | true => rfl
    | false => exact ih later

section Look

variable {t u : SymbolTable} {f : String → String} {name : String}
  (known : u.get? (f name) = t.get? name)
include known

theorem resolve_rename : u.resolve (f name) = renameFault f (t.resolve name) := by
  unfold resolve
  rw [known]
  cases t.get? name <;> rfl

theorem resolveLabel_rename : u.resolveLabel (f name) = renameFault f (t.resolveLabel name) := by
  unfold resolveLabel
  rw [renameFault_bind, resolve_rename known]
  congr 1
  funext symbol
  rw [renameFault_ite]
  rfl

theorem resolveData_rename : u.resolveData (f name) = renameFault f (t.resolveData name) := by
  unfold resolveData
  rw [renameFault_bind, resolve_rename known]
  congr 1
  funext symbol
  rw [renameFault_ite]
  rfl

end Look

theorem add_rename (t : SymbolTable) (f : String → String) (name : String) (symbol : Symbol) :
    (t.rename f).add (f name) symbol = (t.add name symbol).rename f := by
  simp [add, rename]

end SymbolTable

/-- Sizes do not look at names, and where there is no size the fault is about none. -/
def Nameless (sizeOf : Operation → Except Fault Nat) : Prop :=
  ∀ f op, sizeOf (op.rename f) = renameFault f (sizeOf op)

/-- What is wrong with storage is not about any name. -/
structure Allocator.Nameless {σ : Type} (allocator : Allocator σ) : Prop where
  var : ∀ f init storage fault left, allocator.var init storage = .error fault left →
    fault.rename f = fault
  buffer : ∀ f length storage fault left, allocator.buffer length storage = .error fault left →
    fault.rename f = fault

namespace Layout

variable {σ : Type} {sizer : Sizer} {allocator : Allocator σ} {l : Layout σ} {f : String → String}

/-- The layout with other names in its table. -/
def rename (f : String → String) (l : Layout σ) : Layout σ := { l with symbols := l.symbols.rename f }

section Declaration

variable {name : String} (known : (l.symbols.rename f).get? (f name) = l.symbols.get? name)
include known

theorem define_rename (symbol : Symbol) :
    Corresponds f (fun l l' => l' = rename f l) (define name symbol l)
      (define (f name) symbol (l.rename f)) := by
  by_cases fresh : l.symbols.get? name = none
  · rw [define_eq_ok_iff.mpr ⟨fresh, rfl⟩, define_eq_ok_iff.mpr ⟨known.trans fresh, rfl⟩]
    exact .ok (by simp only [rename, SymbolTable.add_rename])
  · have first : define name symbol l = .error (.duplicateSymbol name) l := by
      rw [define, SymbolTable.define_eq_error_iff.mpr ⟨fresh, rfl, rfl⟩]
    have second : define (f name) symbol (l.rename f) =
        .error (.duplicateSymbol (f name)) (l.rename f) := by
      rw [define, SymbolTable.define_eq_error_iff.mpr ⟨known ▸ fresh, rfl, rfl⟩]
    rw [first, second]
    exact .error (.duplicateSymbol name)

/-- Declaring storage under another name. -/
theorem declare_rename {reserve : EStateM Fault σ Nat}
    (nameless : ∀ fault left, reserve l.storage = .error fault left → fault.rename f = fault)
    (kind : SymbolKind) :
    Corresponds f (fun l l' => l' = rename f l) (declare name kind reserve l)
      (declare (f name) kind reserve (l.rename f)) := by
  unfold declare
  by_cases fresh : l.symbols.get? name = none
  · rw [SymbolTable.ensureUndefined_of_fresh fresh,
      SymbolTable.ensureUndefined_of_fresh (t := (l.rename f).symbols) (known.trans fresh)]
    dsimp only [rename]
    cases reserved : reserve l.storage with
    | error fault storage =>
      exact .error_of_nameless (nameless fault storage reserved)
    | ok address storage => exact define_rename (l := { l with storage }) known ⟨kind, address⟩
  · rw [SymbolTable.ensureUndefined_of_known fresh,
      SymbolTable.ensureUndefined_of_known (t := (l.rename f).symbols) (known ▸ fresh)]
    exact .error (.duplicateSymbol name)

end Declaration

section Step

variable {op : Operation} (sizes : Nameless sizer.sizeOf) (storages : allocator.Nameless)
  (known : ∀ name, op.mentions? = some name →
    (l.symbols.rename f).get? (f name) = l.symbols.get? name)
include sizes storages known

theorem place_rename :
    Corresponds f (fun l l' => l' = rename f l) (place sizer allocator op l)
      (place sizer allocator (op.rename f) (l.rename f)) := by
  by_cases isCode : op.isCode
  · rw [place_of_isCode isCode, place_of_isCode ((op.isCode_rename f).trans isCode), sizes]
    cases sizer.sizeOf op with
    | error fault => exact .error fault
    | ok size => exact .ok rfl
  · cases op with
    | label name => exact define_rename (known name rfl) _
    | var name init => exact declare_rename (known name rfl) (storages.var f init l.storage) .var
    | buffer name length =>
      exact declare_rename (known name rfl) (storages.buffer f length l.storage) .buffer
    | org address =>
      change Corresponds f _ (if address.toInt < l.pc then _ else _)
        (if address.toInt < l.pc then _ else _)
      split
      · exact .error (.addressBackwards _ _)
      · exact .ok rfl
    | _ => exact absurd rfl isCode

theorem step_rename :
    Corresponds f (fun l l' => l' = rename f l) (step sizer allocator op l)
      (step sizer allocator (op.rename f) (l.rename f)) := by
  have placed := place_rename sizes storages known
  unfold step
  generalize place sizer allocator op l = result at placed
  generalize place sizer allocator (op.rename f) (l.rename f) = result' at placed
  cases placed with
  | error fault => exact .error fault
  | @ok next _ renamed =>
    subst renamed
    cases sizer.addressSpace with
    | none => exact .ok rfl
    | some available =>
      change Corresponds f _ (if available < next.pc then _ else _)
        (if available < next.pc then _ else _)
      split
      · exact .error (.storageExhausted _ _ _)
      · exact .ok rfl

end Step

theorem Placed.within {op : Operation} {next : Layout σ} {names : Set String}
    (placed : Placed sizer allocator l op next) (within : l.symbols.Within names)
    (mentions : ∀ name, op.mentions? = some name → name ∈ names) : next.symbols.Within names := by
  have added (name : String) (symbol : Symbol) (among : name ∈ names) :
      (l.symbols.add name symbol).Within names :=
    List.forall_mem_append.mpr ⟨within, List.forall_mem_singleton.mpr among⟩
  cases placed with
  | label | var | buffer => exact added _ _ (mentions _ rfl)
  | org | code => exact within

/-- Of two layouts, the second is the transcript of the first, which knows only names of the program. -/
def Transcribed (T : Transcription) (program : List Instruction)
    (layout layout' : Layout σ × Option FaultAt) : Prop :=
  layout'.2 = layout.2.map T.report ∧
    (layout.2 = none →
      layout'.1 = layout.1.rename T.name ∧ layout.1.symbols.Within {name | name ∈ mentioned program})

/-- The layout of a transcribed program. -/
theorem run_transcribed {T : Transcription} {program : List Instruction} {storage : σ}
    (sizes : Nameless sizer.sizeOf) (storages : allocator.Nameless)
    (injective : Set.InjOn T.name {name | name ∈ mentioned program}) :
    Transcribed T program (run sizer allocator { storage } program)
      (run sizer allocator { storage } (program.map T.instruction)) := by
  simp only [Transcribed, ← pass_run]
  refine Pass.run_related
    (R := fun (a b : Layout σ) =>
      b = a.rename T.name ∧ a.symbols.Within {name | name ∈ mentioned program})
    (fun _ => rfl) ?_ ⟨rfl, List.forall_mem_nil _⟩
  rintro i member a _ ⟨rfl, within⟩
  have among (name : String) (found : i.op.mentions? = some name) : name ∈ mentioned program :=
    List.mem_filterMap.mpr ⟨i, member, found⟩
  have stepped := step_rename (l := a) sizes storages fun name found =>
    SymbolTable.get?_rename injective within (among name found)
  simp only [pass, Transcription.instruction]
  generalize step sizer allocator (i.op.rename T.name) (a.rename T.name) = result' at stepped
  cases placed : step sizer allocator i.op a with
  | error fault left =>
    rw [placed] at stepped
    cases stepped
    exact ⟨rfl, fun passed => by cases passed⟩
  | ok _ next =>
    rw [placed] at stepped
    cases stepped with
    | ok renamed =>
      exact ⟨rfl, fun _ => ⟨renamed, (step_eq_ok_iff.mp placed).1.within within among⟩⟩

end Layout

section Emission

variable {σ τ ι κ : Type}

variable {f : String → String} {R : σ → τ → Prop} {s : σ} {s' : τ}

theorem Corresponds.putAll {put : ι → EStateM Fault σ Unit} {put' : κ → EStateM Fault τ Unit}
    {g : ι → κ} (puts : ∀ i s s', R s s' → Corresponds f R (put i s) (put' (g i) s'))
    (steps : List (Except Fault ι)) (related : R s s') :
    Corresponds f R (putAll put steps s)
      (putAll put' (steps.map fun step => (renameFault f step).map g) s') := by
  induction steps generalizing s s' with
  | nil => exact .ok related
  | cons step rest ih =>
    cases step with
    | error fault => exact .error fault
    | ok i =>
      have first := puts i s s' related
      change Corresponds f R (EStateM.bind (put i) (fun _ => CrossAsm.putAll put rest) s)
        (EStateM.bind (put' (g i)) (fun _ => CrossAsm.putAll put' _) s')
      unfold EStateM.bind
      generalize put i s = result at first
      generalize put' (g i) s' = result' at first
      cases first with
      | ok related => exact ih related
      | error fault => exact .error fault

/-- What is done to the same code in related states fails for the same reason, if at all. -/
theorem Corresponds.lift {v : CodeView σ} {w : CodeView τ} {act : EStateM Fault CodeBuffer Unit}
    (same : w.code s' = v.code s) (kept : ∀ code, R (v.withCode s code) (w.withCode s' code))
    (nameless : ∀ code fault left, act code = .error fault left → fault.rename f = fault) :
    Corresponds f R (v.lift act s) (w.lift act s') := by
  unfold CodeView.lift
  rw [same]
  cases done : act (v.code s) with
  | ok _ code => exact .ok (kept code)
  | error fault left => exact .error_of_nameless (nameless _ _ _ done)

namespace Emitter

variable {e : Emitter σ} {R : σ → σ → Prop} {T : Transcription} {program : List Instruction} {s s' : σ}

/-- On related states, the emitter does the same for the instructions of a program and for those of
its transcript. -/
structure Transcribes (e : Emitter σ) (T : Transcription) (R : σ → σ → Prop)
    (program : List Instruction) : Prop where
  sizes : Nameless e.sizeOf
  offset : ∀ s s', R s s' → e.offset s' = e.offset s
  emit : ∀ i ∈ program, ∀ s s', R s s' → Corresponds T.name R (e.emit i.op i.pos s)
    (e.emit (i.op.rename T.name) (T.place i.pos) s')
  pad : ∀ count s s', R s s' → Corresponds T.name R (e.pad count s) (e.pad count s')

theorem PadsWith.corresponds {memory : Memory} {v : CodeView σ} {byte : UInt8}
    (pads : e.PadsWith memory v byte) (f : String → String) (same : v.code s' = v.code s)
    (kept : ∀ code, R (v.withCode s code) (v.withCode s' code)) (count : Nat) :
    Corresponds f R (e.pad count s) (e.pad count s') := by
  rw [pads.pad]
  refine .lift same kept fun code fault left failed => ?_
  rw [CodeBuffer.fill_eq_error failed]
  rfl

theorem Transcribes.emitOne (transcribes : e.Transcribes T R program) {i : Instruction}
    (member : i ∈ program) (related : R s s') :
    Corresponds T.name R (e.emitOne i s) (e.emitOne (T.instruction i) s') := by
  have offset := transcribes.offset s s' related
  by_cases isCode : i.op.isCode
  · rw [emitOne_of_isCode isCode, emitOne_of_isCode ((i.op.isCode_rename T.name).trans isCode)]
    have emitted := transcribes.emit i member s s' related
    simp only [Transcription.instruction, transcribes.sizes T.name i.op, Operation.name_rename]
    cases e.sizeOf i.op with
    | error fault => exact .error fault
    | ok size =>
      simp only [renameFault_ok]
      generalize e.emit i.op i.pos s = result at emitted ⊢
      generalize e.emit (i.op.rename T.name) (T.place i.pos) s' = result' at emitted ⊢
      cases emitted with
      | error fault => exact .error fault
      | @ok after after' reached =>
        simp only [offset, transcribes.offset after after' reached]
        split
        · exact .ok reached
        · exact .error (.sizeMismatch _ _ _)
  · obtain ⟨op, pos⟩ := i
    cases op with
    | label | var | buffer => exact .ok related
    | org address =>
      change Corresponds T.name R (e.pad _ s) (e.pad (address.toUInt64.toNat - e.offset s') s')
      rw [offset]
      exact transcribes.pad _ s s' related
    | _ => exact absurd rfl isCode

/-- The emission of a transcribed program. -/
theorem Transcribes.run (transcribes : e.Transcribes T R program) (related : R s s') :
    (e.run s' (program.map T.instruction)).2 = (e.run s program).2.map T.report ∧
      ((e.run s program).2 = none → R (e.run s program).1 (e.run s' (program.map T.instruction)).1) := by
  simp only [← pass_run]
  refine Pass.run_related (fun _ => rfl) ?_ related
  intro i member s s' related
  have emitted := transcribes.emitOne member related
  unfold pass
  generalize e.emitOne i s = result at emitted ⊢
  generalize e.emitOne (T.instruction i) s' = result' at emitted ⊢
  cases emitted with
  | ok reached => exact ⟨rfl, fun _ => reached⟩
  | error fault => exact ⟨rfl, fun passed => by cases passed⟩

end Emitter

end Emission

/-- The image with other names in its symbol table. -/
def Image.rename (f : String → String) (image : Image) : Image :=
  { image with symbols := image.symbols.rename f }

/-- What generation comes to for a program, written down otherwise. -/
def Transcription.outcome (T : Transcription) :
    Except GenerationFailure Image → Except GenerationFailure Image
  | .ok image => .ok (image.rename T.name)
  | .error (.rejected report) => .error (.rejected (T.report report))
  | .error .misplacedRelocation => .error .misplacedRelocation

/-- Whether there is memory depends on neither names nor positions. -/
theorem Transcription.outcome_imageBuffer (T : Transcription) {capacity : Nat}
    {failure : GenerationFailure} (failed : imageBuffer memory capacity = .error failure) :
    T.outcome (.error failure) = .error failure := by
  rw [imageBuffer_eq_error failed]
  change Except.error (GenerationFailure.rejected ⟨T.place .nowhere, _⟩) = _
  rw [T.nowhere]
  rfl

end CrossAsm
