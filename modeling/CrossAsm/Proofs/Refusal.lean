import CrossAsm.Proofs.Declarations
import CrossAsm.Proofs.PassAgreement

/-!
Why programs are refused. `Layout.Refused` has one rule for each way in which layout fails at an
operation; up to there the layout is `Reached`, as the program itself tells. After a layout that
succeeds, emission fails only at an operation whose code cannot be given, as long as there is memory for
all of it (`Emitter.Gives.refused_of_run`).
-/
namespace CrossAsm

/-- What a machine asks of every instruction, given its place in the program: it declares no name again,
and an `org` does not go back, so its address is not negative either. -/
structure Placeable (sizer : Sizer) (program : List Instruction) (index : Nat) (op : Operation) :
    Prop where
  fresh : ∀ name, op.declares? = some name → ∀ earlier < index, ∀ i, program[earlier]? = some i →
    i.op.declares? ≠ some name
  forward : ∀ address, op = .org address → (sizer.counterAt program index : Int) ≤ address.toInt

namespace Layout

variable {σ : Type} {sizer : Sizer} {allocator : Allocator σ} {l left : Layout σ} {op : Operation}
  {fault : Fault}

/-- Why an operation cannot be laid out. -/
inductive Refused (sizer : Sizer) (allocator : Allocator σ) (l : Layout σ) : Operation → Fault → Prop
  | known {op : Operation} {name : String} (declares : op.declares? = some name)
      (known : l.symbols.get? name ≠ none) : Refused sizer allocator l op (.duplicateSymbol name)
  | var {name : String} {init : Option Int64} {fault : Fault}
      {left : σ} (failed : allocator.var init l.storage = .error fault left) :
    Refused sizer allocator l (.var name init) fault
  | buffer {name : String} {length : Int64} {fault : Fault}
      {left : σ} (failed : allocator.buffer length l.storage = .error fault left) :
    Refused sizer allocator l (.buffer name length) fault
  | backwards {address : Int64} (back : address.toInt < l.pc) :
    Refused sizer allocator l (.org address) (.addressBackwards address.toInt l.pc)
  | unsized {op : Operation} {fault : Fault} (isCode : op.isCode)
      (unsized : sizer.sizeOf op = .error fault) : Refused sizer allocator l op fault
  | beyond {op : Operation} {next : Layout σ} {available : Nat}
      (placed : Placed sizer allocator l op next) (space : sizer.addressSpace = some available)
      (past : available < next.pc) :
    Refused sizer allocator l op (.storageExhausted "program memory" next.pc available)

theorem define_eq_error {name : String} {symbol : Symbol}
    (failed : define name symbol l = .error fault left) :
    fault = .duplicateSymbol name ∧ l.symbols.get? name ≠ none := by
  unfold define at failed
  cases defined : SymbolTable.define name symbol l.symbols with
  | ok _ symbols =>
    rw [defined] at failed
    cases failed
  | error reason symbols =>
    rw [defined] at failed
    cases failed
    obtain ⟨known, rfl, _⟩ := SymbolTable.define_eq_error_iff.mp defined
    exact ⟨rfl, known⟩

/-- A declaration fails because the name is in use or because there is no storage for it. -/
theorem declare_eq_error {name : String} {kind : SymbolKind} {reserve : EStateM Fault σ Nat}
    (failed : declare name kind reserve l = .error fault left) :
    (fault = .duplicateSymbol name ∧ l.symbols.get? name ≠ none) ∨
      ∃ storage, reserve l.storage = .error fault storage := by
  unfold declare at failed
  by_cases fresh : l.symbols.get? name = none
  · rw [SymbolTable.ensureUndefined_of_fresh fresh] at failed
    cases reserved : reserve l.storage with
    | ok address storage =>
      rw [reserved] at failed
      exact .inl (define_eq_error (l := { l with storage }) failed)
    | error reason storage =>
      rw [reserved] at failed
      cases failed
      exact .inr ⟨storage, rfl⟩
  · rw [SymbolTable.ensureUndefined_of_known fresh] at failed
    cases failed
    exact .inl ⟨rfl, fresh⟩

theorem refused_of_place (failed : place sizer allocator op l = .error fault left) :
    Refused sizer allocator l op fault := by
  by_cases isCode : op.isCode
  · rw [place_of_isCode isCode] at failed
    split at failed
    next reason unsized =>
      cases failed
      exact .unsized isCode unsized
    next => cases failed
  · cases op with
    | label name =>
      obtain ⟨rfl, known⟩ := define_eq_error failed
      exact .known rfl known
    | var name init =>
      obtain ⟨rfl, known⟩ | ⟨storage, failed⟩ := declare_eq_error failed
      · exact .known rfl known
      · exact .var failed
    | buffer name length =>
      obtain ⟨rfl, known⟩ | ⟨storage, failed⟩ := declare_eq_error failed
      · exact .known rfl known
      · exact .buffer failed
    | org address =>
      simp only [place] at failed
      split at failed
      next back =>
        cases failed
        exact .backwards back
      next => cases failed
    | _ => exact absurd rfl isCode

theorem refused_of_step (failed : step sizer allocator op l = .error fault left) :
    Refused sizer allocator l op fault := by
  unfold step at failed
  cases placed : place sizer allocator op l with
  | error reason state =>
    rw [placed] at failed
    cases failed
    exact refused_of_place placed
  | ok _ next =>
    cases space : sizer.addressSpace with
    | none =>
      rw [placed, space] at failed
      cases failed
    | some available =>
      rw [placed, space] at failed
      dsimp only at failed
      split at failed
      next past =>
        cases failed
        exact .beyond (place_eq_ok_iff.mp placed) space past
      next => cases failed

section Reached

variable {base word : Nat} {holds : σ → List UInt8 → Prop} {value : Option Int64 → List UInt8}
  {storage : σ} {program : List Instruction} {index : Nat}

/-- A layout that has come to the instruction at `index`, in terms of the program. -/
structure Reached (sizer : Sizer) (value : Option Int64 → List UInt8) (holds : σ → List UInt8 → Prop)
    (program : List Instruction) (index : Nat) (l : Layout σ) : Prop where
  counter : l.pc = sizer.counterAt program index
  /-- The names in the table are those declared before. -/
  fresh : ∀ name, l.symbols.get? name = none ↔ ∀ earlier < index, ∀ i, program[earlier]? = some i →
    i.op.declares? ≠ some name
  stored : holds l.storage ((program.take index).flatMap fun i => i.op.initial value)

theorem reached_before (consecutive : allocator.Consecutive base word holds value)
    (empty : holds storage []) (within : index ≤ program.length)
    (laid : (run sizer allocator { storage } (program.take index)).2 = none) :
    Reached sizer value holds program index
      (before sizer allocator { storage } program index) := by
  have length : (program.take index).length = index := List.length_take_of_le within
  refine ⟨?_, ?_, ?_⟩
  · rw [before, pc_run laid, length, sizer.counterAt_take _ (Nat.le_refl _)]
  · intro name
    have table (symbol : Symbol) :
        (before sizer allocator { storage } program index).symbols.get? name = some symbol ↔ _ :=
      lists_run consecutive laid empty name symbol
    constructor
    · intro unknown earlier order i present declares
      have among : (program.take index)[earlier]? = some i := by
        rw [List.getElem?_take_of_lt order, present]
      obtain ⟨symbol, declared⟩ := symbolAt?_of_declares? sizer base word (program.take index) earlier
        declares
      rw [(table symbol).mpr ⟨earlier, i, among, declared⟩] at unknown
      cases unknown
    · intro undeclared
      cases known : (before sizer allocator { storage } program index).symbols.get? name with
      | none => rfl
      | some symbol =>
        obtain ⟨earlier, i, among, declared⟩ := (table symbol).mp known
        have order : earlier < index := length ▸ (List.getElem?_eq_some_iff.mp among).1
        rw [List.getElem?_take_of_lt order] at among
        exact absurd (declares?_of_symbolAt? declared) (undeclared earlier order i among)
  · exact holds_run consecutive laid empty

theorem reached_of_laid (consecutive : allocator.Consecutive base word holds value)
    (empty : holds storage []) (laid : (run sizer allocator { storage } program).2 = none)
    (within : index ≤ program.length) :
    Reached sizer value holds program index
      (before sizer allocator { storage } program index) := by
  refine reached_before consecutive empty within ?_
  rw [← pass_run] at laid ⊢
  exact congrArg Prod.snd (Pass.run_take laid index)

/-- What has been laid out could be placed. -/
theorem Reached.placeable (reached : Reached sizer value holds program index l)
    {next : Layout σ} (placed : Placed sizer allocator l op next) :
    Placeable sizer program index op := by
  refine ⟨?_, ?_⟩
  · intro name declares
    rw [← reached.fresh]
    cases placed with
    | label fresh | var fresh | buffer fresh =>
      cases declares
      exact fresh
    | org => cases declares
    | code isCode =>
      cases op with
      | label | var | buffer | org => cases isCode
      | _ => cases declares
  · rintro address rfl
    rw [← reached.counter]
    cases placed with
    | org forward => exact forward
    | code isCode => cases isCode

/-- Where no name is declared again and no `org` goes back, an operation is refused because of its
storage or its size. -/
theorem Refused.cases_of_placeable (refused : Refused sizer allocator l op fault)
    (reached : Reached sizer value holds program index l)
    (placeable : Placeable sizer program index op) :
    (∃ name init left, op = .var name init ∧ allocator.var init l.storage = .error fault left) ∨
    (∃ name length left, op = .buffer name length ∧
      allocator.buffer length l.storage = .error fault left) ∨
    (op.isCode ∧ sizer.sizeOf op = .error fault) ∨
    ∃ available, sizer.addressSpace = some available ∧
      available < sizer.advance op (sizer.counterAt program index) := by
  cases refused with
  | known declares known =>
    exact absurd ((reached.fresh _).mpr (placeable.fresh _ declares)) known
  | @var name init fault left failed => exact .inl ⟨name, init, left, rfl, failed⟩
  | @buffer name length fault left failed => exact .inr (.inl ⟨name, length, left, rfl, failed⟩)
  | @backwards address back =>
    have forward := placeable.forward address rfl
    rw [← reached.counter] at forward
    omega
  | unsized isCode unsized => exact .inr (.inr (.inl ⟨isCode, unsized⟩))
  | @beyond _ next available placed space past =>
    refine .inr (.inr (.inr ⟨available, space, ?_⟩))
    rw [← reached.counter, ← placed.pc_eq_advance]
    exact past

end Reached

end Layout

/-- As long as there is memory, an emitter emits all that is `clear` and pads as asked. -/
structure Emitter.Gives {σ : Type} (memory : Memory) (e : Emitter σ) (code : σ → CodeBuffer)
    (clear : σ → Operation → Prop) : Prop where
  emit : ∀ op pos s size, clear s op → e.sizeOf op = .ok size →
    (code s).size + size < memory.limit → ∃ after, e.emit op pos s = .ok () after
  pad : ∀ count s, (code s).size + count < memory.limit →
    ∃ after, e.pad count s = .ok () after

theorem Emitter.PadsWith.gives {σ : Type} {memory : Memory} {e : Emitter σ} {v : CodeView σ}
    {byte : UInt8} (pads : e.PadsWith memory v byte) {clear : σ → Operation → Prop}
    (emits : ∀ op pos s size, clear s op → e.sizeOf op = .ok size →
      (v.code s).size + size < memory.limit → ∃ after, e.emit op pos s = .ok () after) :
    e.Gives memory v.code clear where
  emit := emits
  pad _ _ room := ⟨_, pads.pad_eq_ok_iff.mpr ⟨decide_eq_true room, rfl⟩⟩

section Emission

variable {σ τ : Type} {memory : Memory} {e : Emitter σ} {symbols : σ → SymbolTable} {code : σ → CodeBuffer}
  {clear : σ → Operation → Prop} {space : Option Nat} {allocator : Allocator τ} {storage : τ}
  {program : List Instruction} {s : σ} {report : FaultAt}

/-- Emission of a program that has been laid out, and for which there is memory, fails only at an
operation that is not clear. -/
theorem Emitter.Gives.refused_of_run (gives : e.Gives memory code clear) (appends : e.Appends symbols code)
    (start : e.offset s = 0)
    (laid : (Layout.run ⟨e.sizeOf, space⟩ allocator { storage } program).2 = none)
    (room : Sizer.counterAt ⟨e.sizeOf, space⟩ program program.length < memory.limit)
    (failed : (e.run s program).2 = some report) :
    ∃ index i, program[index]? = some i ∧ i.pos = report.pos ∧ i.op.isCode ∧
      e.offset (e.before s program index) = Sizer.counterAt ⟨e.sizeOf, space⟩ program index ∧
      symbols (e.before s program index) = symbols s ∧ ¬ clear (e.before s program index) i.op := by
  obtain ⟨index, i, after, present, place, passed, stopped⟩ := Emitter.fault_of_run failed
  have within : index + 1 ≤ program.length := (List.getElem?_eq_some_iff.mp present).1
  have front : (Layout.run ⟨e.sizeOf, space⟩ allocator { storage } (program.take index)).2 = none := by
    rw [← Layout.pass_run] at laid ⊢
    exact congrArg Prod.snd (Pass.run_take laid index)
  have offset : e.offset (e.before s program index) =
      Sizer.counterAt ⟨e.sizeOf, space⟩ program index := by
    rw [Emitter.before, (inStep_of_passes appends.padsExactly start front passed).size,
      Layout.pc_run front, List.length_take_of_le (Nat.le_of_succ_le within),
      Sizer.counterAt_take _ _ (Nat.le_refl _)]
  have later := Layout.counterAt_le laid within (Nat.le_refl _)
  have placed := Layout.placed_before laid present
  have here := Layout.pc_before laid index (Nat.le_of_succ_le within)
  have next := Layout.pc_before laid (index + 1) within
  have grown := placed.pc_le
  obtain ⟨address, isOrg, unpadded⟩ | ⟨isCode, unsized | unemitted⟩ :=
    appends.emitOne_eq_error stopped
  · -- padding goes up to the counter after the `org`, for which there is room
    have target := Layout.Placed.pc_of_org (isOrg ▸ placed)
    obtain ⟨padded, done⟩ := gives.pad (address.toUInt64.toNat - e.offset (e.before s program index))
      (e.before s program index) (by
        rw [← appends.offset, toNat_toUInt64_of_nonneg (by omega)]
        omega)
    cases unpadded.symm.trans done
  · obtain ⟨size, sized, _⟩ := placed.pc_of_isCode isCode
    cases unsized.symm.trans sized
  · refine ⟨index, i, present, place, isCode, offset, appends.symbols_run passed, ?_⟩
    intro isClear
    obtain ⟨size, sized, counted⟩ := placed.pc_of_isCode isCode
    obtain ⟨emitted, done⟩ := gives.emit i.op i.pos (e.before s program index) size isClear sized (by
      rw [← appends.offset]
      omega)
    cases unemitted.symm.trans done

end Emission

end CrossAsm
