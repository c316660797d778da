import CrossAsm.Proofs.CodeBuffer
import CrossAsm.Proofs.Placement

/-!
Emission: what emitting one instruction does. `Emitter.Emitted` has one rule for each kind of
operation, and `Emitter.emitOne` succeeds exactly by one of them (`emitOne_eq_ok_iff`).

An emitter may only ever add to its code, by as many bytes as it promises (`Emitter.Appends`). Then the
code of an instruction still stands at its offset when the whole program has been emitted.
-/
namespace CrossAsm.Emitter

variable {σ : Type} {e : Emitter σ} {s after : σ} {i : Instruction} {program : List Instruction}

/-- What emitting an instruction does to the state of an emitter. -/
inductive Emitted (e : Emitter σ) (s : σ) : Instruction → σ → Prop
  | label {name : String} {pos : Position} : Emitted e s ⟨.label name, pos⟩ s
  | var {name : String} {init : Option Int64} {pos : Position} : Emitted e s ⟨.var name init, pos⟩ s
  | buffer {name : String} {length : Int64} {pos : Position} : Emitted e s ⟨.buffer name length, pos⟩ s
  | org {address : Int64} {pos : Position} {after : σ}
      (padded : e.pad (address.toUInt64.toNat - e.offset s) s = .ok () after) :
    Emitted e s ⟨.org address, pos⟩ after
  | code {op : Operation} {pos : Position} {size : Nat} {after : σ} (isCode : op.isCode)
      (sized : e.sizeOf op = .ok size) (ran : e.emit op pos s = .ok () after)
      (grown : e.offset after = e.offset s + size) :
    Emitted e s ⟨op, pos⟩ after

theorem emitOne_of_isCode (isCode : i.op.isCode) :
    e.emitOne i s =
      match e.sizeOf i.op with
      | .error fault => .error fault s
      | .ok expected =>
        match e.emit i.op i.pos s with
        | .error fault after => .error fault after
        | .ok _ after =>
          if e.offset after = e.offset s + expected then .ok () after
          else .error (.sizeMismatch i.op.name expected (e.offset after - e.offset s)) after := by
  obtain ⟨op, pos⟩ := i
  cases op with
  | label | var | buffer | org => cases isCode
  | _ => rfl

theorem emitOne_eq_ok_iff : e.emitOne i s = .ok () after ↔ Emitted e s i after := by
  constructor
  · intro ran
    obtain ⟨op, pos⟩ := i
    by_cases isCode : op.isCode
    · rw [emitOne_of_isCode isCode] at ran
      cases sized : e.sizeOf op with
      | error fault => simp [sized] at ran
      | ok size =>
        cases emitted : e.emit op pos s with
        | error fault stopped => simp [sized, emitted] at ran
        | ok _ reached =>
          simp only [sized, emitted] at ran
          split at ran
          next grown =>
            cases ran
            exact .code isCode sized emitted grown
          next => cases ran
    · cases op with
      | label | var | buffer =>
        cases ran
        constructor
      | org address => exact .org ran
      | _ => exact absurd rfl isCode
  · intro emitted
    cases emitted with
    | label | var | buffer => rfl
    | org padded => exact padded
    | code isCode sized ran grown =>
      rw [emitOne_of_isCode isCode]
      simp only [sized, ran, grown, if_true]

theorem emitted_before (emitted : (e.run s program).2 = none) {index : Nat}
    (present : program[index]? = some i) :
    Emitted e (e.before s program index) i (e.before s program (index + 1)) :=
  emitOne_eq_ok_iff.mp (before_succ emitted present)

theorem ran_before (emitted : (e.run s program).2 = none) {index : Nat}
    (present : program[index]? = some i) (isCode : i.op.isCode) :
    e.emit i.op i.pos (e.before s program index) = .ok () (e.before s program (index + 1)) := by
  have stepped := emitted_before emitted present
  generalize e.before s program (index + 1) = after at stepped ⊢
  cases stepped with
  | label | var | buffer | org => cases isCode
  | code _ _ ran => exact ran

/-- Declarations leave the state of an emitter as it is. -/
theorem before_of_declaration (emitted : (e.run s program).2 = none) {index : Nat}
    (present : program[index]? = some i) (notCode : i.op.isCode = false)
    (unmoved : ∀ address, i.op ≠ .org address) :
    e.before s program (index + 1) = e.before s program index := by
  have stepped := emitted_before emitted present
  generalize e.before s program (index + 1) = after at stepped ⊢
  cases stepped with
  | label | var | buffer => rfl
  | org => exact absurd rfl (unmoved _)
  | code isCode =>
    rw [notCode] at isCode
    cases isCode

/-- An emitter that leaves its symbols alone and adds as many bytes to its code as it promises. -/
structure Appends (e : Emitter σ) (symbols : σ → SymbolTable) (code : σ → CodeBuffer) : Prop where
  offset : ∀ s, e.offset s = (code s).size
  emit : ∀ op pos s after, e.emit op pos s = .ok () after →
    symbols after = symbols s ∧
      ∃ bytes, code after = (code s).append bytes ∧ e.sizeOf op = .ok bytes.length
  pad : ∀ count s after, e.pad count s = .ok () after →
    symbols after = symbols s ∧
      ∃ bytes : List UInt8, bytes.length = count ∧ code after = (code s).append bytes

/-- An emitter that keeps its code in `v` and pads it with one and the same byte. -/
structure PadsWith (e : Emitter σ) (memory : Memory) (v : CodeView σ) (byte : UInt8) : Prop where
  lawful : v.Lawful
  offset : ∀ s, e.offset s = (v.code s).size
  pad : ∀ count, e.pad count = v.lift (CodeBuffer.fill memory byte count)

namespace PadsWith

variable {memory : Memory} {v : CodeView σ} {byte : UInt8} {count : Nat}

theorem pad_eq_ok_iff (pads : e.PadsWith memory v byte) :
    e.pad count s = .ok () after ↔ (v.code s).fits memory count ∧
      after = v.withCode s ((v.code s).append (List.replicate count byte)) := by
  rw [pads.pad, CodeView.lift_eq_ok_iff]
  constructor
  · rintro ⟨code, filled, rfl⟩
    obtain ⟨room, rfl⟩ := CodeBuffer.fill_eq_ok_iff.mp filled
    exact ⟨room, rfl⟩
  · rintro ⟨room, rfl⟩
    exact ⟨_, CodeBuffer.fill_eq_ok_iff.mpr ⟨room, rfl⟩, rfl⟩

theorem pad_eq_error (pads : e.PadsWith memory v byte) {fault : Fault}
    (failed : e.pad count s = .error fault after) : fault = .outOfMemory := by
  rw [pads.pad] at failed
  obtain ⟨code, unfilled⟩ := CodeView.exists_of_lift_eq_error failed
  exact CodeBuffer.fill_eq_error unfilled

theorem appends (pads : e.PadsWith memory v byte) {symbols : σ → SymbolTable}
    (kept : ∀ s code, symbols (v.withCode s code) = symbols s)
    (emits : ∀ op pos s after, e.emit op pos s = .ok () after → symbols after = symbols s ∧
      ∃ bytes, v.code after = (v.code s).append bytes ∧ e.sizeOf op = .ok bytes.length) :
    e.Appends symbols v.code where
  offset := pads.offset
  emit := emits
  pad count s after padded := by
    obtain ⟨_, rfl⟩ := pads.pad_eq_ok_iff.mp padded
    exact ⟨kept s _, _, List.length_replicate, pads.lawful.code_withCode s _⟩

end PadsWith

namespace Appends

variable {symbols : σ → SymbolTable} {code : σ → CodeBuffer}

theorem of_emitOne (appends : e.Appends symbols code) (ran : e.emitOne i s = .ok () after) :
    symbols after = symbols s ∧ ∃ bytes, code after = (code s).append bytes := by
  cases emitOne_eq_ok_iff.mp ran with
  | label | var | buffer => exact ⟨rfl, [], (CodeBuffer.append_nil _).symm⟩
  | org padded =>
    obtain ⟨same, bytes, _, added⟩ := appends.pad _ _ _ padded
    exact ⟨same, bytes, added⟩
  | code _ _ emitted =>
    obtain ⟨same, bytes, added, _⟩ := appends.emit _ _ _ _ emitted
    exact ⟨same, bytes, added⟩

/-- An instruction fails because padding does, or its size, or its code; its length is as promised. -/
theorem emitOne_eq_error (appends : e.Appends symbols code) {fault : Fault}
    (failed : e.emitOne i s = .error fault after) :
    (∃ address, i.op = .org address ∧
      e.pad (address.toUInt64.toNat - e.offset s) s = .error fault after) ∨
    i.op.isCode ∧ (e.sizeOf i.op = .error fault ∨ e.emit i.op i.pos s = .error fault after) := by
  obtain ⟨op, pos⟩ := i
  by_cases isCode : op.isCode
  · refine .inr ⟨isCode, ?_⟩
    rw [emitOne_of_isCode isCode] at failed
    cases sized : e.sizeOf op with
    | error reason =>
      simp only [sized] at failed
      cases failed
      exact .inl rfl
    | ok size =>
      cases ran : e.emit op pos s with
      | error reason stopped =>
        simp only [sized, ran] at failed
        cases failed
        exact .inr rfl
      | ok _ reached =>
        -- the code is as long as promised, so the check of its length succeeds
        obtain ⟨_, bytes, added, again⟩ := appends.emit op pos s reached ran
        cases sized.symm.trans again
        have grown : e.offset reached = e.offset s + bytes.length := by
          rw [appends.offset, appends.offset, added, CodeBuffer.size_append]
        simp only [sized, ran, grown, if_true] at failed
        cases failed
  · cases op with
    | label | var | buffer => cases failed
    | org address => exact .inl ⟨address, rfl, failed⟩
    | _ => exact absurd rfl isCode

/-- What an emitter cannot size it cannot emit. -/
theorem emit_of_unsized (appends : e.Appends symbols code) {op : Operation} {fault : Fault}
    (unsized : e.sizeOf op = .error fault) (pos : Position) (s : σ) :
    ∃ reason after, e.emit op pos s = .error reason after := by
  cases ran : e.emit op pos s with
  | error reason after => exact ⟨reason, after, rfl⟩
  | ok _ after =>
    obtain ⟨_, bytes, _, sized⟩ := appends.emit op pos s after ran
    cases unsized.symm.trans sized

theorem symbols_before (appends : e.Appends symbols code) (emitted : (e.run s program).2 = none)
    (index : Nat) : symbols (e.before s program index) = symbols s :=
  before_related (R := fun a b => symbols b = symbols a) (fun _ => rfl)
    (fun _ _ _ first second => second.trans first) emitted
    (fun _ _ _ ran => (appends.of_emitOne ran).1) (Nat.zero_le index)

theorem symbols_run (appends : e.Appends symbols code) (emitted : (e.run s program).2 = none) :
    symbols (e.run s program).1 = symbols s := by
  rw [← before_length]
  exact appends.symbols_before emitted _

theorem goesOn (appends : e.Appends symbols code) (emitted : (e.run s program).2 = none)
    {first last : Nat} (order : first ≤ last) :
    (code (e.before s program first)).bytes.toList <+:
      (code (e.before s program last)).bytes.toList := by
  refine before_related (R := fun a b => (code a).bytes.toList <+: (code b).bytes.toList)
    (fun _ => List.prefix_refl _) (fun _ _ _ => List.IsPrefix.trans) emitted ?_ order
  intro i a next ran
  obtain ⟨_, bytes, added⟩ := appends.of_emitOne ran
  rw [added, CodeBuffer.toList_append]
  exact List.prefix_append _ _

theorem offset_before_le (appends : e.Appends symbols code)
    (emitted : (e.run s program).2 = none) {first last : Nat} (order : first ≤ last) :
    e.offset (e.before s program first) ≤ e.offset (e.before s program last) := by
  have grown := (appends.goesOn emitted order).length_le
  rw [Array.length_toList, Array.length_toList] at grown
  rw [appends.offset, appends.offset]
  exact grown

theorem offset_le_run (appends : e.Appends symbols code) (emitted : (e.run s program).2 = none)
    {index : Nat} (within : index ≤ program.length) :
    e.offset (e.before s program index) ≤ e.offset (e.run s program).1 := by
  rw [← before_length]
  exact appends.offset_before_le emitted within

/-- The bytes that an instruction adds stand at its offset, in the whole code. -/
theorem holds (appends : e.Appends symbols code) (emitted : (e.run s program).2 = none)
    {index : Nat} (present : program[index]? = some i) {bytes : List UInt8}
    (added : code (e.before s program (index + 1)) =
      (code (e.before s program index)).append bytes) :
    Holds (code (e.run s program).1).bytes (e.offset (e.before s program index)) bytes := by
  have within : index + 1 ≤ program.length := (List.getElem?_eq_some_iff.mp present).1
  have later := appends.goesOn emitted within
  rw [before_length, added] at later
  rw [appends.offset]
  exact CodeBuffer.holds_of_goesOn later

end Appends

end CrossAsm.Emitter
