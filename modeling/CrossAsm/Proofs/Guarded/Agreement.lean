import CrossAsm.Proofs.Emission
import CrossAsm.Proofs.Guarded.Passes
import CrossAsm.Proofs.Placement

/-!
The guards aside, the passes with guards are the passes: unless it trips, layout and emission come to the
same state or the same report with them as without. The heap grants the memory that generation has.
-/
namespace CrossAsm

open Guarded (unguarded unsigned signed inside atPos Agrees)

namespace Guarded

variable {α β δ ε σ ι : Type}

/-- What a pass comes to: the state it has reached, or the fault at which it has stopped. -/
def outcome : σ × Option δ → Except δ σ
  | (s, none) => .ok s
  | (_, some fault) => .error fault

theorem finished_eq_ok_iff {r : EStateM.Result δ σ Unit} {s : σ} : finished r = .ok s ↔ r = .ok () s := by
  cases r <;> simp [finished]

/-- Step by step, unless one trips, two sequences come to the same. -/
inductive AgreeAll : List (Guarded Fault ι) → List (Except Fault ι) → Prop
  | nil : AgreeAll [] []
  | cons {x : Guarded Fault ι} {y : Except Fault ι} {rest : List (Guarded Fault ι)}
    {steps : List (Except Fault ι)} (first : Agrees id x y) (later : AgreeAll rest steps) :
    AgreeAll (x :: rest) (y :: steps)
  | trip (at_ : Trip) (rest : List (Guarded Fault ι)) (steps : List (Except Fault ι)) :
    AgreeAll (.error (.trip at_) :: rest) steps

section Combinators

theorem Agrees.map {error : ε → δ} {x : Guarded ε α} {y : Except δ α} (same : Agrees error x y)
    (f : α → β) : Agrees error (x.map f) (y.map f) := by
  cases same with
  | ok a => exact .ok _
  | fault reason => exact .fault reason
  | trip at_ => exact .trip at_ _

theorem Agrees.ite {error : ε → δ} {c : Prop} [Decidable c] {x z : Guarded ε α} {y w : Except δ α}
    (yes : Agrees error x y) (no : Agrees error z w) :
    Agrees error (if c then x else z) (if c then y else w) := by
  split
  · exact yes
  · exact no

theorem Agrees.atPos {error : FaultAt → δ} {pos : Position} {x : Guarded Fault α} {y : Except δ α}
    (same : Agrees (fun fault => error ⟨pos, fault⟩) x y) : Agrees error (atPos pos x) y := by
  cases same with
  | ok a => exact .ok a
  | fault reason => exact .fault _
  | trip at_ => exact .trip at_ _

theorem Agrees.of_unguarded {error : ε → δ} {value : Except ε α} {f : α → Guarded ε β} {y : Except δ β}
    (failed : ∀ reason, value = .error reason → y = .error (error reason))
    (next : ∀ a, value = .ok a → Agrees error (f a) y) : Agrees error (Guarded.unguarded value >>= f) y := by
  cases value with
  | ok a => exact next a rfl
  | error reason =>
    rw [failed reason rfl]
    exact .fault reason

theorem Agrees.of_ok {error : ε → δ} {x : Guarded ε α} {a : α} (same : Agrees error x (.ok a))
    {f : α → Guarded ε β} {y : Except δ β} (next : Agrees error (f a) y) : Agrees error (x >>= f) y := by
  cases same with
  | ok => exact next
  | trip at_ => exact .trip at_ _

/-- What follows may use what comes before it. -/
theorem Agrees.bind_ok {error : ε → δ} {x : Guarded ε α} {y : Except δ α} (same : Agrees error x y)
    {f : α → Guarded ε β} {g : α → Except δ β} (next : ∀ a, y = .ok a → Agrees error (f a) (g a)) :
    Agrees error (x >>= f) (y >>= g) := by
  cases same with
  | ok a => exact next a rfl
  | fault reason => exact .fault reason
  | trip at_ => exact .trip at_ _

theorem AgreeAll.single {x : Guarded Fault ι} {y : Except Fault ι} (same : Agrees id x y) :
    AgreeAll [x] [y] :=
  .cons same .nil

theorem AgreeAll.unguarded (steps : List (Except Fault ι)) :
    AgreeAll (steps.map Guarded.unguarded) steps := by
  induction steps with
  | nil => exact .nil
  | cons step rest ih => exact .cons (.unguarded step) ih

theorem AgreeAll.require {x : Guarded Fault α} {y : Except Fault α} (same : Agrees id x y)
    {f : α → List (Guarded Fault ι)} {g : α → List (Except Fault ι)}
    (next : ∀ a, AgreeAll (f a) (g a)) : AgreeAll (require x f) (CrossAsm.require y g) := by
  cases same with
  | ok a => exact next a
  | fault reason => exact .single (.fault reason)
  | trip at_ => exact .trip at_ _ _

theorem agrees_putAll {put : ι → σ → Guarded Fault σ} {plain : ι → EStateM Fault σ Unit}
    (same : ∀ i s, Agrees id (put i s) (finished (plain i s))) {guarded : List (Guarded Fault ι)}
    {steps : List (Except Fault ι)} (made : AgreeAll guarded steps) (s : σ) :
    Agrees id (putAll put guarded s) (finished (CrossAsm.putAll plain steps s)) := by
  induction made generalizing s with
  | nil => exact .ok s
  | trip at_ => exact .trip at_ _
  | cons first later ih =>
    cases first with
    | trip at_ => exact .trip at_ _
    | fault reason => exact .fault reason
    | ok i =>
      have here := same i s
      rw [CrossAsm.putAll]
      change Agrees id (put i s >>= putAll put _)
        (finished (EStateM.bind (plain i) (fun _ => CrossAsm.putAll plain _) s))
      unfold EStateM.bind
      generalize put i s = x, plain i s = r at here ⊢
      rcases r with ⟨_, next⟩ | ⟨fault, stopped⟩
      · cases here with
        | ok => exact ih next
        | trip at_ => exact .trip at_ _
      · cases here with
        | fault => exact .fault _
        | trip at_ => exact .trip at_ _

theorem agrees_each {step : Instruction → σ → Guarded Fault σ} {p : Pass σ}
    (same : ∀ i s, Agrees id (step i s) (outcome (p i s))) (program : List Instruction) (s : σ) :
    Agrees id (each step program s) (outcome (p.run s program)) := by
  induction program generalizing s with
  | nil => exact .ok s
  | cons i rest ih =>
    have first := same i s
    rw [each, Pass.run]
    generalize step i s = x, p i s = r at first ⊢
    rcases r with ⟨next, _ | fault⟩
    · cases first with
      | ok => exact ih next
      | trip at_ => exact .trip at_ _
    · cases first with
      | fault => exact .fault _
      | trip at_ => exact .trip at_ _

/-- If a pass succeeds, generation goes on from the state it has reached. -/
theorem Agrees.passed {x : Guarded FaultAt σ} {s : σ} {fault : Option FaultAt}
    (same : Agrees id x (outcome (s, fault))) {f : σ → Guarded FaultAt β}
    {y : Except GenerationFailure β} (next : Agrees .rejected (f s) y) :
    Agrees .rejected (x >>= f) (passed () fault >>= fun _ => y) := by
  cases fault with
  | none =>
    cases same with
    | ok => exact next
    | trip at_ => exact .trip at_ _
  | some fault =>
    cases same with
    | fault => exact .fault _
    | trip at_ => exact .trip at_ _

end Combinators

section Layout

variable {guarded : Allocator σ} {allocator : CrossAsm.Allocator σ}

/-- Both hand out the same storage. -/
structure Allocator.Agrees (guarded : Allocator σ) (allocator : CrossAsm.Allocator σ) : Prop where
  var : ∀ init s, Guarded.Agrees id (guarded.var init s) (answered (allocator.var init s))
  buffer : ∀ length s, Guarded.Agrees id (guarded.buffer length s) (answered (allocator.buffer length s))

theorem agrees_define (name : String) (symbol : Symbol) (l : Layout σ) :
    Agrees id (define name symbol l) (finished (Layout.define name symbol l)) := by
  unfold define Layout.define
  cases SymbolTable.define name symbol l.symbols with
  | ok _ symbols => exact .ok _
  | error fault left => exact .fault fault

theorem agrees_declare {reserve : σ → Guarded Fault (Nat × σ)} {plain : EStateM Fault σ Nat}
    {l : Layout σ} (same : Agrees id (reserve l.storage) (answered (plain l.storage))) (name : String)
    (kind : SymbolKind) :
    Agrees id (declare name kind reserve l) (finished (Layout.declare name kind plain l)) := by
  unfold declare Layout.declare
  cases l.symbols.ensureUndefined name with
  | error fault => exact .fault fault
  | ok =>
    change Agrees id (reserve l.storage >>= fun given =>
      define name ⟨kind, given.1⟩ { l with storage := given.2 }) _
    generalize reserve l.storage = x, plain l.storage = r at same ⊢
    rcases r with ⟨address, storage⟩ | ⟨fault, left⟩
    · cases same with
      | ok => exact agrees_define name ⟨kind, address⟩ { l with storage }
      | trip at_ => exact .trip at_ _
    · cases same with
      | fault => exact .fault _
      | trip at_ => exact .trip at_ _

section Step

variable (same : guarded.Agrees allocator) {sizer : Sizer} {sizeOf : Operation → Guarded Fault Nat}
  (sized : ∀ op, sizeOf op = unguarded (sizer.sizeOf op))
include same sized

theorem agrees_place (op : Operation) (l : Layout σ) :
    Agrees id (place sizeOf guarded op l) (finished (Layout.place sizer allocator op l)) := by
  cases isCode : op.isCode with
  | true =>
    rw [place_of_isCode _ isCode, sized, Layout.place_of_isCode isCode]
    refine Agrees.of_unguarded (fun fault failed => by rw [failed]; rfl) fun size known => ?_
    rw [known]
    refine Agrees.unsigned fun pc grown => ?_
    have counted : pc = l.pc + size := by omega
    rw [counted]
    exact .ok _
  | false =>
    cases op with
    | label name => exact agrees_define name ⟨.label, l.pc⟩ l
    | var name init => exact agrees_declare (same.var init l.storage) name .var
    | buffer name length => exact agrees_declare (same.buffer length l.storage) name .buffer
    | org address =>
      rw [Layout.place, apply_ite finished]
      refine Agrees.ite (.fault _) (Agrees.unsigned fun pc moved => ?_)
      have counted : pc = address.toInt.toNat := by omega
      rw [counted]
      exact .ok _
    | _ => cases isCode

theorem agrees_layOut (i : Instruction) (l : Layout σ) :
    Agrees id (layOut sizeOf sizer.addressSpace guarded i l)
      (finished (Layout.step sizer allocator i.op l)) := by
  have placed := agrees_place same sized i.op l
  unfold layOut Layout.step
  generalize place sizeOf guarded i.op l = x, Layout.place sizer allocator i.op l = r at placed ⊢
  rcases r with ⟨_, next⟩ | ⟨fault, left⟩
  · cases placed with
    | trip at_ => exact .trip at_ _
    | ok =>
      cases sizer.addressSpace with
      | none => exact .ok next
      | some available =>
        dsimp only
        rw [apply_ite finished]
        exact Agrees.ite (.fault _) (.ok next)
  · cases placed with
    | fault => exact .fault _
    | trip at_ => exact .trip at_ _

theorem agrees_layout (program : List Instruction) (l : Layout σ) :
    Agrees id (each (layOut sizeOf sizer.addressSpace guarded) program l)
      (outcome (Layout.run sizer allocator l program)) := by
  rw [← Layout.pass_run]
  refine agrees_each (fun i l => ?_) program l
  have stepped : outcome (Layout.pass sizer allocator i l) =
      finished (Layout.step sizer allocator i.op l) := by
    unfold Layout.pass
    cases Layout.step sizer allocator i.op l <;> rfl
  rw [stepped]
  exact agrees_layOut same sized i l

end Step

end Layout

section Emission

variable {guarded : Emitter σ} {e : CrossAsm.Emitter σ}

/-- Both emit the same code. -/
structure Emitter.Agrees (guarded : Emitter σ) (e : CrossAsm.Emitter σ) : Prop where
  sizeOf : ∀ op, guarded.sizeOf op = unguarded (e.sizeOf op)
  emit : ∀ op pos s, Guarded.Agrees id (guarded.emit op pos s) (finished (e.emit op pos s))
  pad : ∀ count s, Guarded.Agrees id (guarded.pad count s) (finished (e.pad count s))
  offset : guarded.offset = e.offset

theorem agrees_emitOne (same : guarded.Agrees e) (i : Instruction) (s : σ) :
    Agrees id (emitOne guarded i s) (finished (e.emitOne i s)) := by
  cases isCode : i.op.isCode with
  | true =>
    have here := same.emit i.op i.pos s
    rw [emitOne_of_isCode guarded s isCode, Emitter.emitOne_of_isCode isCode, same.sizeOf, same.offset]
    rcases e.sizeOf i.op with fault | expected
    · exact .fault _
    · change Agrees id (guarded.emit i.op i.pos s >>= _) _
      generalize guarded.emit i.op i.pos s = x, e.emit i.op i.pos s = r at here ⊢
      rcases r with ⟨_, after⟩ | ⟨fault, stopped⟩
      · cases here with
        | trip at_ => exact .trip at_ _
        | ok =>
          refine Agrees.unsigned fun actual grown => ?_
          by_cases kept : actual = expected
          · have reached : e.offset after = e.offset s + expected := by omega
            simp only [kept, reached, if_true]
            exact .ok after
          · have missed : e.offset after ≠ e.offset s + expected := by omega
            have difference : actual = e.offset after - e.offset s := by omega
            simp only [kept, missed, if_false]
            rw [difference]
            exact .fault _
      · cases here with
        | fault => exact .fault _
        | trip at_ => exact .trip at_ _
  | false =>
    obtain ⟨op, pos⟩ := i
    cases op with
    | label | var | buffer => exact .ok s
    | org address =>
      rw [emitOne, same.offset]
      exact same.pad _ s
    | _ => cases isCode

theorem agrees_emission (same : guarded.Agrees e) (program : List Instruction) (s : σ) :
    Agrees id (each (emitOne guarded) program s) (outcome (e.run s program)) := by
  rw [← Emitter.pass_run]
  refine agrees_each (fun i s => ?_) program s
  have stepped : outcome (e.pass i s) = finished (e.emitOne i s) := by
    unfold Emitter.pass
    cases e.emitOne i s <;> rfl
  rw [stepped]
  exact agrees_emitOne same i s

end Emission

section Code

variable (memory : Memory) (code : CodeBuffer)

theorem agrees_withCapacity (capacity : Nat) :
    Agrees id (withCapacity memory.heap capacity) (CodeBuffer.withCapacity memory capacity) := by
  have empty : (0 : Nat) = CodeBuffer.empty.size := rfl
  unfold withCapacity
  rw [empty]
  exact Agrees.ite (.ok _) (.fault _)

theorem agrees_extend (bytes : List UInt8) :
    Agrees id (extend memory.heap bytes code) (finished (CodeBuffer.extend memory bytes code)) := by
  unfold CodeBuffer.extend
  rw [apply_ite finished]
  exact Agrees.ite (.ok _) (.fault _)

theorem agrees_fill (byte : UInt8) (count : Nat) :
    Agrees id (fill memory.heap byte count code) (finished (CodeBuffer.fill memory byte count code)) := by
  have filled : code.append (List.replicate count byte) = ⟨code.bytes ++ Array.replicate count byte⟩ := by
    apply CodeBuffer.eq_of_toList
    simp
  unfold CodeBuffer.fill
  rw [apply_ite finished, ← filled]
  exact Agrees.ite (Agrees.unsigned fun _ _ => .ok _) (.fault _)

theorem agrees_putBytes (bytes : List UInt8) :
    Agrees id (putBytes memory.heap bytes code) (finished (CodeBuffer.extend memory bytes code)) :=
  Agrees.inside fun _ => agrees_extend memory code bytes

theorem agrees_pad {nop : List UInt8} {byte : UInt8} (first : nop[0]? = some byte) (count : Nat) :
    Agrees id (pad memory.heap nop count code) (finished (CodeBuffer.fill memory byte count code)) := by
  refine Agrees.item fun found same => ?_
  cases first.symm.trans same
  exact agrees_fill memory code byte count

omit memory code in
theorem finished_lift {σ : Type} (v : CodeView σ) (act : EStateM Fault CodeBuffer Unit) (s : σ) :
    finished (v.lift act s) = (finished (act (v.code s))).map (v.withCode s) := by
  unfold CodeView.lift
  cases act (v.code s) <;> rfl

omit code in
theorem agrees_padsWith {σ : Type} {e : CrossAsm.Emitter σ} {v : CodeView σ} {byte : UInt8}
    (pads : e.PadsWith memory v byte) {nop : List UInt8} (first : nop[0]? = some byte) (count : Nat)
    (s : σ) :
    Agrees id ((pad memory.heap nop count (v.code s)).map (v.withCode s)) (finished (e.pad count s)) := by
  rw [pads.pad, finished_lift]
  exact (agrees_pad memory (v.code s) first count).map _

/-- A buffer for an image. -/
theorem agrees_imageBuffer (capacity : Nat) :
    Agrees .rejected (atPos .nowhere (withCapacity memory.heap capacity))
      (imageBuffer memory capacity) := by
  refine Agrees.atPos ?_
  have same := agrees_withCapacity memory capacity
  unfold imageBuffer
  generalize withCapacity memory.heap capacity = x, CodeBuffer.withCapacity memory capacity = y at same ⊢
  cases same with
  | ok a => exact .ok a
  | fault reason => exact .fault _
  | trip at_ => exact .trip at_ _

end Code

end Guarded

end CrossAsm
