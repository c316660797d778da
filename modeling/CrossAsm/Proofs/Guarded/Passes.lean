import CrossAsm.Proofs.Declarations
import CrossAsm.Proofs.Guarded.Generation

/-!
The two passes with guards, for any machine. Sizes are small and programs not too long, so the program
counter stays in its word whatever `org` says (`counterAt_le_of_sizes`); layout then trips only if
handing out storage does, and emission only if emitting one operation does.
-/
namespace CrossAsm

open Guarded (unguarded unsigned Safe)

/-- The range check comes first, so a count that passes it is a value of its field. -/
theorem Guarded.shiftCount_eq (arch : Arch) (count : Operand) :
    Guarded.shiftCount arch count = unguarded (CrossAsm.shiftCount arch count) := by
  cases count with
  | reg => rfl
  | imm n =>
    unfold Guarded.shiftCount CrossAsm.shiftCount
    dsimp only
    have field : arch.farthestShift < countValues arch := by cases arch <;> decide
    cases checked : checkRange n.toInt 0 arch.farthestShift with
    | error fault => rfl
    | ok value =>
      obtain ⟨⟨low, high⟩, rfl⟩ := checkRange_eq_ok_iff.mp checked
      rw [Guarded.unguarded_ok_bind, Guarded.below_eq_ok low (by omega)]
      rfl

/-- No operation takes more bytes than this. -/
def largestSize : Nat := 31

/-- Programs have fewer instructions than this. -/
def programLimit : Nat := 0x100000000

section Counter

variable {sizer : Sizer} (sizes : ∀ op size, sizer.sizeOf op = .ok size → size ≤ largestSize)
include sizes

theorem Sizer.advance_le_of_sizes (op : Operation) (pc : Nat) :
    sizer.advance op pc ≤ max pc 0x7FFFFFFFFFFFFFFF + largestSize := by
  have small : (sizer.sizeOf op).toOption.getD 0 ≤ largestSize := by
    cases sized : sizer.sizeOf op with
    | ok size => exact sizes op size sized
    | error fault => exact Nat.zero_le _
  cases op with
  | label | var | buffer =>
    simp only [advance]
    omega
  | org address =>
    have high := address.toInt_lt
    simp only [advance]
    omega
  | _ =>
    simp only [advance]
    omega

/-- Only `org` can take the counter far, and no address is 2⁶³ or more. -/
theorem Sizer.counterAt_le_of_sizes {program : List Instruction} {index : Nat}
    (within : index ≤ program.length) :
    sizer.counterAt program index ≤ 0x7FFFFFFFFFFFFFFF + largestSize * index := by
  induction index with
  | zero => exact Nat.zero_le _
  | succ index ih =>
    have before := ih (Nat.le_of_succ_le within)
    have step := sizer.advance_le_of_sizes sizes program[index].op (sizer.counterAt program index)
    rw [sizer.counterAt_succ (List.getElem?_eq_getElem within), Nat.mul_succ]
    omega

theorem Sizer.counterAt_lt_of_sizes {program : List Instruction} (few : program.length < programLimit)
    {index : Nat} (within : index ≤ program.length) :
    sizer.counterAt program index < 0x8000002000000000 := by
  have bound := sizer.counterAt_le_of_sizes sizes within
  unfold programLimit largestSize at *
  omega

end Counter

namespace Guarded

variable {σ : Type} {program : List Instruction} {index : Nat} {i : Instruction}

/-- The two shapes leave out just the operations that are handled on their own. -/
theorem byShape_eq {ε α : Type} (handle : Operation → Guarded ε α) (op : Operation) :
    byShape handle op = handle op := by
  cases op with
  | binary op => cases op <;> rfl
  | branch condition => cases condition <;> rfl
  | _ => rfl

section Layout

/-- How storage is reckoned: what part of it is used, which of it is well-formed, how much is used at the
start and by a variable. -/
structure Account (σ : Type) where
  used : σ → Nat
  valid : σ → Prop
  base : Nat
  word : Nat

/-- Storage for `count` bytes at most has been handed out: it lies in the part that is used then. -/
structure Account.Given (account : Account σ) (s : σ) (count : Nat) (given : Nat × σ) : Prop where
  valid : account.valid given.2
  inside : given.1 ≤ account.used given.2
  grown : account.used s ≤ account.used given.2
  bound : account.used given.2 ≤ account.used s + count

variable {sizer : Sizer} {allocator : Allocator σ} {account : Account σ} {l : Layout σ}

/-- Handing out storage does not trip. -/
structure Allocator.Sound (allocator : Allocator σ) (account : Account σ) : Prop where
  var : ∀ init s, account.valid s →
    Safe (account.Given s account.word) (allocator.var init s)
  buffer : ∀ length s, account.valid s →
    Safe (account.Given s length.toInt.toNat) (allocator.buffer length s)

/-- Labels are not behind the program counter, and data not behind what is used. -/
structure Tabled (account : Account σ) (l : Layout σ) : Prop where
  labels : ∀ entry ∈ l.symbols.entries, entry.2.kind = .label → entry.2.address ≤ l.pc
  data : ∀ entry ∈ l.symbols.entries, entry.2.kind.isData → entry.2.address ≤ account.used l.storage

/-- No `org` before the instruction at `index` goes back. -/
def Forward (sizer : Sizer) (program : List Instruction) (index : Nat) : Prop :=
  ∀ earlier < index, ∀ address pos, program[earlier]? = some ⟨.org address, pos⟩ →
    (sizer.counterAt program earlier : Int) ≤ address.toInt

/-- What a layout is like before the instruction at `index`. -/
structure LaidOut (sizer : Sizer) (account : Account σ) (program : List Instruction) (index : Nat)
    (l : Layout σ) : Prop where
  pc : l.pc = sizer.counterAt program index
  forward : Forward sizer program index
  valid : account.valid l.storage
  declared : account.used l.storage ≤ account.base + storageBefore account.word program index
  tabled : Tabled account l

theorem Forward.succ (forward : Forward sizer program index) (present : program[index]? = some i)
    (here : ∀ address, i.op = .org address → (sizer.counterAt program index : Int) ≤ address.toInt) :
    Forward sizer program (index + 1) := by
  intro earlier before address pos known
  rcases Nat.lt_succ_iff_lt_or_eq.mp before with lower | rfl
  · exact forward earlier lower address pos known
  · cases present.symm.trans known
    exact here address rfl

theorem Tabled.add (tabled : Tabled account l) {kind : SymbolKind} {address : Nat} {storage : σ}
    (grown : account.used l.storage ≤ account.used storage)
    (label : kind = .label → address ≤ l.pc) (data : kind.isData → address ≤ account.used storage)
    (name : String) :
    Tabled account { l with symbols := l.symbols.add name ⟨kind, address⟩, storage } := by
  refine ⟨List.forall_mem_append.mpr ⟨tabled.labels, ?_⟩, List.forall_mem_append.mpr ⟨?_, ?_⟩⟩
  · exact List.forall_mem_singleton.mpr label
  · intro entry member isData
    exact Nat.le_trans (tabled.data entry member isData) grown
  · exact List.forall_mem_singleton.mpr data

theorem Tabled.advance (tabled : Tabled account l) {pc : Nat} (later : l.pc ≤ pc) :
    Tabled account { l with pc } where
  labels entry member isLabel := Nat.le_trans (tabled.labels entry member isLabel) later
  data := tabled.data

/-- A declaration takes no code, and no more storage than it declares. -/
theorem LaidOut.declare (here : LaidOut sizer account program index l) {op : Operation} {pos : Position}
    (present : program[index]? = some ⟨op, pos⟩) (unmoved : ∀ pc, sizer.advance op pc = pc)
    (fixed : ∀ address, op ≠ .org address) {kind : SymbolKind} (isData : kind.isData) {address : Nat}
    {storage : σ} (given : account.Given l.storage (op.storage account.word) (address, storage))
    (name : String) :
    LaidOut sizer account program (index + 1)
      { l with symbols := l.symbols.add name ⟨kind, address⟩, storage } where
  pc := by rw [sizer.counterAt_succ present, unmoved, here.pc]
  forward := here.forward.succ present fun address known => absurd known (fixed address)
  valid := given.valid
  declared := by
    have declared := here.declared
    have bound := given.bound
    rw [storageBefore_succ account.word present]
    dsimp only at bound ⊢
    omega
  tabled := by
    refine here.tabled.add given.grown ?_ (fun _ => given.inside) name
    rintro rfl
    cases isData

theorem place_of_isCode {op : Operation} (sizeOf : Operation → Guarded Fault Nat) (isCode : op.isCode) :
    place sizeOf allocator op l = do
      let pc ← unsigned (l.pc + (← sizeOf op))
      return { l with pc } := by
  cases op with
  | label | var | buffer | org => cases isCode
  | _ => rfl

theorem safe_define {P : Layout σ → Prop} {name : String} {symbol : Symbol}
    (next : P { l with symbols := l.symbols.add name symbol }) : Safe P (define name symbol l) := by
  unfold define
  cases defined : SymbolTable.define name symbol l.symbols with
  | error fault left => exact .fault fault
  | ok _ symbols =>
    obtain ⟨_, rfl⟩ := SymbolTable.define_eq_ok_iff.mp defined
    exact .ok next

theorem safe_declare {P : Layout σ → Prop} {name : String} {kind : SymbolKind}
    {reserve : σ → Guarded Fault (Nat × σ)} {count : Nat}
    (granted : Safe (account.Given l.storage count) (reserve l.storage))
    (next : ∀ address storage, account.Given l.storage count (address, storage) →
      P { l with symbols := l.symbols.add name ⟨kind, address⟩, storage }) :
    Safe P (declare name kind reserve l) := by
  refine Safe.bind (.unguarded fun _ _ => trivial) fun _ _ => granted.bind ?_
  rintro ⟨address, storage⟩ given
  exact safe_define (next address storage given)

section Step

variable {sizeOf : Operation → Guarded Fault Nat}
  (sized : ∀ op, sizeOf op = unguarded (sizer.sizeOf op))
  (sizes : ∀ op size, sizer.sizeOf op = .ok size → size ≤ largestSize)
  (few : program.length < programLimit) (present : program[index]? = some i)
  (here : LaidOut sizer account program index l)
include sized sizes few present here

theorem safe_place_code (isCode : i.op.isCode) :
    Safe (LaidOut sizer account program (index + 1)) (place sizeOf allocator i.op l) := by
  have within : index + 1 ≤ program.length := (List.getElem?_eq_some_iff.mp present).1
  have low := sizer.counterAt_lt_of_sizes sizes few within
  rw [place_of_isCode _ isCode, sized]
  refine Safe.bind (.unguarded fun size sized => sized) fun size sized => ?_
  have counter : sizer.counterAt program (index + 1) = l.pc + size := by
    rw [sizer.counterAt_succ present, Sizer.advance_of_isCode isCode sized, here.pc]
  refine (Safe.unsigned (by omega) (by omega)).bind fun pc same => ?_
  refine .ok ⟨?_, here.forward.succ present ?_, here.valid, ?_, here.tabled.advance (by omega)⟩
  · change pc = _
    omega
  · intro address known
    rw [known] at isCode
    cases isCode
  · have declared := here.declared
    rw [storageBefore_succ account.word present]
    exact Nat.le_trans declared (Nat.add_le_add_left (Nat.le_add_right _ _) _)

theorem safe_place (sound : allocator.Sound account) :
    Safe (LaidOut sizer account program (index + 1)) (place sizeOf allocator i.op l) := by
  cases isCode : i.op.isCode with
  | true => exact safe_place_code sized sizes few present here isCode
  | false =>
    have counter := sizer.counterAt_succ present
    have stored := storageBefore_succ account.word present
    have declared := here.declared
    obtain ⟨op, pos⟩ := i
    cases op with
    | label name =>
      refine safe_define ⟨here.pc.trans counter.symm, here.forward.succ present (by simp), here.valid,
        stored ▸ declared, ?_⟩
      exact here.tabled.add (Nat.le_refl _) (fun _ => Nat.le_refl _) (by simp [SymbolKind.isData]) name
    | var name init =>
      refine safe_declare (sound.var init l.storage here.valid) fun address storage given => ?_
      exact here.declare present (fun _ => rfl) (by simp) rfl given name
    | buffer name length =>
      refine safe_declare (sound.buffer length l.storage here.valid) fun address storage given => ?_
      exact here.declare present (fun _ => rfl) (by simp) rfl given name
    | org address =>
      rw [place]
      split
      · exact .fault _
      next forward =>
        have high := address.toInt_lt
        have pc := here.pc
        refine (Safe.unsigned (by omega) (by omega)).bind fun word same => ?_
        refine .ok ⟨?_, here.forward.succ present ?_, here.valid, stored ▸ declared,
          here.tabled.advance (by omega)⟩
        · rw [counter]
          change word = address.toInt.toNat
          omega
        · rintro other ⟨⟩
          omega
    | _ => cases isCode

/-- Laying out an instruction does not trip, and leaves program memory only with a report. -/
theorem safe_layOut (sound : allocator.Sound account) :
    Safe
      (fun next => LaidOut sizer account program (index + 1) next ∧
        ∀ available, sizer.addressSpace = some available →
          sizer.counterAt program (index + 1) ≤ available)
      (layOut sizeOf sizer.addressSpace allocator i l) := by
  refine (safe_place sized sizes few present here sound).bind fun next laid => ?_
  cases space : sizer.addressSpace with
  | none => exact .ok ⟨laid, by simp⟩
  | some available =>
    dsimp only
    split
    · exact .fault _
    next inside =>
      refine .ok ⟨laid, ?_⟩
      rintro _ ⟨⟩
      rw [← laid.pc]
      omega

end Step

/-- Laying out a program does not trip. -/
theorem safe_layout (sizer : Sizer) {sizeOf : Operation → Guarded Fault Nat}
    (sized : ∀ op, sizeOf op = unguarded (sizer.sizeOf op))
    (sizes : ∀ op size, sizer.sizeOf op = .ok size → size ≤ largestSize)
    (few : program.length < programLimit) (sound : allocator.Sound account) {storage : σ}
    (valid : account.valid storage) (start : account.used storage = account.base) :
    Safe
      (fun l => LaidOut sizer account program program.length l ∧
        ∀ available, sizer.addressSpace = some available → ∀ index ≤ program.length,
          sizer.counterAt program index ≤ available)
      (each (layOut sizeOf sizer.addressSpace allocator) program { storage }) := by
  refine Safe.each
    (P := fun index l => LaidOut sizer account program index l ∧
      ∀ available, sizer.addressSpace = some available → ∀ earlier ≤ index,
        sizer.counterAt program earlier ≤ available) ⟨?_, ?_⟩ ?_
  · refine ⟨rfl, ?_, valid, Nat.le_of_eq start, ?_, ?_⟩
    · intro earlier before
      cases before
    · intro entry member
      cases member
    · intro entry member
      cases member
  · intro available _ earlier first
    rw [Nat.le_zero.mp first]
    exact Nat.zero_le _
  · rintro index i l present ⟨here, space⟩
    refine (safe_layOut sized sizes few present here sound).imp ?_
    rintro next ⟨laid, inside⟩
    refine ⟨laid, ?_⟩
    intro available known earlier before
    rcases Nat.le_succ_iff.mp before with lower | rfl
    · exact space available known earlier lower
    · exact inside available known

end Layout

section Emission

variable {sizer : Sizer} {e : Emitter σ} {limit : Nat} {Valid : σ → Prop} {s : σ}

/-- Emitting one operation does not trip, as long as no more than `limit` bytes have been emitted. -/
structure Emitter.Sound (e : Emitter σ) (sizer : Sizer) (limit : Nat) (Valid : σ → Prop) : Prop where
  sizeOf : ∀ op, e.sizeOf op = unguarded (sizer.sizeOf op)
  offset : ∀ s, Valid s → e.offset s < 0x8000000000000000
  emit : ∀ op pos s, Valid s → e.offset s ≤ limit →
    Safe (fun after => Valid after ∧ e.offset s ≤ e.offset after) (e.emit op pos s)
  pad : ∀ count s, Valid s →
    Safe (fun after => Valid after ∧ e.offset after = e.offset s + count) (e.pad count s)

theorem emitOne_of_isCode (e : Emitter σ) {i : Instruction} (s : σ) (isCode : i.op.isCode) :
    emitOne e i s = (do
      let expected ← e.sizeOf i.op
      let after ← e.emit i.op i.pos s
      let actual ← unsigned (e.offset after - e.offset s)
      if actual = expected then return after
      else throw (.fault (.sizeMismatch i.op.name expected actual))) := by
  obtain ⟨op, pos⟩ := i
  cases op with
  | label | var | buffer | org => cases isCode
  | _ => rfl

/-- Emission keeps step with the program counter of layout. -/
theorem safe_emitOne (sound : e.Sound sizer limit Valid) (forward : Forward sizer program program.length)
    (low : ∀ index ≤ program.length, sizer.counterAt program index ≤ limit)
    (present : program[index]? = some i)
    (here : Valid s ∧ e.offset s = sizer.counterAt program index) :
    Safe (fun after => Valid after ∧ e.offset after = sizer.counterAt program (index + 1))
      (emitOne e i s) := by
  obtain ⟨valid, offset⟩ := here
  have within : index < program.length := (List.getElem?_eq_some_iff.mp present).1
  have counter := sizer.counterAt_succ present
  cases isCode : i.op.isCode with
  | true =>
    rw [emitOne_of_isCode e s isCode, sound.sizeOf]
    refine Safe.bind (.unguarded fun size sized => sized) fun expected sized => ?_
    refine (sound.emit i.op i.pos s valid (offset ▸ low index (Nat.le_of_lt within))).bind ?_
    rintro after ⟨valid', grown⟩
    have high := sound.offset after valid'
    refine (Safe.unsigned (by omega) (by omega)).bind fun actual same => ?_
    split
    next met =>
      refine .ok ⟨valid', ?_⟩
      rw [counter, Sizer.advance_of_isCode isCode sized]
      omega
    next => exact .fault _
  | false =>
    obtain ⟨op, pos⟩ := i
    cases op with
    | label | var | buffer =>
      rw [counter]
      exact .ok ⟨valid, offset⟩
    | org address =>
      have nonneg := forward index within address pos present
      have word : address.toUInt64.toNat = address.toInt.toNat := by
        apply Int64.toNat_toUInt64_of_le
        apply Int64.le_iff_toInt_le.mpr
        exact Int.le_trans (Int.natCast_nonneg _) nonneg
      refine (sound.pad _ s valid).imp ?_
      rintro after ⟨valid', padded⟩
      refine ⟨valid', ?_⟩
      rw [counter, padded, word]
      simp only [Sizer.advance]
      omega
    | _ => cases isCode

theorem safe_emission (sound : e.Sound sizer limit Valid)
    (forward : Forward sizer program program.length)
    (low : ∀ index ≤ program.length, sizer.counterAt program index ≤ limit) (valid : Valid s)
    (start : e.offset s = 0) :
    Safe (fun after => Valid after ∧ e.offset after = sizer.counterAt program program.length)
      (each (emitOne e) program s) :=
  Safe.each (P := fun index s => Valid s ∧ e.offset s = sizer.counterAt program index)
    ⟨valid, start⟩ fun _ _ _ present here => safe_emitOne sound forward low present here

end Emission

section Code

variable {heap : Heap} {code : CodeBuffer}

theorem safe_withCapacity (capacity : Nat) :
    Safe (fun code => code = .empty ∧ capacity < 0x8000000000000000) (withCapacity heap capacity) := by
  unfold withCapacity
  split
  next granted =>
    have bound := heap.bounded _ _ granted
    exact .ok ⟨rfl, by omega⟩
  next => exact .fault _

theorem safe_extend (bytes : List UInt8) :
    Safe (fun after => after = code.append bytes ∧ after.size < 0x8000000000000000)
      (extend heap bytes code) := by
  unfold extend
  split
  next granted =>
    have bound := heap.bounded _ _ granted
    exact .ok ⟨rfl, by rwa [CodeBuffer.size_append]⟩
  next => exact .fault _

theorem safe_fill (byte : UInt8) (count : Nat) :
    Safe (fun after => after.size = code.size + count ∧ after.size < 0x8000000000000000)
      (fill heap byte count code) := by
  unfold fill
  split
  next granted =>
    have bound := heap.bounded _ _ granted
    refine (Safe.unsigned (by omega) (by omega)).bind fun _ _ => .ok ?_
    rw [CodeBuffer.size_append, List.length_replicate]
    exact ⟨rfl, bound⟩
  next => exact .fault _

theorem safe_putBytes {bytes : List UInt8} (short : bytes.length ≤ 15) :
    Safe (fun after => after = code.append bytes ∧ after.size < 0x8000000000000000)
      (putBytes heap bytes code) :=
  (Safe.inside short).bind fun _ _ => safe_extend bytes

theorem safe_pad {nop : List UInt8} {byte : UInt8} (first : nop[0]? = some byte) (count : Nat) :
    Safe (fun after => after.size = code.size + count ∧ after.size < 0x8000000000000000)
      (pad heap nop count code) :=
  (Safe.item first).bind fun byte _ => safe_fill byte count

end Code

end Guarded

end CrossAsm
