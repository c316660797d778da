import CrossAsm.Proofs.Guarded.Agreement
import CrossAsm.Proofs.Relocation
import CrossAsm.Proofs.X64.Data
import CrossAsm.Proofs.X64.Emission

/-!
Generation for x86-64 never trips. The program counter and the data together stay in a word; once the
buffer for them has been granted, all addresses are below 2⁶³, so distances are signed words, and every
displacement lies in the code that has been emitted (`safe_generate`). Its guards aside, it is generation
(`agrees_generate`).
-/
namespace CrossAsm.X64

open Guarded (Safe Agrees Account unguarded below unsigned signed inside atPos)

theorem Division.size_le (p : Division) (src : Operand) : p.size src ≤ 24 := by
  have few : p.saved.length ≤ 2 := List.length_filter_le ..
  unfold size
  split <;> split <;> split <;> dsimp only <;> omega

theorem sizeOf_le_largestSize {op : Operation} {size : Nat} (sized : sizeOf op = .ok size) :
    size ≤ largestSize := by
  have overhead (r : GeneralReg) : r.baseOverhead ≤ 1 := by cases r <;> decide
  have operand (src : Operand) : operandSize src ≤ 7 := by cases src <;> simp [operandSize]
  unfold largestSize
  cases op with
  | mov dest src | binary op dest src | cmp left src =>
    cases sized
    exact Nat.le_trans (operand src) (by decide)
  | load dest p =>
    obtain ⟨base, _, rfl⟩ := map_eq_ok_iff.mp sized
    have extra := overhead base
    omega
  | store p src =>
    obtain ⟨base, _, rfl⟩ := map_eq_ok_iff.mp sized
    have extra := overhead base
    have value := operand src
    omega
  | product op dest src =>
    cases op with
    | mul => cases src <;> cases sized <;> decide
    | div | mod =>
      obtain ⟨p, _, rfl⟩ := map_eq_ok_iff.mp sized
      exact Nat.le_trans (p.size_le src) (by decide)
  | shift dir dest count =>
    obtain ⟨n, _, rfl⟩ := map_eq_ok_iff.mp sized
    decide
  | set name src => cases src <;> cases sized <;> decide
  | bit | bitBranch | djnz => cases sized
  | _ =>
    cases sized
    decide

section Shifts

theorem guardedSizeOf_eq (op : Operation) : guardedSizeOf op = unguarded (sizeOf op) := by
  unfold guardedSizeOf
  rw [Guarded.byShape_eq]
  split
  next dir dest count =>
    dsimp only [sizeOf]
    rw [Guarded.shiftCount_eq]
    cases shiftCount .x64 count <;> rfl
  next =>
    cases sized : sizeOf op with
    | error fault => rfl
    | ok size =>
      have small : size ≤ 31 := sizeOf_le_largestSize sized
      rw [Guarded.unguarded_ok_bind, unsigned, Guarded.below_eq_ok (by omega) (by omega),
        Int.toNat_natCast]
      rfl

theorem guardedLower_eq (symbols : SymbolTable) (op : Operation) :
    guardedLower symbols op = (lower symbols op).map unguarded := by
  cases op with
  | shift dir dest count =>
    dsimp only [guardedLower, lower]
    rw [Guarded.shiftCount_eq]
    cases generalReg dest with
    | error fault => rfl
    | ok d => cases shiftCount .x64 count <;> rfl
  | _ => rfl

end Shifts

section Storage

variable {heap : Heap}

def dataAccount : Account Data where
  used := Data.size
  valid _ := True
  base := 0
  word := 8

theorem safe_append (d : Data) (bytes : List UInt8) :
    Safe (dataAccount.Given d bytes.length) (d.guardedAppend heap bytes) := by
  unfold Data.guardedAppend
  split
  next =>
    refine .ok ⟨trivial, ?_, ?_, ?_⟩
    all_goals
      simp only [dataAccount, Data.size, List.length_append]
      omega
  next => exact .fault _

theorem data_sound :
    Guarded.Allocator.Sound ⟨Data.guardedVar heap, Data.guardedBuffer heap⟩ dataAccount where
  var init d _ := by
    have placed : Safe _ (d.guardedAppend heap _) := safe_append d (Data.variableBytes init)
    rwa [Data.length_variableBytes] at placed
  buffer length d _ := by
    refine Safe.bind (.unguarded fun _ checked => checkRange_eq_ok_iff.mp checked) ?_
    rintro count ⟨_, rfl⟩
    have placed : Safe _ (d.guardedAppend heap _) :=
      safe_append d (List.replicate length.toInt.toNat 0)
    rwa [List.length_replicate] at placed

theorem safe_moved {base used : Nat} (room : base + used < 0x10000000000000000) {symbol : Symbol}
    (label : symbol.kind = .label → symbol.address ≤ base)
    (data : symbol.kind.isData → symbol.address ≤ used) :
    Safe (fun moved => moved.address ≤ base + used) (guardedMoved base symbol) := by
  unfold guardedMoved
  split
  next isData =>
    have low := data isData
    refine (Safe.unsigned (by omega) (by omega)).bind fun address same => .ok ?_
    change address ≤ base + used
    omega
  next isCode =>
    refine .ok (Nat.le_trans (label ?_) (Nat.le_add_right _ _))
    revert isCode
    cases symbol.kind <;> simp [SymbolKind.isData]

/-- Data can be moved behind the code if the last of them can. -/
theorem safe_rebase {base used : Nat} (room : base + used < 0x10000000000000000)
    {entries : List (String × Symbol)}
    (labels : ∀ entry ∈ entries, entry.2.kind = .label → entry.2.address ≤ base)
    (data : ∀ entry ∈ entries, entry.2.kind.isData → entry.2.address ≤ used) :
    Safe (fun moved => ∀ entry ∈ moved, entry.2.address ≤ base + used) (guardedRebase base entries) := by
  induction entries with
  | nil => exact .ok (by simp)
  | cons entry rest ih =>
    obtain ⟨name, symbol⟩ := entry
    obtain ⟨label, labels⟩ := List.forall_mem_cons.mp labels
    obtain ⟨datum, data⟩ := List.forall_mem_cons.mp data
    refine (safe_moved room label datum).bind fun moved low => (ih labels data).bind fun others lower => ?_
    exact .ok (List.forall_mem_cons.mpr ⟨low, lower⟩)

end Storage

section Emission

variable {heap : Heap} {symbols : SymbolTable} {out : Output}

/-- Where an instruction has a displacement, all of it lies in its bytes. -/
theorem displacementOffset_le {i : Instr} {field : Nat} (placed : i.displacementOffset = some field) :
    field + 4 ≤ i.bytes.length := by
  cases i with
  | jmp | call | jcc | storeRip | storeRipImm | loadRip | leaRip =>
    cases placed
    simp [Instr.bytes, Instr.ripRelative, Instr.zeroWord]
  | _ => cases placed

/-- The displacement stands in an instruction that has been emitted. -/
def Inside (code : CodeBuffer) (r : Relocation) : Prop := r.patch + 4 ≤ code.size ∧ r.stop ≤ code.size

theorem Inside.grow {code after : CodeBuffer} {r : Relocation} (here : Inside code r)
    (grown : code.size ≤ after.size) : Inside after r :=
  ⟨Nat.le_trans here.1 grown, Nat.le_trans here.2 grown⟩

/-- What is emitted refers to these symbols from inside the code, and fits in memory. -/
structure Fits (symbols : SymbolTable) (out : Output) : Prop where
  symbols : out.symbols = symbols
  room : out.code.size < 0x8000000000000000
  inside : ∀ r ∈ out.relocations, Inside out.code r

theorem fits_empty (symbols : SymbolTable) : Fits symbols ⟨symbols, .empty, []⟩ where
  symbols := rfl
  room := by simp
  inside := by simp

theorem safe_put (fits : Fits symbols out) (pos : Position) (s : Step) :
    Safe (fun after => Fits symbols after ∧ out.code.size ≤ after.code.size)
      (guardedPut heap pos s out) := by
  have short : s.instr.bytes.length ≤ 15 := s.instr.encode.fits
  refine (Guarded.safe_putBytes short).bind ?_
  rintro code ⟨rfl, room⟩
  have size := CodeBuffer.size_append out.code s.instr.bytes
  have grown : out.code.size ≤ (out.code.append s.instr.bytes).size := by omega
  have kept : ∀ r ∈ out.relocations, Inside (out.code.append s.instr.bytes) r :=
    fun r member => (fits.inside r member).grow grown
  split
  next name reference field refers placed =>
    have within := displacementOffset_le placed
    refine (Safe.unsigned (by omega) (by omega)).bind fun patch at_field => ?_
    refine .ok ⟨⟨fits.symbols, room, ?_⟩, grown⟩
    refine List.forall_mem_append.mpr ⟨kept, List.forall_mem_singleton.mpr ⟨?_, Nat.le_refl _⟩⟩
    dsimp only
    omega
  next => exact .ok ⟨⟨fits.symbols, room, kept⟩, grown⟩

theorem emitter_sound (limit : Nat) : (guardedEmitter heap).Sound sizer limit (Fits symbols) where
  sizeOf := guardedSizeOf_eq
  offset out fits := fits.room
  emit op pos out fits _ := by
    simp only [guardedEmitter, Guarded.byShape_eq, guardedLower_eq]
    refine Safe.putAll (P := fun after => Fits symbols after ∧ out.code.size ≤ after.code.size)
      ⟨fits, Nat.le_refl _⟩ ?_ ?_
    · refine List.forall_mem_map.mpr fun step _ => ?_
      exact .unguarded fun _ _ => trivial
    · rintro s earlier ⟨fits', grown⟩
      refine (safe_put fits' pos s).imp ?_
      rintro after ⟨fits'', more⟩
      exact ⟨fits'', Nat.le_trans grown more⟩
  pad count out fits := by
    have first : Instr.nop.bytes[0]? = some 0x90 := rfl
    refine ((Guarded.safe_pad first count).imp ?_).map
    rintro code ⟨size, room⟩
    have grown : out.code.size ≤ code.size := by omega
    exact ⟨⟨fits.symbols, room, fun r member => (fits.inside r member).grow grown⟩, size⟩

end Emission

section Relocations

variable {symbols : SymbolTable} (low : ∀ entry ∈ symbols.entries, entry.2.address < 0x8000000000000000)
include low

theorem target_lt {r : Relocation} {target : Nat} (found : r.target symbols = .ok target) :
    target < 0x8000000000000000 := by
  unfold Relocation.target at found
  split at found
  · exact low _ (SymbolTable.mem_of_get? (SymbolTable.resolveLabel_eq_ok_iff.mp found))
  · obtain ⟨symbol, resolved, rfl⟩ := map_eq_ok_iff.mp found
    exact low _ (SymbolTable.mem_of_get? (SymbolTable.resolveData_eq_ok_iff.mp resolved).1)

theorem safe_resolve {r : Relocation} {code : CodeBuffer} (room : code.size < 0x8000000000000000)
    (here : Inside code r) :
    Safe (fun after => after.size = code.size) (guardedResolve symbols r code) := by
  obtain ⟨patch, stop⟩ := here
  refine Safe.bind (.unguarded fun target => target_lt low) fun target target_low => ?_
  rw [signedAddress_of_nonneg target_low, signedAddress_of_nonneg (Nat.lt_of_le_of_lt stop room)]
  refine (Safe.signed (by omega) (by omega)).bind fun distance _ => ?_
  split
  · refine (Safe.unsigned (by omega) (by omega)).bind fun after reached => ?_
    have there : after ≤ code.size := by omega
    refine (Safe.inside there).bind fun _ _ => .ok ?_
    exact CodeBuffer.size_write
  · exact .fault _

theorem safe_resolveAll {relocations : List Relocation} {code : CodeBuffer}
    (room : code.size < 0x8000000000000000) (here : ∀ r ∈ relocations, Inside code r) :
    Safe (fun after => after.size = code.size) (guardedResolveAll symbols relocations code) := by
  induction relocations generalizing code with
  | nil => exact .ok rfl
  | cons r rest ih =>
    obtain ⟨first, later⟩ := List.forall_mem_cons.mp here
    refine ((safe_resolve low room first).atPos _).bind fun next same => ?_
    rw [← same] at room
    refine (ih room fun r member => (later r member).grow (Nat.le_of_eq same.symm)).imp ?_
    intro after kept
    rw [kept, same]

end Relocations

/-- Generation does not trip, and what it gives has its code inside. -/
theorem safe_generate (heap : Heap) {program : List Instruction}
    (few : program.length < programLimit)
    (little : storageBefore 8 program program.length < 0x4000000000000000) :
    Safe (fun image => image.codeSize ≤ image.code.size) (guardedGenerate heap program) := by
  refine (Guarded.safe_layout sizer guardedSizeOf_eq (fun _ _ => sizeOf_le_largestSize) few data_sound
    trivial rfl).bind ?_
  rintro layout ⟨laid, _⟩
  have pc : layout.pc < 0x8000002000000000 :=
    laid.pc ▸ Sizer.counterAt_lt_of_sizes (fun _ _ => sizeOf_le_largestSize) few (Nat.le_refl _)
  have declared : layout.storage.size ≤ 0 + storageBefore 8 program program.length := laid.declared
  have room : layout.pc + layout.storage.size < 0x10000000000000000 := by omega
  refine (safe_rebase room laid.tabled.labels laid.tabled.data).bind fun entries low => ?_
  refine (Safe.unsigned (by omega) (by omega)).bind fun capacity same => ?_
  refine ((Guarded.safe_withCapacity capacity).atPos _).bind ?_
  rintro _ ⟨rfl, granted⟩
  have addresses : ∀ entry ∈ entries, entry.2.address < 0x8000000000000000 := by
    intro entry member
    have bound := low entry member
    omega
  refine (Guarded.safe_emission (emitter_sound _) laid.forward
    (fun index within => Nat.le_of_lt (Sizer.counterAt_lt_of_sizes (fun _ _ => sizeOf_le_largestSize)
      few within)) (fits_empty _) rfl).bind ?_
  rintro out ⟨fits, size⟩
  refine (safe_resolveAll (fits.symbols ▸ addresses) fits.room fits.inside).bind fun code kept => ?_
  refine ((Guarded.safe_extend _).atPos _).bind ?_
  rintro whole ⟨rfl, _⟩
  refine .ok ?_
  change layout.pc ≤ (code.append _).size
  have emitted : out.code.size = layout.pc := size.trans laid.pc.symm
  rw [CodeBuffer.size_append]
  omega

section Agreement

section Storage

variable (memory : Memory)

theorem agrees_append (d : Data) (bytes : List UInt8) :
    Agrees id (d.guardedAppend memory.heap bytes) (Guarded.answered (Data.append memory bytes d)) := by
  have granted : memory.heap.grants d.size bytes.length ↔ d.size + bytes.length < memory.limit :=
    decide_eq_true_iff
  unfold Data.guardedAppend Data.append
  simp only [granted]
  rw [apply_ite Guarded.answered]
  exact Agrees.ite (.ok _) (.fault _)

theorem data_agrees :
    Guarded.Allocator.Agrees ⟨Data.guardedVar memory.heap, Data.guardedBuffer memory.heap⟩
      (Data.allocator memory) where
  var _ d := agrees_append memory d _
  buffer length d := by
    refine Agrees.of_unguarded (fun fault failed => ?_) fun count checked => ?_
    · change Guarded.answered (Data.buffer memory length d) = _
      rw [Data.buffer, failed]
      rfl
    · change Agrees id _ (Guarded.answered (Data.buffer memory length d))
      rw [Data.buffer, checked]
      exact agrees_append memory d _

end Storage

theorem agrees_moved (base : Nat) (symbol : Symbol) :
    Agrees GenerationFailure.rejected (guardedMoved base symbol) (.ok (symbol.moved base)) := by
  unfold guardedMoved Symbol.moved
  split
  · refine Agrees.unsigned fun address moved => ?_
    have same : address = symbol.address + base := by omega
    rw [same]
    exact .ok _
  · exact .ok _

theorem agrees_rebase (base : Nat) (entries : List (String × Symbol)) :
    Agrees GenerationFailure.rejected (guardedRebase base entries)
      (.ok (SymbolTable.rebaseData ⟨entries⟩ base).entries) := by
  induction entries with
  | nil => exact .ok _
  | cons entry rest ih =>
    obtain ⟨name, symbol⟩ := entry
    exact (agrees_moved base symbol).of_ok (ih.of_ok (.ok _))

section Emitter

variable (memory : Memory)

theorem agrees_put (pos : Position) (s : Step) (out : Output) :
    Agrees id (guardedPut memory.heap pos s out) (Guarded.finished (Output.put memory pos s out)) := by
  have stored : Guarded.finished (Output.put memory pos s out) =
      Guarded.finished (CodeBuffer.extend memory s.instr.bytes out.code) >>= fun code =>
        .ok ⟨out.symbols, code, out.relocations ++ (Output.relocation? pos out.code.size s).toList⟩ := by
    obtain ⟨symbols, code, relocations⟩ := out
    unfold Output.put
    dsimp only
    cases CodeBuffer.extend memory s.instr.bytes code <;> rfl
  rw [stored]
  refine (Guarded.agrees_putBytes ..).bind_ok fun code grown => ?_
  have size : code.size = out.code.size + s.instr.bytes.length := by
    rw [(CodeBuffer.extend_eq_ok_iff.mp (Guarded.finished_eq_ok_iff.mp grown)).2, CodeBuffer.size_append]
  unfold Output.relocation?
  rcases s.refers with _ | ⟨name, reference⟩
  · simpa using .ok _
  · rcases s.instr.displacementOffset with _ | field
    · simpa using .ok _
    · refine Agrees.unsigned fun patch here => ?_
      have same : patch = out.code.size + field := by omega
      rw [same, size]
      exact .ok _

theorem emitter_agrees : (guardedEmitter memory.heap).Agrees (emitter memory) where
  sizeOf := guardedSizeOf_eq
  emit op pos out := by
    simp only [guardedEmitter, Guarded.byShape_eq, guardedLower_eq]
    exact Guarded.agrees_putAll (agrees_put memory pos) (.unguarded _) out
  pad := Guarded.agrees_padsWith memory emitter_padsWith rfl
  offset := rfl

end Emitter

/-- What filling in relocations comes to, for generation. -/
def settled : Relocation.Outcome → Except GenerationFailure CodeBuffer
  | .resolved code => .ok code
  | .rejected _ fault => .error (.rejected fault)
  | .outside => .error .misplacedRelocation

theorem settled_resolveAll_cons (symbols : SymbolTable) (code : CodeBuffer) (r : Relocation)
    (rest : List Relocation) :
    settled (Relocation.resolveAll symbols code (r :: rest)) =
      settled (Relocation.resolveAll symbols code [r]) >>= fun next =>
        settled (Relocation.resolveAll symbols next rest) := by
  simp only [Relocation.resolveAll]
  cases r.displacement symbols with
  | error fault => rfl
  | ok d =>
    dsimp only
    cases code.patch? r.patch (Relocation.displacementBytes d) <;> rfl

theorem agrees_resolve (symbols : SymbolTable) (r : Relocation) (code : CodeBuffer) :
    Agrees (fun fault => .rejected ⟨r.pos, fault⟩) (guardedResolve symbols r code)
      (settled (Relocation.resolveAll symbols code [r])) := by
  have reported (fault : Fault) (failed : r.displacement symbols = .error fault) :
      settled (Relocation.resolveAll symbols code [r]) = .error (.rejected ⟨r.pos, fault⟩) := by
    simp only [Relocation.resolveAll, failed, settled]
  refine Agrees.of_unguarded (fun fault found => reported fault ?_) fun target found =>
    Agrees.signed fun fits => ?_
  · exact bind_eq_error_iff.mpr (.inl found)
  · rw [← signedDistance_of_fits fits]
    split
    next short =>
      refine Agrees.unsigned fun after reached => Agrees.inside fun there => ?_
      have there : r.patch + 4 ≤ code.size := by omega
      have displaced := Relocation.displacement_eq_ok_iff.mpr ⟨target, found, short, rfl⟩
      rw [Relocation.resolveAll_cons_eq_resolved.mpr ⟨_, displaced, there, rfl⟩]
      exact .ok _
    next long =>
      rw [reported _ (bind_eq_error_iff.mpr (.inr ⟨target, found, if_neg long⟩))]
      exact .fault _

theorem agrees_resolveAll (symbols : SymbolTable) (relocations : List Relocation) (code : CodeBuffer) :
    Agrees .rejected (guardedResolveAll symbols relocations code)
      (settled (Relocation.resolveAll symbols code relocations)) := by
  induction relocations generalizing code with
  | nil => exact .ok code
  | cons r rest ih =>
    rw [settled_resolveAll_cons]
    exact (agrees_resolve symbols r code).atPos.bind fun next => ih next

theorem agrees_generate (memory : Memory) (program : List Instruction) :
    Agrees .rejected (guardedGenerate memory.heap program) (generate memory program) := by
  have laid : Agrees id (Guarded.each _ program { storage := {} })
      (Guarded.outcome (Layout.run sizer (Data.allocator memory) { storage := {} } program)) :=
    Guarded.agrees_layout (data_agrees memory) guardedSizeOf_eq program { storage := {} }
  unfold generate
  generalize Layout.run sizer (Data.allocator memory) { storage := {} } program = r at laid ⊢
  obtain ⟨layout, fault⟩ := r
  refine laid.passed ((agrees_rebase layout.pc layout.symbols.entries).of_ok ?_)
  refine Agrees.unsigned fun capacity whole => ?_
  have same : capacity = layout.pc + layout.storage.size := by omega
  rw [same]
  refine (Guarded.agrees_imageBuffer memory _).bind fun code => ?_
  have emitted := Guarded.agrees_emission (emitter_agrees memory) program
    ⟨layout.symbols.rebaseData layout.pc, code, []⟩
  generalize (emitter memory).run ⟨layout.symbols.rebaseData layout.pc, code, []⟩ program = r at emitted ⊢
  obtain ⟨out, fault⟩ := r
  refine emitted.passed ?_
  have resolved := agrees_resolveAll out.symbols out.relocations out.code
  generalize guardedResolveAll out.symbols out.relocations out.code = x,
    Relocation.resolveAll out.symbols out.code out.relocations = outcome at resolved ⊢
  cases outcome with
  | outside =>
    cases resolved with
    | trip at_ => exact .trip at_ _
  | rejected code fault =>
    cases resolved with
    | fault => exact .fault _
    | trip at_ => exact .trip at_ _
  | resolved code =>
    refine resolved.of_ok ?_
    have extended := Guarded.agrees_extend memory code layout.storage.bytes
    dsimp only
    generalize Guarded.extend memory.heap layout.storage.bytes code = x,
      CodeBuffer.extend memory layout.storage.bytes code = r at extended ⊢
    rcases r with ⟨_, whole⟩ | ⟨fault, stopped⟩
    · cases extended with
      | ok => exact .ok _
      | trip at_ => exact .trip at_ _
    · cases extended with
      | fault => exact .fault _
      | trip at_ => exact .trip at_ _

end Agreement

end CrossAsm.X64
