import CrossAsm.Proofs.Guarded.Agreement
import CrossAsm.Proofs.Mcs51.Emission
import CrossAsm.Proofs.Operands
import CrossAsm.Proofs.Steps

/-!
Generation for the 8051 never trips: RAM and program memory are small, and both are checked before they
are used up, as the counts of shifts are before they are used (`safe_generate`). Its guards aside, it is
generation (`agrees_generate`).
-/
namespace CrossAsm.Mcs51

open Guarded (Safe Agrees Account unguarded below unsigned signed inside)

section Shifts

theorem shiftCount_lt {count : Operand} {n : Nat} (counted : shiftCount .mcs51 count = .ok n) :
    n < 8 := by
  obtain ⟨value, rfl, _, high, rfl⟩ := shiftCount_eq_ok_iff.mp counted
  have few : value.toInt ≤ 7 := high
  omega

theorem guardedSizeOf_eq (op : Operation) : guardedSizeOf op = unguarded (sizeOf op) := by
  unfold guardedSizeOf
  rw [Guarded.byShape_eq]
  cases op with
  | shift dir dest count =>
    dsimp only [sizeOf]
    rw [Guarded.shiftCount_eq]
    cases counted : shiftCount .mcs51 count with
    | error fault => rfl
    | ok n =>
      have few := shiftCount_lt counted
      have total : (4 + (n : Int)).toNat = 4 + n := by omega
      rw [Guarded.unguarded_ok_bind, unsigned, Guarded.below_eq_ok (by omega) (by omega), total]
      rfl
  | _ => rfl

end Shifts

theorem sizeOf_le_largestSize {op : Operation} {size : Nat} (sized : sizeOf op = .ok size) :
    size ≤ largestSize := by
  cases op with
  | shift dir dest count =>
    obtain ⟨n, counted, rfl⟩ := map_eq_ok_iff.mp sized
    have few := shiftCount_lt counted
    unfold largestSize
    omega
  | binary op | unary op => cases op <;> cases sized <;> decide
  | product op dest src => cases op <;> cases src <;> cases sized <;> decide
  | branch condition => cases condition <;> cases sized <;> decide
  | set name src => cases src <;> cases sized <;> decide
  | int => cases sized
  | _ =>
    cases sized
    decide

section Storage

/-- RAM is used from below, and all of it has initial contents. -/
def ramAccount : Account Ram where
  used := Ram.next
  valid ram := ram.next ≤ Ram.size ∧ ram.image.length = Ram.size
  base := Ram.start
  word := 1

theorem safe_reserve {ram : Ram} (valid : ramAccount.valid ram) (count : Nat) :
    Safe (fun given => ramAccount.Given ram count given ∧ given.1 + count ≤ Ram.size)
      (ram.guardedReserve count) := by
  obtain ⟨within, whole⟩ := valid
  have size : Ram.size = 0x80 := rfl
  refine (Safe.unsigned (by omega) (by omega)).bind fun available left => ?_
  split
  · exact .fault _
  next room =>
    refine (Safe.unsigned (by omega) (by omega)).bind fun next moved => ?_
    refine .ok ⟨⟨⟨?_, whole⟩, ?_, ?_, ?_⟩, ?_⟩
    all_goals
      simp only [ramAccount]
      omega

theorem ram_sound : Guarded.Allocator.Sound ⟨Ram.guardedVar, Ram.guardedBuffer⟩ ramAccount where
  var init ram valid := by
    refine Safe.bind (.unguarded fun _ _ => trivial) fun value _ => ?_
    refine (safe_reserve valid 1).bind ?_
    rintro ⟨address, next⟩ ⟨⟨⟨within, whole⟩, inside, grown, bound⟩, room⟩
    have there : address < next.image.length := by
      dsimp only at room whole
      omega
    refine (Safe.inside there).bind fun _ _ => .ok ⟨⟨within, ?_⟩, inside, grown, bound⟩
    exact (List.length_set ..).trans whole
  buffer length ram valid := by
    refine Safe.bind (.unguarded fun _ checked => checkRange_eq_ok_iff.mp checked) ?_
    rintro count ⟨_, rfl⟩
    refine (safe_reserve valid _).imp ?_
    rintro given ⟨kept, _⟩
    exact kept

end Storage

section Jumps

variable {symbols : SymbolTable} {offset : Nat}

/-- Every label lies in program memory or just behind it. -/
def LabelsInMemory (symbols : SymbolTable) : Prop :=
  ∀ name address, symbols.resolveLabel name = .ok address → address ≤ programMemory

theorem safe_relative (labels : LabelsInMemory symbols) (target : String) {past : Nat}
    (low : offset + past ≤ 2 * programMemory) :
    Safe (fun _ => True) (guardedRelative symbols target offset past) := by
  have size : programMemory = 0x10000 := rfl
  refine Safe.bind (.unguarded (labels target)) fun address inside => ?_
  refine (Safe.unsigned (by omega) (by omega)).bind fun stop reached => ?_
  have target_word : signedAddress address = address := signedAddress_of_nonneg (by omega)
  have stop_word : signedAddress stop = stop := signedAddress_of_nonneg (by omega)
  rw [target_word, stop_word]
  refine (Safe.signed (by omega) (by omega)).bind fun distance _ => ?_
  split
  · exact .ok trivial
  · exact .fault _

theorem safe_jump (labels : LabelsInMemory symbols) (target : String) {past : Nat}
    (low : offset + past ≤ 2 * programMemory) (jump : Int8 → Instr) :
    Safe (fun _ => True) ((guardedRelative symbols target offset past).map jump) :=
  ((safe_relative labels target low).imp fun _ _ => trivial).map

theorem safe_lower (labels : LabelsInMemory symbols) (low : offset ≤ programMemory) (op : Operation) :
    ∀ step ∈ guardedLower symbols offset op, Safe (fun _ => True) step := by
  have size : programMemory = 0x10000 := rfl
  cases op with
  | branch condition target =>
    cases condition with
    | equal | notEqual | less | greaterEqual =>
      exact List.forall_mem_singleton.mpr (safe_jump labels target (by omega) _)
    | lessEqual =>
      exact List.forall_mem_cons.mpr ⟨safe_jump labels target (by omega) _,
        List.forall_mem_singleton.mpr (safe_jump labels target (by omega) _)⟩
    | greater =>
      refine Safe.require (safe_relative labels target (by omega)) fun distance _ => ?_
      simpa using ⟨.ok trivial, .ok trivial, .ok trivial⟩
  | bitBranch ifSet n target =>
    refine Safe.require (.unguarded fun _ _ => trivial) fun bit _ => ?_
    exact List.forall_mem_singleton.mpr (safe_jump labels target (by omega) _)
  | djnz counter target =>
    refine Safe.require (.unguarded fun _ _ => trivial) fun r _ => ?_
    exact List.forall_mem_singleton.mpr (safe_jump labels target (by omega) _)
  | shift dir dest count =>
    rw [guardedLower, Guarded.shiftCount_eq]
    refine Safe.require (.unguarded fun n counted => shiftCount_lt counted) fun n few => ?_
    have made : Safe (fun _ => True) (guardedShiftMask dir n) :=
      ((Safe.below (by omega) (by omega)).imp fun _ _ => trivial).map
    refine Safe.require made fun mask _ => List.forall_mem_map.mpr fun step _ => ?_
    exact .unguarded fun _ _ => trivial
  | _ =>
    refine List.forall_mem_map.mpr fun step _ => ?_
    exact .unguarded fun _ _ => trivial

end Jumps

section Emission

variable {heap : Heap} {symbols : SymbolTable}

/-- What is emitted refers to these symbols, and fits in memory. -/
def Fits (symbols : SymbolTable) (out : Output) : Prop :=
  out.symbols = symbols ∧ out.code.size < 0x8000000000000000

theorem fits_empty (symbols : SymbolTable) : Fits symbols ⟨symbols, .empty⟩ := by
  simp [Fits]

theorem safe_put {out : Output} (fits : Fits symbols out) (i : Instr) :
    Safe (fun after => Fits symbols after ∧ out.code.size ≤ after.code.size)
      (guardedPut heap i out) := by
  refine ((Guarded.safe_putBytes i.encode.fits).imp ?_).map
  rintro code ⟨rfl, room⟩
  refine ⟨⟨fits.1, room⟩, ?_⟩
  rw [CodeBuffer.size_append]
  exact Nat.le_add_right _ _

theorem emitter_sound (labels : LabelsInMemory symbols) :
    (guardedEmitter heap).Sound sizer programMemory (Fits symbols) where
  sizeOf := guardedSizeOf_eq
  offset out fits := fits.2
  emit op pos out fits low := by
    simp only [guardedEmitter, Guarded.byShape_eq]
    refine Safe.putAll (P := fun after => Fits symbols after ∧ out.code.size ≤ after.code.size)
      ⟨fits, Nat.le_refl _⟩ (safe_lower (fits.1 ▸ labels) low op) ?_
    rintro i earlier ⟨fits', grown⟩
    refine (safe_put fits' i).imp ?_
    rintro after ⟨fits'', more⟩
    exact ⟨fits'', Nat.le_trans grown more⟩
  pad count out fits := by
    have first : Instr.nop.bytes[0]? = some 0x00 := rfl
    refine ((Guarded.safe_pad first count).imp ?_).map
    rintro code ⟨size, room⟩
    exact ⟨⟨fits.1, room⟩, size⟩

end Emission

theorem labelsInMemory_of_tabled {l : Layout Ram} (tabled : Guarded.Tabled ramAccount l)
    (low : l.pc ≤ programMemory) : LabelsInMemory l.symbols := by
  intro name address resolved
  have known := SymbolTable.resolveLabel_eq_ok_iff.mp resolved
  exact Nat.le_trans (tabled.labels _ (SymbolTable.mem_of_get? known) rfl) low

/-- Generation does not trip, and what it gives has its code inside. -/
theorem safe_generate (heap : Heap) {program : List Instruction}
    (few : program.length < programLimit) :
    Safe (fun image => image.codeSize ≤ image.code.size) (guardedGenerate heap program) := by
  have valid : ramAccount.valid {} := ⟨Nat.le_of_ble_eq_true rfl, List.length_replicate⟩
  refine (Guarded.safe_layout sizer guardedSizeOf_eq (fun _ _ => sizeOf_le_largestSize) few ram_sound
    valid rfl).bind ?_
  rintro layout ⟨laid, inside⟩
  have low := inside programMemory rfl
  have labels : LabelsInMemory layout.symbols :=
    labelsInMemory_of_tabled laid.tabled (laid.pc ▸ low _ (Nat.le_refl _))
  refine ((Guarded.safe_withCapacity layout.pc).atPos _).bind ?_
  rintro _ ⟨rfl, _⟩
  refine (Guarded.safe_emission (emitter_sound labels) laid.forward low (fits_empty _) rfl).bind ?_
  rintro out -
  exact .ok (Nat.le_refl _)

section Agreement

theorem agrees_reserve (count : Nat) (ram : Ram) :
    Agrees id (ram.guardedReserve count) (Guarded.answered (Ram.reserve count ram)) := by
  refine Agrees.unsigned fun available left => ?_
  have same : available = Ram.size - ram.next := by omega
  unfold Ram.reserve
  dsimp only
  rw [same, apply_ite Guarded.answered]
  refine Agrees.ite (.fault _) (Agrees.unsigned fun next moved => ?_)
  have same : next = ram.next + count := by omega
  rw [same]
  exact .ok _

theorem ram_agrees : Guarded.Allocator.Agrees ⟨Ram.guardedVar, Ram.guardedBuffer⟩ Ram.allocator where
  var init ram := by
    refine Agrees.of_unguarded (fun fault failed => ?_) fun value checked => ?_
    · change Guarded.answered (Ram.var init ram) = _
      rw [Ram.var, failed]
      rfl
    · have same := agrees_reserve 1 ram
      change Agrees id _ (Guarded.answered (Ram.var init ram))
      rw [Ram.var, checked]
      dsimp only
      generalize ram.guardedReserve 1 = x, Ram.reserve 1 ram = r at same ⊢
      rcases r with ⟨address, next⟩ | ⟨fault, left⟩
      · cases same with
        | ok => exact Agrees.inside fun _ => .ok _
        | trip at_ => exact .trip at_ _
      · cases same with
        | fault => exact .fault _
        | trip at_ => exact .trip at_ _
  buffer length ram := by
    refine Agrees.of_unguarded (fun fault failed => ?_) fun count checked => ?_
    · change Guarded.answered (Ram.buffer length ram) = _
      rw [Ram.buffer, failed]
      rfl
    · change Agrees id _ (Guarded.answered (Ram.buffer length ram))
      rw [Ram.buffer, checked]
      exact agrees_reserve count.toNat ram

theorem agrees_relative (symbols : SymbolTable) (target : String) (offset past : Nat) :
    Agrees id (guardedRelative symbols target offset past) (relative symbols target (offset + past)) := by
  refine (Agrees.unguarded _).bind fun address => Agrees.unsigned fun stop reached => ?_
  have same : stop = offset + past := by omega
  rw [same]
  refine Agrees.signed fun fits => ?_
  dsimp only
  rw [signedDistance_of_fits fits]
  exact Agrees.ite (.ok _) (.fault _)

theorem agrees_jump (symbols : SymbolTable) (target : String) (offset past : Nat) (jump : Int8 → Instr) :
    Guarded.AgreeAll [(guardedRelative symbols target offset past).map jump]
      [(relative symbols target (offset + past)).map jump] :=
  .single ((agrees_relative symbols target offset past).map jump)

theorem agrees_lower (symbols : SymbolTable) (offset : Nat) (op : Operation) :
    Guarded.AgreeAll (guardedLower symbols offset op) (lower symbols offset op) := by
  cases op with
  | branch condition target =>
    cases condition with
    | equal | notEqual | less | greaterEqual => exact agrees_jump ..
    | lessEqual => exact .cons ((agrees_relative ..).map _) (agrees_jump ..)
    | greater =>
      refine .require (agrees_relative ..) fun distance => ?_
      exact .unguarded [.ok (Instr.jc 4), .ok (Instr.jz 2), .ok (Instr.sjmp distance)]
  | bitBranch ifSet n target => exact .require (.unguarded _) fun bit => agrees_jump ..
  | djnz counter target => exact .require (.unguarded _) fun r => agrees_jump ..
  | shift dir dest count =>
    rw [guardedLower, Guarded.shiftCount_eq]
    refine .require (.unguarded _) fun n => ?_
    unfold guardedShiftMask below
    split
    · exact .unguarded _
    · exact .trip _ _ _
  | _ => exact .unguarded _

section Emitter

variable (memory : Memory)

theorem agrees_put (i : Instr) (out : Output) :
    Agrees id (guardedPut memory.heap i out) (Guarded.finished (Output.put memory i out)) := by
  unfold Output.put
  rw [Guarded.finished_lift]
  exact (Guarded.agrees_putBytes ..).map _

theorem emitter_agrees : (guardedEmitter memory.heap).Agrees (emitter memory) where
  sizeOf := guardedSizeOf_eq
  emit op pos out := by
    simp only [guardedEmitter, Guarded.byShape_eq]
    exact Guarded.agrees_putAll (agrees_put memory) (agrees_lower ..) out
  pad := Guarded.agrees_padsWith memory emitter_padsWith rfl
  offset := rfl

end Emitter

theorem agrees_generate (memory : Memory) (program : List Instruction) :
    Agrees .rejected (guardedGenerate memory.heap program) (generate memory program) := by
  have laid : Agrees id (Guarded.each _ program { storage := {} })
      (Guarded.outcome (Layout.run sizer Ram.allocator { storage := {} } program)) :=
    Guarded.agrees_layout ram_agrees guardedSizeOf_eq program { storage := {} }
  unfold generate
  generalize Layout.run sizer Ram.allocator { storage := {} } program = r at laid ⊢
  obtain ⟨layout, fault⟩ := r
  refine laid.passed ((Guarded.agrees_imageBuffer memory layout.pc).bind fun code => ?_)
  have emitted := Guarded.agrees_emission (emitter_agrees memory) program ⟨layout.symbols, code⟩
  generalize (emitter memory).run ⟨layout.symbols, code⟩ program = r at emitted ⊢
  obtain ⟨out, fault⟩ := r
  exact emitted.passed (.ok _)

end Agreement

end CrossAsm.Mcs51
