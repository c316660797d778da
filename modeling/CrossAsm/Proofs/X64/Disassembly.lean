import CrossAsm.Proofs.X64.Decoder
import CrossAsm.Proofs.X64.References

/-!
Disassembly of an x86-64 image. Where its displacements have been filled in, the code of an image is made
of the bytes of the lowered instructions, each with the displacement written into it (`disassembled_at`).
Without `org` nothing stands between them, so decoding the code gives back what was emitted
(`code_decodes_uniquely`).
-/
namespace CrossAsm

variable {memory : Memory}

namespace X64

/-- The step is an instruction that can be decoded, with a displacement exactly if it refers to a symbol. -/
def Decodable (step : Except Fault Step) : Prop :=
  ∀ s, step = .ok s → s.instr.Emittable ∧ s.refers.isSome = s.instr.displacementOffset.isSome

theorem decodable_plain {value : Except Fault Instr}
    (all : ∀ i, value = .ok i → i.Emittable ∧ i.displacementOffset = none) :
    Decodable (plain value) := by
  intro s made
  obtain ⟨i, known, rfl⟩ := map_eq_ok_iff.mp made
  obtain ⟨emittable, unplaced⟩ := all i known
  exact ⟨emittable, by rw [unplaced]; rfl⟩

theorem decodable_map {α : Type} {value : Except Fault α} {instr : α → Instr}
    (all : ∀ a, (instr a).Emittable ∧ (instr a).displacementOffset = none) :
    Decodable (plain (value.map instr)) := by
  apply decodable_plain
  intro i made
  obtain ⟨a, _, rfl⟩ := map_eq_ok_iff.mp made
  exact all a

theorem decodable_error (fault : Fault) : Decodable (.error fault) := by
  intro s made
  cases made

theorem decodable_refer {name : String} {reference : Reference} {i : Instr} (emittable : i.Emittable)
    (placed : i.displacementOffset.isSome) : Decodable (refer name reference i) := by
  intro s made
  cases made
  exact ⟨emittable, placed.symm⟩

theorem decodable_withOperand {dest : Register} {src : Operand} {reg : GeneralReg → GeneralReg → Instr}
    {imm : GeneralReg → Int32 → Instr}
    (ofReg : ∀ d s, (reg d s).Emittable ∧ (reg d s).displacementOffset = none)
    (ofImm : ∀ d v, (imm d v).Emittable ∧ (imm d v).displacementOffset = none) :
    Each Decodable (withOperand dest src reg imm) :=
  each_withOperand (fun fault _ => decodable_error fault) (fun d _ => decodable_map (ofReg d))
    fun d _ => decodable_map (ofImm d)

theorem decodable_division (p : Division) (src : Operand) : Each Decodable (p.steps src) := by
  apply each_division
  · intro r s i member
    change Decodable (plain (.ok i))
    apply decodable_plain
    intro j same
    cases same
    simp only [List.mem_cons, List.not_mem_nil, or_false] at member
    rcases member with rfl | rfl | rfl | rfl | rfl <;> simp [Instr.Emittable, Instr.displacementOffset]
  · intro r
    exact decodable_map fun _ => ⟨trivial, rfl⟩
  · intro n
    exact decodable_map fun _ => ⟨trivial, rfl⟩

/-- Lowering gives instructions that can be decoded. -/
theorem decodable_lower (symbols : SymbolTable) (op : Operation) :
    Each Decodable (lower symbols op) := by
  cases op with
  | label | var | buffer | org => exact .nil
  | mov | store | binary | cmp =>
    exact decodable_withOperand (fun _ _ => ⟨trivial, rfl⟩) fun _ _ => ⟨trivial, rfl⟩
  | product op dest src =>
    cases op with
    | mul => exact decodable_withOperand (fun _ _ => ⟨trivial, rfl⟩) fun _ _ => ⟨trivial, rfl⟩
    | div | mod =>
      exact .require (fun fault _ => decodable_error fault) fun p _ => decodable_division p src
  | load =>
    refine .single (decodable_plain fun i made => ?_)
    obtain ⟨d, _, made⟩ := bind_eq_ok_iff.mp made
    obtain ⟨b, _, made⟩ := bind_eq_ok_iff.mp made
    cases made
    exact ⟨trivial, rfl⟩
  | shift dir =>
    refine .single (decodable_plain fun i made => ?_)
    obtain ⟨d, _, made⟩ := bind_eq_ok_iff.mp made
    obtain ⟨n, _, made⟩ := bind_eq_ok_iff.mp made
    cases made
    exact ⟨by cases dir <;> simp [Instr.Emittable, Group.ofShift], rfl⟩
  | unary op =>
    refine .single (decodable_map fun d => ⟨?_, rfl⟩)
    cases op <;> simp [Instr.Emittable, Group.ofUnary]
  | push | pop | int => exact .single (decodable_map fun _ => ⟨trivial, rfl⟩)
  | ret | halt | nop =>
    refine .single (decodable_plain fun i same => ?_)
    cases same
    exact ⟨trivial, rfl⟩
  | jmp | call | branch => exact .single (decodable_refer trivial rfl)
  | set name src =>
    cases src with
    | reg | imm =>
      rw [lower]
      split
      · exact .single (decodable_error _)
      · exact .require (fun fault _ => decodable_error fault) fun _ _ =>
          .single (decodable_refer trivial rfl)
  | get =>
    refine .require (fun fault _ => decodable_error fault) fun d _ => ?_
    split
    · exact .single (decodable_refer trivial rfl)
    · exact .single (decodable_refer trivial rfl)
  | bit | bitBranch | djnz => exact .single (decodable_error _)

/-- Writing a displacement at a site keeps what stands around it. -/
theorem Site.Fits.bytesWith {site : Site} {s : Step} (fits : site.Fits s) :
    ∃ front back, s.bytes = front ++ (Instr.zeroWord ++ back) ∧ front.length = site.field ∧
      ∀ d, s.instr.bytesWith d = front ++ (Relocation.displacementBytes d ++ back) := by
  obtain ⟨front, back, bytes, length⟩ := fits.blank
  refine ⟨front, back, bytes, length, fun d => ?_⟩
  rw [Instr.bytesWith_of_some fits.field, ← length, show s.instr.bytes = s.bytes from rfl, bytes,
    List.take_left, List.append_assoc, List.drop_append]
  simp [Instr.zeroWord]

/-- The steps that lowering gave, and their instructions as they are decoded. -/
structure Disassembles (steps : List Step) (decoded : List Decoded) : Prop where
  same : decoded.map Decoded.instr = steps.map Step.instr
  lawful : ∀ x ∈ decoded, x.Lawful

variable {program : List Instruction} {image : Image} {index : Nat} {op : Operation} {pos : Position}

section Image

variable (accepted : X64.generate memory program = .ok image)
include accepted

/-- What is emitted for an instruction stands in the image too, but for its displacement. -/
theorem holds_of_emitted {offset : Nat} {bytes : List UInt8} (present : index < program.length)
    (holds : Holds (emissionOf memory program).1.code.bytes offset bytes)
    (start : offsetAt memory program index ≤ offset)
    (stop : offset + bytes.length ≤ offsetAt memory program (index + 1))
    (outside : ∀ site, Site.At site program index →
      site.window memory program index + 4 ≤ offset ∨
        offset + bytes.length ≤ site.window memory program index) :
    Holds image.code offset bytes := by
  obtain ⟨_, _, emitted, _⟩ := generate_eq_ok_iff.mp accepted
  have inside : offsetAt memory program (index + 1) ≤ image.codeSize :=
    offsetAt_le_codeSize accepted present
  intro place within
  rw [← holds place within]
  apply code_of_outside accepted (by omega)
  intro other site stands
  have site_stop := window_stop_le emitted stands
  have site_start : offsetAt memory program other ≤ site.window memory program other :=
    Nat.le_add_right _ _
  rcases Nat.lt_trichotomy other index with earlier | rfl | later
  · have order := offsetAt_le emitted (show other + 1 ≤ index from earlier)
    omega
  · have apart := outside site stands
    omega
  · have order := offsetAt_le emitted (show index + 1 ≤ other from later)
    omega

/-- An instruction without a displacement stands in the image as it was emitted. -/
theorem holds_of_silent (present : program[index]? = some ⟨op, pos⟩) (unreferring : site? op = none)
    {bytes : List UInt8}
    (holds : Holds (emissionOf memory program).1.code.bytes (offsetAt memory program index) bytes)
    (stop : offsetAt memory program (index + 1) = offsetAt memory program index + bytes.length) :
    Holds image.code (offsetAt memory program index) bytes := by
  refine holds_of_emitted accepted (List.getElem?_eq_some_iff.mp present).1 holds (Nat.le_refl _)
    (Nat.le_of_eq stop.symm) ?_
  rintro site ⟨i, again, referring⟩
  cases present.symm.trans again
  cases unreferring.symm.trans referring

/-- A displacement has been written into the window of a site. -/
theorem exists_written {site : Site} (stands : site.At program index) :
    ∃ d, Holds image.code (site.window memory program index) (Relocation.displacementBytes d) := by
  obtain ⟨_, _, emitted, _⟩ := generate_eq_ok_iff.mp accepted
  obtain ⟨code, resolved, whole⟩ := resolved_of_generate accepted
  obtain ⟨pos, kept⟩ := stands.relocationAt
  obtain ⟨d, _, written⟩ := Relocation.holds_of_resolveAll resolved (relocations_apart emitted)
    ((mem_relocations_iff emitted).mpr ⟨index, kept⟩)
  exact ⟨d, whole ▸ CodeBuffer.holds_append written _⟩

/-- An instruction with a displacement stands in the image with a displacement written into it. -/
theorem holds_of_site {site : Site} {s : Step} (present : program[index]? = some ⟨op, pos⟩)
    (referring : site? op = some site) (fits : site.Fits s)
    (holds : Holds (emissionOf memory program).1.code.bytes (offsetAt memory program index) s.bytes)
    (stop : offsetAt memory program (index + 1) = offsetAt memory program index + s.bytes.length) :
    ∃ d, Holds image.code (offsetAt memory program index) (s.instr.bytesWith d) ∧
      (s.instr.bytesWith d).length = s.bytes.length := by
  have within := (List.getElem?_eq_some_iff.mp present).1
  have only (other : Site) (again : other.At program index) : other = site := by
    obtain ⟨i, there, found⟩ := again
    cases present.symm.trans there
    exact Option.some.inj (found.symm.trans referring)
  obtain ⟨d, written⟩ := exists_written accepted ⟨_, present, referring⟩
  obtain ⟨front, back, bytes, length, filled⟩ := fits.bytesWith
  have window : site.window memory program index = offsetAt memory program index + front.length := by
    rw [Site.window, length]
  have zeros : Instr.zeroWord.length = 4 := rfl
  rw [bytes, List.length_append, List.length_append] at stop ⊢
  rw [bytes] at holds
  refine ⟨d, ?_, ?_⟩
  case refine_2 =>
    rw [filled d, List.length_append, List.length_append, Relocation.length_displacementBytes]
    omega
  rw [filled d]
  refine .append ?_ (.append (window ▸ written) ?_)
  · refine holds_of_emitted accepted within holds.left (Nat.le_refl _) (by omega) ?_
    intro other again
    rw [only other again]
    omega
  · rw [Relocation.length_displacementBytes]
    refine holds_of_emitted accepted within holds.right.right (by omega) (by omega) ?_
    intro other again
    rw [only other again]
    omega

end Image

/-- Only code and `org` take up room. -/
theorem offsetAt_of_not_isCode (emitted : (emissionOf memory program).2 = none)
    (present : program[index]? = some ⟨op, pos⟩) (notCode : op.isCode = false)
    (unmoved : ∀ address, op ≠ .org address) :
    offsetAt memory program (index + 1) = offsetAt memory program index := by
  unfold offsetAt
  rw [Emitter.before_of_declaration emitted present notCode unmoved]

theorem lower_of_not_isCode (symbols : SymbolTable) (notCode : op.isCode = false) :
    lower symbols op = [] := by
  cases op with
  | label | var | buffer | org => rfl
  | _ => cases notCode

theorem disassembles_nil : Disassembles [] [] where
  same := rfl
  lawful _ member := by cases member

theorem Disassembles.append {first second : List Step} {front back : List Decoded}
    (left : Disassembles first front) (right : Disassembles second back) :
    Disassembles (first ++ second) (front ++ back) where
  same := by rw [List.map_append, List.map_append, left.same, right.same]
  lawful := List.forall_mem_append.mpr ⟨left.lawful, right.lawful⟩

/-- Instructions without a displacement are decoded as they were emitted. -/
theorem disassembles_of_silent {steps : List Step} (decodable : Each Decodable (steps.map .ok))
    (silent : Each Silent (steps.map .ok)) :
    Disassembles steps (steps.map fun s => ⟨s.instr, none⟩) ∧
      (steps.map fun s => ⟨s.instr, none⟩).flatMap Decoded.bytes = steps.flatMap Step.bytes := by
  have unplaced (s : Step) (member : s ∈ steps) : s.instr.displacementOffset = none := by
    have made : .ok s ∈ steps.map (Except.ok (ε := Fault)) := List.mem_map_of_mem member
    obtain ⟨_, placed⟩ := decodable _ made s rfl
    rw [silent _ made s rfl] at placed
    exact Option.isSome_eq_false_iff.mp placed.symm |> Option.isNone_iff_eq_none.mp
  refine ⟨⟨by rw [List.map_map]; rfl, ?_⟩, ?_⟩
  · refine List.forall_mem_map.mpr fun s member => ⟨?_, ?_⟩
    · exact (decodable _ (List.mem_map_of_mem member) s rfl).1
    · rw [unplaced s member]
      rfl
  · rw [List.flatMap_map, List.flatMap_def, List.flatMap_def]
    congr 1
    exact List.map_congr_left fun s member => Instr.bytesWith_of_none (unplaced s member) _

section Image

variable (accepted : X64.generate memory program = .ok image)
include accepted

/-- The code of an instruction in the image is that of its steps, with displacements written in. -/
theorem disassembled_at (present : program[index]? = some ⟨op, pos⟩)
    (unmoved : ∀ address, op ≠ .org address) :
    ∃ (steps : List Step) (decoded : List Decoded), lower image.symbols op = steps.map .ok ∧
      Disassembles steps decoded ∧
      Holds image.code (offsetAt memory program index) (decoded.flatMap Decoded.bytes) ∧
      offsetAt memory program (index + 1) =
        offsetAt memory program index + (decoded.flatMap Decoded.bytes).length := by
  obtain ⟨_, _, emitted, _⟩ := generate_eq_ok_iff.mp accepted
  have symbols : image.symbols = (start memory program).symbols := symbols_of_generate accepted
  cases isCode : op.isCode with
  | false =>
    refine ⟨[], [], lower_of_not_isCode _ isCode, disassembles_nil, ?_, ?_⟩
    · intro place within
      cases within
    · exact offsetAt_of_not_isCode emitted present isCode unmoved
  | true =>
    obtain ⟨steps, lowered, stop, holds, _⟩ := lowered_at emitted present isCode
    have decodable : Each Decodable (steps.map .ok) := lowered ▸ decodable_lower _ _
    cases referring : site? op with
    | none =>
      obtain ⟨disassembles, asEmitted⟩ :=
        disassembles_of_silent decodable (lowered ▸ silent_lower _ referring)
      refine ⟨steps, _, symbols ▸ lowered, disassembles, ?_, ?_⟩
      · rw [asEmitted]
        exact holds_of_silent accepted present referring holds stop
      · rw [asEmitted]
        exact stop
    | some site =>
      obtain ⟨s, rfl, fits⟩ := Site.fits_of_lower referring lowered
      rw [List.flatMap_singleton] at stop holds
      obtain ⟨d, holds, length⟩ := holds_of_site accepted present referring fits holds stop
      refine ⟨[s], [⟨s.instr, some d⟩], symbols ▸ lowered, ⟨rfl, ?_⟩, ?_, ?_⟩
      · refine List.forall_mem_singleton.mpr ⟨(decodable _ List.mem_cons_self s rfl).1, ?_⟩
        rw [fits.field]
        rfl
      · rw [List.flatMap_singleton]
        exact holds
      · rw [List.flatMap_singleton, stop, ← length]
        rfl

/-- Up to every instruction, the code of the image is that of the steps so far. -/
theorem disassembled_before (unmoved : ∀ i ∈ program, ∀ address, i.op ≠ .org address)
    (within : index ≤ program.length) :
    ∃ (steps : List Step) (decoded : List Decoded),
      (program.take index).flatMap (fun i => lower image.symbols i.op) = steps.map .ok ∧
      Disassembles steps decoded ∧
      image.code.toList.take (offsetAt memory program index) = decoded.flatMap Decoded.bytes := by
  induction index with
  | zero => exact ⟨[], [], rfl, disassembles_nil, rfl⟩
  | succ index ih =>
    obtain ⟨steps, decoded, lowered, disassembles, front⟩ := ih (Nat.le_of_succ_le within)
    have present := List.getElem?_eq_getElem (l := program) (i := index) within
    obtain ⟨more, added, next, disassembles', holds, stop⟩ :=
      disassembled_at accepted present (unmoved _ (List.getElem_mem within))
    have next : lower image.symbols program[index].op = more.map .ok := next
    refine ⟨steps ++ more, decoded ++ added, ?_, disassembles.append disassembles', ?_⟩
    · rw [List.take_succ_eq_append_getElem within, List.flatMap_append, lowered,
        List.flatMap_singleton, next, List.map_append]
    · rw [stop, holds.take_eq, front, List.flatMap_append]

end Image

/-- x86-64 code can be decoded in one way only. Any instruction that lowering gives is read back from
its bytes, with whatever displacement is written into it and whatever follows. So, if there is no
`org`, the code of an image decodes to the instructions that its program was lowered to. -/
theorem code_decodes_uniquely :
    (∀ (i : Instr) (d : Int32) (rest : List UInt8), i.Emittable →
      Decoder.decode (i.bytesWith d ++ rest) =
        some (⟨i, i.displacementOffset.map fun _ => d⟩, rest)) ∧
    (∀ program image, CrossAsm.generate memory .x64 program = .ok image →
      (∀ i ∈ program, ∀ address, i.op ≠ .org address) →
      ∃ (steps : List Step) (decoded : List Decoded),
        program.flatMap (fun i => lower image.symbols i.op) = steps.map .ok ∧
        Decoder.decodeAll image.instructions = some decoded ∧
        decoded.map Decoded.instr = steps.map Step.instr) := by
  refine ⟨?_, ?_⟩
  · intro i d rest emittable
    exact Decoder.decode_bytesWith emittable d rest
  · intro program image accepted unmoved
    obtain ⟨steps, decoded, lowered, disassembles, code⟩ :=
      disassembled_before accepted unmoved (Nat.le_refl program.length)
    refine ⟨steps, decoded, ?_, ?_, disassembles.same⟩
    · rwa [List.take_length] at lowered
    · have size : offsetAt memory program program.length = image.codeSize := by
        rw [codeSize_of_generate accepted, ← size_emissionOf accepted, offsetAt, Emitter.before_length]
        rfl
      rw [Image.instructions, ← size, code]
      exact Decoder.decodeAll_flatMap_bytes disassembles.lawful

/-- A store whose displacement stands before its immediate, which the jump after it goes back to, and a
division through a borrowed register. -/
theorem code_decodes_uniquely_around_immediate :
    let program : List Instruction :=
      [⟨.label "again", ⟨1, 1⟩⟩, ⟨.set "count" (.imm 7), ⟨2, 1⟩⟩, ⟨.jmp "again", ⟨3, 1⟩⟩,
        ⟨.product .mod ⟨5⟩ (.reg ⟨1⟩), ⟨4, 1⟩⟩, ⟨.var "count" none, ⟨5, 1⟩⟩]
    Decoder.decode (Instr.bytesWith (.storeRipImm 7) (-11) ++ [0xE9]) =
      some (⟨.storeRipImm 7, some (-11)⟩, [0xE9]) ∧
    ∃ image, CrossAsm.generate .ofProcess .x64 program = .ok image ∧
      ∃ (steps : List Step) (decoded : List Decoded),
        program.flatMap (fun i => lower image.symbols i.op) = steps.map .ok ∧
        Decoder.decodeAll image.instructions = some decoded ∧
        decoded.map Decoded.instr = steps.map Step.instr := by
  intro program
  obtain ⟨ofInstr, ofImage⟩ := code_decodes_uniquely
  obtain ⟨image, generated⟩ : ∃ image, CrossAsm.generate .ofProcess .x64 program = .ok image := ⟨_, rfl⟩
  refine ⟨ofInstr (.storeRipImm 7) (-11) [0xE9] trivial, image, generated, ?_⟩
  apply ofImage program image generated
  intro i member address
  simp only [program, List.mem_cons, List.not_mem_nil, or_false] at member
  rcases member with rfl | rfl | rfl | rfl | rfl <;> simp

end X64

end CrossAsm
