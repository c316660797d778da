import CrossAsm.Proofs.PassAgreement
import CrossAsm.Proofs.X64.Data
import CrossAsm.Proofs.X64.Sites

/-!
References in a finished x86-64 image. The relocations kept during emission are those of the
displacements in the program, in order, so their windows are apart. When they have been filled in,
each displacement reaches from the end of its instruction to the symbol it refers to, and all other
code is as it was emitted (`references_reach_targets`).
-/
namespace CrossAsm.X64

variable {memory : Memory}

variable {program : List Instruction} {image : Image} {index : Nat} {site : Site}

/-- The instruction at `index` has a displacement. -/
def Site.At (site : Site) (program : List Instruction) (index : Nat) : Prop :=
  ∃ i, program[index]? = some i ∧ site? i.op = some site

/-- The offset of the four bytes of the displacement. -/
def Site.window (memory : Memory) (site : Site) (program : List Instruction) (index : Nat) : Nat :=
  offsetAt memory program index + site.field

/-- The relocation of the instruction at `index`, if it has a displacement. -/
def relocationAt (memory : Memory) (program : List Instruction) (index : Nat) : Option Relocation :=
  program[index]?.bind fun i => (site? i.op).map fun site =>
    site.relocation i.pos (offsetAt memory program index)

theorem exists_site_of_relocationAt {r : Relocation} (kept : relocationAt memory program index = some r) :
    ∃ site : Site, site.At program index ∧ r.patch = site.window memory program index := by
  obtain ⟨i, present, kept⟩ := Option.bind_eq_some_iff.mp kept
  obtain ⟨site, referring, rfl⟩ := Option.map_eq_some_iff.mp kept
  exact ⟨site, ⟨i, present, referring⟩, rfl⟩

theorem Site.At.relocationAt (stands : site.At program index) :
    ∃ pos, relocationAt memory program index =
      some (site.relocation pos (offsetAt memory program index)) := by
  obtain ⟨i, present, referring⟩ := stands
  exact ⟨i.pos, by rw [X64.relocationAt, present, Option.bind_some, referring, Option.map_some]⟩

theorem Site.At.stop_le_width (stands : site.At program index) : site.field + 4 ≤ site.width := by
  obtain ⟨_, _, referring⟩ := stands
  exact Site.stop_le_width referring

section Emission

variable (emitted : (emissionOf memory program).2 = none)
include emitted

theorem relocations_succ {i : Instruction} (present : program[index]? = some i) :
    ((emitter memory).before (start memory program) program (index + 1)).relocations =
      ((emitter memory).before (start memory program) program index).relocations ++
        (relocationAt memory program index).toList := by
  have kept : relocationAt memory program index =
      (site? i.op).map fun site => site.relocation i.pos (offsetAt memory program index) := by
    rw [relocationAt, present, Option.bind_some]
  cases isCode : i.op.isCode with
  | true =>
    obtain ⟨steps, lowered, _, _, added⟩ := lowered_at emitted present isCode
    rw [added, relocationsOf_lower lowered, kept]
  | false =>
    have unreferring : site? i.op = none := by
      cases referring : site? i.op with
      | none => rfl
      | some site =>
        rw [Site.isCode_of_site? referring] at isCode
        cases isCode
    rw [relocations_of_not_isCode emitted present isCode, kept, unreferring]
    exact (List.append_nil _).symm

theorem relocations_before (within : index ≤ program.length) :
    ((emitter memory).before (start memory program) program index).relocations =
      (List.range index).filterMap (relocationAt memory program) := by
  induction index with
  | zero => rfl
  | succ index ih =>
    have present := List.getElem?_eq_getElem (l := program) (i := index) within
    rw [relocations_succ emitted present, ih (Nat.le_of_succ_le within), List.range_succ,
      List.filterMap_append]
    cases kept : relocationAt memory program index <;> simp [kept]

/-- The relocations that emission keeps are those of the instructions, in order. -/
theorem relocations_emissionOf :
    (emissionOf memory program).1.relocations =
      (List.range program.length).filterMap (relocationAt memory program) := by
  rw [emissionOf, ← Emitter.before_length]
  exact relocations_before emitted (Nat.le_refl _)

theorem mem_relocations_iff {r : Relocation} :
    r ∈ (emissionOf memory program).1.relocations ↔
      ∃ index, relocationAt memory program index = some r := by
  rw [relocations_emissionOf emitted, List.mem_filterMap]
  constructor
  · rintro ⟨index, _, kept⟩
    exact ⟨index, kept⟩
  · rintro ⟨index, kept⟩
    obtain ⟨i, present, _⟩ := Option.bind_eq_some_iff.mp kept
    exact ⟨index, List.mem_range.mpr (List.getElem?_eq_some_iff.mp present).1, kept⟩

theorem offsetAt_le {first last : Nat} (order : first ≤ last) :
    offsetAt memory program first ≤ offsetAt memory program last :=
  emitter_appends.offset_before_le emitted order

/-- The code of an instruction with a displacement: its size, and zeros for the displacement. -/
theorem code_of_site (stands : site.At program index) :
    offsetAt memory program (index + 1) = offsetAt memory program index + site.width ∧
      Holds (emissionOf memory program).1.code.bytes (site.window memory program index) Instr.zeroWord := by
  obtain ⟨i, present, referring⟩ := stands
  obtain ⟨steps, lowered, stop, holds, _⟩ :=
    lowered_at emitted present (Site.isCode_of_site? referring)
  obtain ⟨s, rfl, fits⟩ := Site.fits_of_lower referring lowered
  rw [List.flatMap_singleton] at stop holds
  obtain ⟨front, back, bytes, length⟩ := fits.blank
  rw [bytes] at holds
  refine ⟨by rw [stop, fits.width], ?_⟩
  rw [Site.window, ← length]
  exact holds.right.left

theorem window_stop_le (stands : site.At program index) :
    site.window memory program index + 4 ≤ offsetAt memory program (index + 1) := by
  have inside := stands.stop_le_width
  rw [(code_of_site emitted stands).1, Site.window]
  omega

/-- The displacements of different instructions do not meet. -/
theorem windows_apart {first last : Nat} {a b : Site} (order : first < last)
    (earlier : a.At program first) : a.window memory program first + 4 ≤ b.window memory program last := by
  have stop := window_stop_le emitted earlier
  have later := offsetAt_le emitted (show first + 1 ≤ last from order)
  unfold Site.window at *
  omega

theorem relocations_apart : (emissionOf memory program).1.relocations.Pairwise Relocation.Apart := by
  rw [relocations_emissionOf emitted, List.pairwise_filterMap]
  refine List.pairwise_lt_range.imp ?_
  intro first last order r kept r' kept'
  obtain ⟨a, earlier, patch⟩ := exists_site_of_relocationAt kept
  obtain ⟨b, _, patch'⟩ := exists_site_of_relocationAt kept'
  rw [Relocation.Apart, patch, patch']
  exact .inl (windows_apart emitted order earlier)

end Emission

/-- What a name stands for in an image: the offset of the code after a label, or the address of data
behind the code. -/
inductive Denotes (memory : Memory) (program : List Instruction) (image : Image) :
    Reference → String → Nat → Prop
  | label {name : String} {index : Nat} {pos : Position}
      (present : program[index]? = some ⟨.label name, pos⟩) :
    Denotes memory program image .code name (offsetAt memory program index)
  | data {name : String} {symbol : Symbol}
      (laid : (layoutOf memory program).1.symbols.get? name = some symbol) (isData : symbol.kind.isData) :
    Denotes memory program image .data name (symbol.address + image.codeSize)

/-- The displacement of the instruction at `index` is filled in as it should be. -/
structure Site.Resolved (memory : Memory) (site : Site) (program : List Instruction) (image : Image)
    (index : Nat) : Prop where
  /-- The instruction ends where the next one starts. -/
  stop : offsetAt memory program (index + 1) = offsetAt memory program index + site.width
  /-- The four bytes belong to the instruction, and the instruction to the code. -/
  inside : site.window memory program index + 4 ≤ offsetAt memory program (index + 1) ∧
    offsetAt memory program (index + 1) ≤ image.codeSize
  /-- They are zero when emitted. -/
  blank : Holds (emissionOf memory program).1.code.bytes (site.window memory program index) Instr.zeroWord
  /-- In the image, they lead from the end of the instruction to what its name stands for. -/
  reaches : ∃ symbol, image.symbols.get? site.name = some symbol ∧
    Denotes memory program image site.reference site.name symbol.address ∧
    signedWordAt image.code (site.window memory program index) + offsetAt memory program (index + 1) =
      symbol.address

section Image

variable (accepted : X64.generate memory program = .ok image)
include accepted

theorem offsetAt_le_codeSize (within : index ≤ program.length) :
    offsetAt memory program index ≤ image.codeSize := by
  obtain ⟨_, _, emitted, _⟩ := generate_eq_ok_iff.mp accepted
  rw [codeSize_of_generate accepted]
  exact (inStep_of_generate accepted).offset_le emitter_appends emitted within

/-- Every address is low enough to be the same number when it is read as a signed word. -/
theorem Denotes.lt_memoryLimit {reference : Reference} {name : String} {address : Nat}
    (denotes : Denotes memory program image reference name address) :
    address < memory.limit := by
  obtain ⟨laid, room, _⟩ := generate_eq_ok_iff.mp accepted
  cases denotes with
  | label present =>
    have within := offsetAt_le_codeSize accepted
      (Nat.le_of_lt (List.getElem?_eq_some_iff.mp present).1)
    rw [codeSize_of_generate accepted] at within
    omega
  | @data _ symbol known isData =>
    have within : symbol.address ≤ (layoutOf memory program).1.storage.size :=
      address_le_size laid rfl known isData
    rw [codeSize_of_generate accepted]
    omega

/-- What relocations resolve to is what their names stand for. -/
theorem denotes_of_target {r : Relocation} {target : Nat}
    (found : r.target image.symbols = .ok target) :
    ∃ symbol, image.symbols.get? r.name = some symbol ∧
      Denotes memory program image r.reference r.name symbol.address ∧ symbol.address = target := by
  unfold Relocation.target at found
  cases reference : r.reference with
  | code =>
    rw [reference] at found
    have known := SymbolTable.resolveLabel_eq_ok_iff.mp found
    obtain ⟨index, pos, present, rfl⟩ := (label_of_generate accepted).mp known
    exact ⟨_, known, .label present, rfl⟩
  | data =>
    rw [reference] at found
    obtain ⟨symbol, resolved, rfl⟩ := map_eq_ok_iff.mp found
    obtain ⟨known, isData⟩ := SymbolTable.resolveData_eq_ok_iff.mp resolved
    refine ⟨symbol, known, ?_, rfl⟩
    rw [symbols_of_generate accepted, SymbolTable.get?_rebaseData] at known
    obtain ⟨unmoved, laid, rfl⟩ := Option.map_eq_some_iff.mp known
    rw [Symbol.kind_moved] at isData
    rw [Symbol.moved_data isData, ← codeSize_of_generate accepted]
    exact .data laid isData

/-- A relocation that has been kept reaches, in the image, what its name stands for. -/
theorem reaches_of_relocationAt {r : Relocation} (kept : relocationAt memory program index = some r)
    (low : r.stop < memory.limit) :
    ∃ symbol, image.symbols.get? r.name = some symbol ∧
      Denotes memory program image r.reference r.name symbol.address ∧
      signedWordAt image.code r.patch + r.stop = symbol.address := by
  obtain ⟨_, _, emitted, _⟩ := generate_eq_ok_iff.mp accepted
  obtain ⟨code, resolved, whole⟩ := resolved_of_generate accepted
  have member := (mem_relocations_iff emitted).mpr ⟨index, kept⟩
  obtain ⟨d, made, holds⟩ :=
    Relocation.holds_of_resolveAll resolved (relocations_apart emitted) member
  obtain ⟨target, found, distance⟩ := Relocation.toInt_of_displacement made
  obtain ⟨symbol, known, denotes, rfl⟩ := denotes_of_target accepted found
  refine ⟨symbol, known, denotes, ?_⟩
  have bound := denotes.lt_memoryLimit accepted
  rw [whole, Relocation.signedWordAt_of_holds (CodeBuffer.holds_append holds _), distance,
    signedDistance_of_lt bound low]
  omega

theorem resolved_at (stands : site.At program index) : site.Resolved memory program image index := by
  obtain ⟨laid, room, emitted, _⟩ := generate_eq_ok_iff.mp accepted
  obtain ⟨stop, blank⟩ := code_of_site emitted stands
  obtain ⟨pos, kept⟩ := stands.relocationAt
  have within : index + 1 ≤ program.length := by
    obtain ⟨i, present, _⟩ := stands
    exact (List.getElem?_eq_some_iff.mp present).1
  have inside := offsetAt_le_codeSize accepted within
  refine ⟨stop, ⟨window_stop_le emitted stands, inside⟩, blank, ?_⟩
  have low : offsetAt memory program index + site.width < memory.limit := by
    rw [codeSize_of_generate accepted] at inside
    omega
  obtain ⟨symbol, known, denotes, distance⟩ := reaches_of_relocationAt accepted kept low
  refine ⟨symbol, known, denotes, ?_⟩
  rw [stop]
  exact distance

/-- Code outside the displacements is as it was emitted. -/
theorem code_of_outside {offset : Nat} (inside : offset < image.codeSize)
    (outside : ∀ index site, Site.At site program index →
      offset < site.window memory program index ∨ site.window memory program index + 4 ≤ offset) :
    image.code[offset]? = (emissionOf memory program).1.code.bytes[offset]? := by
  obtain ⟨_, _, emitted, _⟩ := generate_eq_ok_iff.mp accepted
  obtain ⟨code, resolved, whole⟩ := resolved_of_generate accepted
  have size : code.size = image.codeSize := by
    rw [Relocation.size_of_resolveAll resolved, size_emissionOf accepted,
      codeSize_of_generate accepted]
  rw [whole, CodeBuffer.getElem?_append_of_lt (size ▸ inside)]
  apply Relocation.getElem?_of_resolveAll resolved
  intro r member
  obtain ⟨index, kept⟩ := (mem_relocations_iff emitted).mp member
  obtain ⟨site, stands, patch⟩ := exists_site_of_relocationAt kept
  rw [patch]
  exact outside index site stands

end Image

/-- References point where they should in every image. Each displacement in the program lies in the
code of its own instruction, is zero when emitted, and in the image leads from the end of the
instruction to what its name stands for. No two of them meet, and the rest of the code is as it was
emitted. -/
theorem references_reach_targets (accepted : CrossAsm.generate memory .x64 program = .ok image) :
    (∀ index site, Site.At site program index → site.Resolved memory program image index) ∧
    (∀ first last a b, first < last → Site.At a program first → Site.At b program last →
      a.window memory program first + 4 ≤ b.window memory program last) ∧
    (∀ offset < image.codeSize,
      (∀ index site, Site.At site program index →
        offset < site.window memory program index ∨ site.window memory program index + 4 ≤ offset) →
      image.code[offset]? = (emissionOf memory program).1.code.bytes[offset]?) := by
  obtain ⟨_, _, emitted, _⟩ := generate_eq_ok_iff.mp accepted
  refine ⟨?_, ?_, ?_⟩
  · intro index site stands
    exact resolved_at accepted stands
  · intro first last a b order earlier _
    exact windows_apart emitted order earlier
  · intro offset inside outside
    exact code_of_outside accepted inside outside

/-- A store of an immediate has its displacement in the middle: from its end at eleven it leads to the
variable behind the code, and from the end of the jump after it the way is back to its start. -/
theorem references_reach_targets_around_immediate :
    let program : List Instruction :=
      [⟨.label "again", ⟨1, 1⟩⟩, ⟨.set "count" (.imm 7), ⟨2, 1⟩⟩, ⟨.jmp "again", ⟨3, 1⟩⟩,
        ⟨.var "count" none, ⟨4, 1⟩⟩]
    ∃ image, CrossAsm.generate .ofProcess .x64 program = .ok image ∧
      Site.Resolved .ofProcess ⟨"count", .data, 3, 11⟩ program image 1 ∧
      Site.Resolved .ofProcess ⟨"again", .code, 1, 5⟩ program image 2 := by
  intro program
  obtain ⟨image, generated⟩ : ∃ image, CrossAsm.generate .ofProcess .x64 program = .ok image := ⟨_, rfl⟩
  obtain ⟨resolved, _⟩ := references_reach_targets generated
  exact ⟨image, generated, resolved 1 _ ⟨_, rfl, rfl⟩, resolved 2 _ ⟨_, rfl, rfl⟩⟩

end CrossAsm.X64
