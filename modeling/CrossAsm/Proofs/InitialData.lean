import CrossAsm.Proofs.Mcs51.Ram
import CrossAsm.Proofs.PassAgreement
import CrossAsm.Proofs.X64.Data

/-!
The initial data of an image. All storage that a program declares stands in the order of its
declarations, without gaps, behind the code or in internal RAM. Variables read as their initial
values, and every other byte is zero (`initial_data_of_image`).
-/
namespace CrossAsm

variable {memory : Memory}

namespace Arch

/-- The bytes that a variable takes. -/
def wordSize : Arch → Nat
  | mcs51 => 1
  | x64 => 8

/-- What a variable reads as at first: a byte without a sign, or a signed word. -/
def initialValue : Arch → Option Int64 → Int
  | mcs51, init => (init.getD 0).toInt % 256
  | x64, init => (init.getD 0).toInt

end Arch

namespace Image

/-- The address of the first declared byte. -/
def dataStart (image : Image) : Nat :=
  match image.arch with
  | .mcs51 => 0x30
  | .x64 => image.codeSize

/-- The byte at an address of data memory: of internal RAM, or of the image behind the code. -/
def dataByte? (image : Image) (address : Nat) : Option UInt8 :=
  match image.arch with
  | .mcs51 => image.ram[address]?
  | .x64 => if image.codeSize ≤ address then image.code[address]? else none

/-- The address of the storage that the instruction at `index` declares. -/
def storageAt (image : Image) (program : List Instruction) (index : Nat) : Nat :=
  image.dataStart + storageBefore image.arch.wordSize program index

end Image

/-- The instruction at `index` declares a variable with an initial value, to which the address
belongs. -/
def Initialised (program : List Instruction) (image : Image) (address index : Nat) : Prop :=
  ∃ name init pos, program[index]? = some ⟨.var name (some init), pos⟩ ∧
    image.storageAt program index ≤ address ∧
    address < image.storageAt program index + image.arch.wordSize

/-- The data memory of an image is as the program declares it. -/
structure InitialData (program : List Instruction) (image : Image) : Prop where
  /-- Storage stands in the order of its declarations, without gaps. -/
  consecutive : ∀ index i, program[index]? = some i →
    image.storageAt program (index + 1) =
      image.storageAt program index + i.op.storage image.arch.wordSize
  apart : ∀ first last i, first < last → program[first]? = some i →
    image.storageAt program first + i.op.storage image.arch.wordSize ≤ image.storageAt program last
  /-- In internal RAM, storage lies between the bit-addressable area and the end. -/
  inRam : image.arch = .mcs51 → image.storageAt program 0 = 0x30 ∧
    image.storageAt program program.length ≤ 0x80 ∧ image.ram.length = 0x80
  /-- Otherwise it is all that stands behind the code. -/
  behindCode : image.arch = .x64 → image.storageAt program 0 = image.codeSize ∧
    image.storageAt program program.length = image.code.size
  var : ∀ index name init pos, program[index]? = some ⟨.var name init, pos⟩ →
    image.symbols.get? name = some ⟨.var, image.storageAt program index⟩ ∧
      image.readVariable name = some (image.arch.initialValue init)
  buffer : ∀ index name length pos, program[index]? = some ⟨.buffer name length, pos⟩ →
    image.symbols.get? name = some ⟨.buffer, image.storageAt program index⟩ ∧
      image.readVariable name = none
  label : ∀ (index : Nat) name pos, program[index]? = some ⟨.label name, pos⟩ →
    image.readVariable name = none
  undeclared : ∀ name, (∀ (index : Nat) i, program[index]? = some i → i.op.declares? ≠ some name) →
    image.readVariable name = none
  /-- What belongs to no initialised variable is zero. -/
  zero : ∀ address byte, image.dataByte? address = some byte →
    (∀ index, ¬ Initialised program image address index) → byte = 0

section Contents

variable {program : List Instruction} {index : Nat} {i : Instruction} {f : Instruction → List UInt8}

theorem flatMap_split (f : Instruction → List UInt8) (present : program[index]? = some i) :
    program.flatMap f =
      (program.take index).flatMap f ++ (f i ++ (program.drop (index + 1)).flatMap f) := by
  obtain ⟨within, rfl⟩ := List.getElem?_eq_some_iff.mp present
  have rest : program.drop index = program[index] :: program.drop (index + 1) :=
    List.drop_eq_getElem_cons within
  calc program.flatMap f
    _ = (program.take index ++ program.drop index).flatMap f := by rw [List.take_append_drop]
    _ = _ := by rw [List.flatMap_append, rest, List.flatMap_cons]

/-- Every byte belongs to one of the instructions. -/
theorem exists_of_getElem?_flatMap {offset : Nat} {byte : UInt8}
    (found : (program.flatMap f)[offset]? = some byte) :
    ∃ index i inner, program[index]? = some i ∧ (f i)[inner]? = some byte ∧
      offset = ((program.take index).flatMap f).length + inner := by
  induction program generalizing offset with
  | nil => simp at found
  | cons first rest ih =>
    rw [List.flatMap_cons, List.getElem?_append] at found
    split at found
    next inside => exact ⟨0, first, offset, rfl, found, by simp⟩
    next outside =>
      obtain ⟨index, i, inner, present, byteAt, reached⟩ := ih found
      refine ⟨index + 1, i, inner, present, byteAt, ?_⟩
      rw [List.take_succ_cons, List.flatMap_cons, List.length_append]
      omega

/-- The contents of declared storage are zero, those of initialised variables apart. -/
theorem initial_eq_zero {value : Option Int64 → List UInt8} (blank : ∀ byte ∈ value none, byte = 0)
    {op : Operation} {inner : Nat} {byte : UInt8} (found : (op.initial value)[inner]? = some byte)
    (uninitialised : ∀ name init, op ≠ .var name (some init)) : byte = 0 := by
  have member := List.mem_of_getElem? found
  cases op with
  | var name init =>
    cases init with
    | none => exact blank byte member
    | some init => exact absurd rfl (uninitialised name init)
  | buffer name length => exact List.eq_of_mem_replicate member
  | _ => cases member

/-- A byte of the contents that belongs to no initialised variable is zero. -/
theorem contents_eq_zero {value : Option Int64 → List UInt8} {word : Nat}
    (sized : ∀ init, (value init).length = word) (blank : ∀ byte ∈ value none, byte = 0)
    {offset : Nat} {byte : UInt8}
    (found : (program.flatMap fun i => i.op.initial value)[offset]? = some byte)
    (outside : ∀ index name init pos, program[index]? = some ⟨.var name (some init), pos⟩ →
      ¬ (storageBefore word program index ≤ offset ∧
        offset < storageBefore word program index + word)) : byte = 0 := by
  obtain ⟨index, ⟨op, pos⟩, inner, present, byteAt, reached⟩ := exists_of_getElem?_flatMap found
  rw [length_flatMap_initial sized] at reached
  apply initial_eq_zero blank byteAt
  rintro name init rfl
  have inside : inner < word := by
    rw [← sized (some init)]
    exact (List.getElem?_eq_some_iff.mp byteAt).1
  exact outside index name init pos present (by omega)

end Contents

section Addresses

variable {program : List Instruction} {image : Image}

theorem storageAt_succ {index : Nat} {i : Instruction} (present : program[index]? = some i) :
    image.storageAt program (index + 1) =
      image.storageAt program index + i.op.storage image.arch.wordSize := by
  rw [Image.storageAt, Image.storageAt, storageBefore_succ _ present, Nat.add_assoc]

theorem storageAt_apart {first last : Nat} {i : Instruction} (order : first < last)
    (present : program[first]? = some i) :
    image.storageAt program first + i.op.storage image.arch.wordSize ≤
      image.storageAt program last := by
  rw [← storageAt_succ present]
  exact Nat.add_le_add_left (storageBefore_le _ _ order) _

/-- Only names of variables have values. -/
theorem readVariable_eq_none {name : String}
    (other : ∀ address, image.symbols.get? name ≠ some ⟨.var, address⟩) :
    image.readVariable name = none := by
  unfold Image.readVariable
  rcases known : image.symbols.get? name with _ | ⟨kind, address⟩
  · rfl
  · cases kind with
    | var => exact absurd known (other address)
    | label | buffer => rfl

theorem readVariable_of_mcs51 {name : String} {address : Nat}
    (known : image.symbols.get? name = some ⟨.var, address⟩) (arch : image.arch = .mcs51) :
    image.readVariable name = image.ram[address]?.map fun b => (b.toNat : Int) := by
  unfold Image.readVariable
  rw [known, arch]
  rfl

theorem readVariable_of_x64 {name : String} {address : Nat}
    (known : image.symbols.get? name = some ⟨.var, address⟩) (arch : image.arch = .x64) :
    image.readVariable name = (image.word? address).map Int64.toInt := by
  unfold Image.readVariable
  rw [known, arch]
  rfl

end Addresses

section Table

variable {sizer : Sizer} {program : List Instruction} {image : Image} {name : String}

/-- Names that are declared as something else than a variable, or not at all, have no value. -/
theorem readVariable_eq_none_of_kind {symbol : Symbol} (known : image.symbols.get? name = some symbol)
    (other : symbol.kind ≠ .var) : image.readVariable name = none := by
  apply readVariable_eq_none
  intro address found
  cases known.symm.trans found
  exact other rfl

theorem readVariable_of_undeclared {base word : Nat}
    (lists : image.symbols.Lists sizer base word program)
    (undeclared : ∀ (index : Nat) i, program[index]? = some i → i.op.declares? ≠ some name) :
    image.readVariable name = none := by
  apply readVariable_eq_none
  intro address found
  obtain ⟨index, i, present, declared⟩ := (lists name _).mp found
  exact undeclared index i present (declares?_of_symbolAt? declared)

/-- With a table as it should be, it remains to see to the bytes. -/
theorem initialData_of_lists
    (lists : image.symbols.Lists sizer image.dataStart image.arch.wordSize program)
    (inRam : image.arch = .mcs51 → image.storageAt program 0 = 0x30 ∧
      image.storageAt program program.length ≤ 0x80 ∧ image.ram.length = 0x80)
    (behindCode : image.arch = .x64 → image.storageAt program 0 = image.codeSize ∧
      image.storageAt program program.length = image.code.size)
    (value : ∀ (index : Nat) name init pos, program[index]? = some ⟨.var name init, pos⟩ →
      image.readVariable name = some (image.arch.initialValue init))
    (zero : ∀ address byte, image.dataByte? address = some byte →
      (∀ index, ¬ Initialised program image address index) → byte = 0) :
    InitialData program image where
  consecutive _ _ present := storageAt_succ present
  apart _ _ _ order present := storageAt_apart order present
  inRam := inRam
  behindCode := behindCode
  var index name init pos present := ⟨lists.var present, value index name init pos present⟩
  buffer _ _ _ _ present :=
    ⟨lists.buffer present, readVariable_eq_none_of_kind (lists.buffer present) (by simp)⟩
  label _ _ _ present := readVariable_eq_none_of_kind (lists.label present) (by simp)
  undeclared _ undeclared := readVariable_of_undeclared lists undeclared
  zero := zero

end Table

namespace Mcs51

variable {program : List Instruction} {image : Image}

section Accepted

variable (accepted : Mcs51.generate memory program = .ok image)
include accepted

theorem arch_of_generate : image.arch = .mcs51 := by
  obtain ⟨_, _, _, rfl⟩ := generate_eq_ok_iff.mp accepted
  rfl

theorem lists_of_generate :
    image.symbols.Lists sizer image.dataStart image.arch.wordSize program := by
  obtain ⟨laid, _⟩ := generate_eq_ok_iff.mp accepted
  rw [symbols_of_generate accepted, Image.dataStart, arch_of_generate accepted]
  exact Layout.lists_run Ram.allocator_consecutive laid .nil

/-- Internal RAM holds the declared storage. -/
theorem holds_of_generate : (layoutOf program).1.storage.Holds
    (program.flatMap fun i => i.op.initial fun init => [Ram.variableByte init]) := by
  obtain ⟨laid, _⟩ := generate_eq_ok_iff.mp accepted
  exact Layout.holds_run Ram.allocator_consecutive laid .nil

theorem storageBefore_le_of_generate : storageBefore 1 program program.length ≤ 0x50 := by
  rw [← length_contents Ram.allocator_consecutive.sized]
  exact (holds_of_generate accepted).length_le

/-- The declared storage stands above zeros and below zeros. -/
theorem ram_of_generate :
    image.ram = List.replicate 0x30 0 ++
      ((program.flatMap fun i => i.op.initial fun init => [Ram.variableByte init]) ++
        List.replicate (0x50 - storageBefore 1 program program.length) 0) := by
  have holds := holds_of_generate accepted
  have total := length_contents Ram.allocator_consecutive.sized program
  have free : Ram.size - (layoutOf program).1.storage.next =
      0x50 - storageBefore 1 program program.length := by
    rw [holds.next_eq, total]
    unfold Ram.size Ram.start
    omega
  obtain ⟨_, _, _, rfl⟩ := generate_eq_ok_iff.mp accepted
  dsimp only
  rw [holds.image_eq, free]
  rfl

theorem readVariable_of_var {index : Nat} {name : String} {init : Option Int64} {pos : Position}
    (present : program[index]? = some ⟨.var name init, pos⟩) :
    image.readVariable name = some (image.arch.initialValue init) := by
  have known : image.symbols.get? name = some ⟨.var, image.storageAt program index⟩ :=
    (lists_of_generate accepted).var present
  have arch := arch_of_generate accepted
  have address : image.storageAt program index = 0x30 + storageBefore 1 program index := by
    rw [Image.storageAt, Image.dataStart, arch]
    rfl
  have byteAt : image.ram[image.storageAt program index]? = some (Ram.variableByte init) := by
    have length := length_flatMap_initial Ram.allocator_consecutive.sized program index
    rw [address, ram_of_generate accepted, flatMap_split _ present, ← length,
      List.getElem?_append_right (by simp)]
    simp [Operation.initial]
  rw [readVariable_of_mcs51 known arch, byteAt, Option.map_some, Ram.toNat_variableByte, arch,
    Arch.initialValue]

theorem zero_of_generate {address : Nat} {byte : UInt8}
    (found : image.dataByte? address = some byte)
    (uninitialised : ∀ index, ¬ Initialised program image address index) : byte = 0 := by
  have arch := arch_of_generate accepted
  rw [Image.dataByte?, arch] at found
  dsimp only at found
  rw [ram_of_generate accepted, List.getElem?_append] at found
  split at found
  · exact List.eq_of_mem_replicate (List.mem_of_getElem? found)
  next above =>
    rw [List.length_replicate] at above found
    rw [List.getElem?_append] at found
    split at found
    · apply contents_eq_zero Ram.allocator_consecutive.sized (by simp [Ram.variableByte]; decide) found
      intro index name init pos present inside
      refine uninitialised index ⟨name, init, pos, present, ?_⟩
      rw [Image.storageAt, Image.dataStart, arch]
      simp only [Arch.wordSize]
      omega
    · exact List.eq_of_mem_replicate (List.mem_of_getElem? found)

theorem initialData_of_generate : InitialData program image := by
  have arch := arch_of_generate accepted
  have room := storageBefore_le_of_generate accepted
  have total := length_contents Ram.allocator_consecutive.sized program
  refine initialData_of_lists (lists_of_generate accepted) ?_ ?_ ?_ ?_
  · intro _
    rw [Image.storageAt, Image.storageAt, Image.dataStart, arch, ram_of_generate accepted]
    simp only [Arch.wordSize, List.length_append, List.length_replicate, total]
    exact ⟨rfl, by omega, by omega⟩
  · intro other
    cases arch.symm.trans other
  · intro index name init pos present
    exact readVariable_of_var accepted present
  · intro address byte found uninitialised
    exact zero_of_generate accepted found uninitialised

end Accepted

end Mcs51

namespace X64

variable {program : List Instruction} {image : Image}

/-- A word that stands in the image reads as the number that was written. -/
theorem word?_of_holds {address : Nat} {value : Int64}
    (holds : Holds image.code address (LittleEndian.bytes 8 value.toUInt64.toNat)) :
    image.word? address = some value := by
  have length := LittleEndian.length_bytes 8 value.toUInt64.toNat
  have written := List.ne_nil_of_length_eq_add_one length
  have room := holds.stop_le written
  have cut := holds.extract_eq written
  rw [length] at room cut
  have fits : value.toUInt64.toNat < Nat.pow 256 8 := value.toUInt64.toNat_lt
  have same : Int64.ofNat value.toUInt64.toNat = value :=
    calc Int64.ofNat value.toUInt64.toNat
      _ = (UInt64.ofNat value.toUInt64.toNat).toInt64 := rfl
      _ = value := by rw [UInt64.ofNat_toNat, Int64.toInt64_toUInt64]
  rw [Image.word?, if_pos room, cut, LittleEndian.value_bytes, Nat.mod_eq_of_lt fits, same]

section Accepted

variable (accepted : X64.generate memory program = .ok image)
include accepted

theorem arch_of_generate : image.arch = .x64 := by
  obtain ⟨_, _, _, _, _, _, rfl⟩ := generate_eq_ok_iff.mp accepted
  rfl

theorem lists_of_generate :
    image.symbols.Lists sizer image.dataStart image.arch.wordSize program := by
  obtain ⟨laid, _⟩ := generate_eq_ok_iff.mp accepted
  have layout := (Layout.lists_run Data.allocator_consecutive laid rfl).rebaseData
    (layoutOf memory program).1.pc
  have start : image.dataStart = 0 + (layoutOf memory program).1.pc := by
    rw [Image.dataStart, arch_of_generate accepted, ← codeSize_of_generate accepted, Nat.zero_add]
  rw [symbols_of_generate accepted, start, arch_of_generate accepted]
  exact layout

/-- The image is the code and then the declared storage. -/
theorem code_of_generate : ∃ code : CodeBuffer, code.size = image.codeSize ∧
    image.code =
      (code.append (program.flatMap fun i => i.op.initial Data.variableBytes)).bytes := by
  obtain ⟨laid, _⟩ := generate_eq_ok_iff.mp accepted
  obtain ⟨code, resolved, whole⟩ := resolved_of_generate accepted
  have contents : (layoutOf memory program).1.storage.bytes = _ :=
    Layout.holds_run Data.allocator_consecutive laid rfl
  refine ⟨code, ?_, by rw [whole, contents]⟩
  rw [Relocation.size_of_resolveAll resolved, size_emissionOf accepted, codeSize_of_generate accepted]

theorem readVariable_of_var {index : Nat} {name : String} {init : Option Int64} {pos : Position}
    (present : program[index]? = some ⟨.var name init, pos⟩) :
    image.readVariable name = some (image.arch.initialValue init) := by
  have known : image.symbols.get? name = some ⟨.var, image.storageAt program index⟩ :=
    (lists_of_generate accepted).var present
  have arch := arch_of_generate accepted
  obtain ⟨code, size, whole⟩ := code_of_generate accepted
  have holds : Holds image.code (image.storageAt program index) (Data.variableBytes init) := by
    have length := length_flatMap_initial Data.length_variableBytes program index
    rw [Image.storageAt, Image.dataStart, arch, ← size, Arch.wordSize, ← length, whole,
      ← CodeBuffer.size_append]
    apply CodeBuffer.holds_of_goesOn
    rw [flatMap_split _ present]
    simp [Operation.initial]
  rw [readVariable_of_x64 known arch, word?_of_holds holds, Option.map_some, arch]
  rfl

theorem zero_of_generate {address : Nat} {byte : UInt8}
    (found : image.dataByte? address = some byte)
    (uninitialised : ∀ index, ¬ Initialised program image address index) : byte = 0 := by
  have arch := arch_of_generate accepted
  obtain ⟨code, size, whole⟩ := code_of_generate accepted
  have zeros : Data.variableBytes none = List.replicate 8 0 := rfl
  have blank : ∀ byte ∈ Data.variableBytes none, byte = 0 := by simp [zeros]
  rw [Image.dataByte?, arch] at found
  dsimp only at found
  split at found
  next behind =>
    rw [whole, ← Array.getElem?_toList, CodeBuffer.toList_append, List.getElem?_append_right,
      Array.length_toList] at found
    · apply contents_eq_zero Data.length_variableBytes blank found
      intro index name init pos present inside
      refine uninitialised index ⟨name, init, pos, present, ?_⟩
      rw [Image.storageAt, Image.dataStart, arch]
      simp only [Arch.wordSize]
      unfold CodeBuffer.size at size
      omega
    · rw [Array.length_toList]
      exact Nat.le_trans (Nat.le_of_eq size) behind
  next => cases found

theorem initialData_of_generate : InitialData program image := by
  have arch := arch_of_generate accepted
  obtain ⟨code, size, whole⟩ := code_of_generate accepted
  refine initialData_of_lists (lists_of_generate accepted) ?_ ?_ ?_ ?_
  · intro other
    cases arch.symm.trans other
  · intro _
    have total : image.code.size = code.size + storageBefore 8 program program.length := by
      rw [whole, ← length_contents Data.length_variableBytes]
      exact CodeBuffer.size_append _ _
    rw [Image.storageAt, Image.storageAt, Image.dataStart, arch, total, size]
    exact ⟨rfl, rfl⟩
  · intro index name init pos present
    exact readVariable_of_var accepted present
  · intro address byte found uninitialised
    exact zero_of_generate accepted found uninitialised

end Accepted

end X64

/-- The initial data of every image are as its program declares them. -/
theorem initial_data_of_image {arch : Arch} {program : List Instruction} {image : Image}
    (accepted : generate memory arch program = .ok image) :
    image.arch = arch ∧ InitialData program image := by
  cases arch with
  | mcs51 => exact ⟨Mcs51.arch_of_generate accepted, Mcs51.initialData_of_generate accepted⟩
  | x64 => exact ⟨X64.arch_of_generate accepted, X64.initialData_of_generate accepted⟩

/-- A buffer between two variables, with code around them: the variables read as their initial values, a
negative one without its sign in internal RAM, and the buffer is zero. -/
theorem initial_data_of_image_around_buffer :
    let program : List Instruction :=
      [⟨.var "low" (some (-2)), ⟨1, 1⟩⟩, ⟨.ret, ⟨2, 1⟩⟩, ⟨.buffer "middle" 3, ⟨3, 1⟩⟩,
        ⟨.label "end", ⟨4, 1⟩⟩, ⟨.var "high" none, ⟨5, 1⟩⟩]
    (∃ image, generate .ofProcess .mcs51 program = .ok image ∧ image.readVariable "low" = some 254 ∧
      image.symbols.get? "high" = some ⟨.var, 0x34⟩ ∧ image.readVariable "middle" = none) ∧
    (∃ image, generate .ofProcess .x64 program = .ok image ∧ image.readVariable "low" = some (-2) ∧
      image.symbols.get? "high" = some ⟨.var, image.codeSize + 11⟩ ∧
      image.readVariable "end" = none) := by
  intro program
  refine ⟨?_, ?_⟩
  · obtain ⟨image, generated⟩ : ∃ image, generate .ofProcess .mcs51 program = .ok image := ⟨_, rfl⟩
    obtain ⟨arch, data⟩ := initial_data_of_image generated
    have low := (data.var 0 "low" _ _ rfl).2
    have high := (data.var 4 "high" _ _ rfl).1
    rw [Image.storageAt, Image.dataStart, arch] at high
    rw [arch] at low
    exact ⟨image, generated, low, high, (data.buffer 2 "middle" _ _ rfl).2⟩
  · obtain ⟨image, generated⟩ : ∃ image, generate .ofProcess .x64 program = .ok image := ⟨_, rfl⟩
    obtain ⟨arch, data⟩ := initial_data_of_image generated
    have low := (data.var 0 "low" _ _ rfl).2
    have high := (data.var 4 "high" _ _ rfl).1
    rw [Image.storageAt, Image.dataStart, arch] at high
    rw [arch] at low
    exact ⟨image, generated, low, high, data.label 3 "end" _ rfl⟩

end CrossAsm
