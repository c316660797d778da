import CrossAsm.Proofs.Placement

/-!
What a layout comes to, read off the program itself. `Sizer.counterAt` is the program counter before an
instruction and `storageBefore` the storage declared before it; neither knows of layout. If an allocator
hands out storage `Consecutive`ly, a layout that succeeds has just this counter, its storage holds the
initial values of all declarations one after the other (`holds_before`), and its table `Lists` the
declared names with the addresses that follow (`lists_run`).
-/
namespace CrossAsm

namespace Operation

/-- The name that an operation declares. -/
def declares? : Operation → Option String
  | label name | var name _ | buffer name _ => some name
  | _ => none

/-- The bytes of storage that an operation declares, where a variable takes `word` of them. -/
def storage (word : Nat) : Operation → Nat
  | var _ _ => word
  | buffer _ length => length.toInt.toNat
  | _ => 0

/-- The initial contents of the storage that an operation declares, where `value` gives those of a
variable. -/
def initial (value : Option Int64 → List UInt8) : Operation → List UInt8
  | var _ init => value init
  | buffer _ length => List.replicate length.toInt.toNat 0
  | _ => []

theorem length_initial {value : Option Int64 → List UInt8} {word : Nat}
    (sized : ∀ init, (value init).length = word) (op : Operation) :
    (op.initial value).length = op.storage word := by
  cases op with
  | var name init => exact sized init
  | buffer name length => exact List.length_replicate
  | _ => rfl

end Operation

/-- The program counter after an operation. What has no size does not move it. -/
def Sizer.advance (sizer : Sizer) : Operation → Nat → Nat
  | .label _, pc | .var _ _, pc | .buffer _ _, pc => pc
  | .org address, _ => address.toInt.toNat
  | op, pc => pc + (sizer.sizeOf op).toOption.getD 0

/-- The program counter before the instruction at `index`. -/
def Sizer.counterAt (sizer : Sizer) (program : List Instruction) (index : Nat) : Nat :=
  (program.take index).foldl (fun pc i => sizer.advance i.op pc) 0

/-- The bytes of storage declared before the instruction at `index`. -/
def storageBefore (word : Nat) (program : List Instruction) (index : Nat) : Nat :=
  (program.take index).foldl (fun total i => total + i.op.storage word) 0

/-- What the instruction at `index` declares, and as what, if storage starts at `base`. -/
def symbolAt? (sizer : Sizer) (base word : Nat) (program : List Instruction) (index : Nat) :
    Operation → Option (String × Symbol)
  | .label name => some (name, ⟨.label, sizer.counterAt program index⟩)
  | .var name _ => some (name, ⟨.var, base + storageBefore word program index⟩)
  | .buffer name _ => some (name, ⟨.buffer, base + storageBefore word program index⟩)
  | _ => none

theorem declares?_of_symbolAt? {sizer : Sizer} {base word index : Nat} {program : List Instruction}
    {op : Operation} {name : String} {symbol : Symbol}
    (declared : symbolAt? sizer base word program index op = some (name, symbol)) :
    op.declares? = some name := by
  cases op with
  | label | var | buffer =>
    cases declared
    rfl
  | _ => cases declared

theorem symbolAt?_of_declares? (sizer : Sizer) (base word : Nat) (program : List Instruction)
    (index : Nat) {op : Operation} {name : String} (declares : op.declares? = some name) :
    ∃ symbol, symbolAt? sizer base word program index op = some (name, symbol) := by
  cases op with
  | label | var | buffer =>
    cases declares
    exact ⟨_, rfl⟩
  | _ => cases declares

/-- The table holds the declared names, with the addresses that the program tells. -/
def SymbolTable.Lists (symbols : SymbolTable) (sizer : Sizer) (base word : Nat)
    (program : List Instruction) : Prop :=
  ∀ name symbol, symbols.get? name = some symbol ↔ ∃ index i, program[index]? = some i ∧
    symbolAt? sizer base word program index i.op = some (name, symbol)

namespace SymbolTable.Lists

variable {symbols : SymbolTable} {sizer : Sizer} {base word index : Nat} {program : List Instruction}
  {name : String} {pos : Position}

theorem label (lists : symbols.Lists sizer base word program)
    (present : program[index]? = some ⟨.label name, pos⟩) :
    symbols.get? name = some ⟨.label, sizer.counterAt program index⟩ :=
  (lists name _).mpr ⟨index, _, present, rfl⟩

theorem var (lists : symbols.Lists sizer base word program) {init : Option Int64}
    (present : program[index]? = some ⟨.var name init, pos⟩) :
    symbols.get? name = some ⟨.var, base + storageBefore word program index⟩ :=
  (lists name _).mpr ⟨index, _, present, rfl⟩

theorem buffer (lists : symbols.Lists sizer base word program) {length : Int64}
    (present : program[index]? = some ⟨.buffer name length, pos⟩) :
    symbols.get? name = some ⟨.buffer, base + storageBefore word program index⟩ :=
  (lists name _).mpr ⟨index, _, present, rfl⟩

theorem exists_label (lists : symbols.Lists sizer base word program) {P : Nat → Prop} :
    (∃ address, symbols.get? name = some ⟨.label, address⟩ ∧ P address) ↔
      ∃ index pos, program[index]? = some ⟨.label name, pos⟩ ∧ P (sizer.counterAt program index) := by
  constructor
  · rintro ⟨address, found, holds⟩
    obtain ⟨index, ⟨op, pos⟩, present, declared⟩ := (lists name _).mp found
    cases op with
    | label =>
      cases declared
      exact ⟨index, pos, present, holds⟩
    | _ => cases declared
  · rintro ⟨index, pos, present, holds⟩
    exact ⟨_, lists.label present, holds⟩

theorem exists_var (lists : symbols.Lists sizer base word program) {P : Nat → Prop} :
    (∃ address, symbols.get? name = some ⟨.var, address⟩ ∧ P address) ↔
      ∃ index init pos, program[index]? = some ⟨.var name init, pos⟩ ∧
        P (base + storageBefore word program index) := by
  constructor
  · rintro ⟨address, found, holds⟩
    obtain ⟨index, ⟨op, pos⟩, present, declared⟩ := (lists name _).mp found
    cases op with
    | var _ init =>
      cases declared
      exact ⟨index, init, pos, present, holds⟩
    | _ => cases declared
  · rintro ⟨index, init, pos, present, holds⟩
    exact ⟨_, lists.var present, holds⟩

theorem exists_buffer (lists : symbols.Lists sizer base word program) {P : Nat → Prop} :
    (∃ address, symbols.get? name = some ⟨.buffer, address⟩ ∧ P address) ↔
      ∃ index length pos, program[index]? = some ⟨.buffer name length, pos⟩ ∧
        P (base + storageBefore word program index) := by
  constructor
  · rintro ⟨address, found, holds⟩
    obtain ⟨index, ⟨op, pos⟩, present, declared⟩ := (lists name _).mp found
    cases op with
    | buffer _ length =>
      cases declared
      exact ⟨index, length, pos, present, holds⟩
    | _ => cases declared
  · rintro ⟨index, length, pos, present, holds⟩
    exact ⟨_, lists.buffer present, holds⟩

theorem exists_var_iff_mem (lists : symbols.Lists sizer base word program) :
    (∃ address, symbols.get? name = some ⟨.var, address⟩) ↔
      ∃ init pos, ⟨.var name init, pos⟩ ∈ program := by
  constructor
  · rintro ⟨address, found⟩
    obtain ⟨index, init, pos, present, _⟩ :=
      (lists.exists_var (P := fun _ => True)).mp ⟨address, found, trivial⟩
    exact ⟨init, pos, List.mem_of_getElem? present⟩
  · rintro ⟨init, pos, member⟩
    obtain ⟨index, present⟩ := List.mem_iff_getElem?.mp member
    exact ⟨_, lists.var present⟩

theorem exists_buffer_iff_mem (lists : symbols.Lists sizer base word program) :
    (∃ address, symbols.get? name = some ⟨.buffer, address⟩) ↔
      ∃ length pos, ⟨.buffer name length, pos⟩ ∈ program := by
  constructor
  · rintro ⟨address, found⟩
    obtain ⟨index, length, pos, present, _⟩ :=
      (lists.exists_buffer (P := fun _ => True)).mp ⟨address, found, trivial⟩
    exact ⟨length, pos, List.mem_of_getElem? present⟩
  · rintro ⟨length, pos, member⟩
    obtain ⟨index, present⟩ := List.mem_iff_getElem?.mp member
    exact ⟨_, lists.buffer present⟩

theorem moved_symbolAt? (sizer : Sizer) (base word shift : Nat) (program : List Instruction)
    (index : Nat) (op : Operation) :
    symbolAt? sizer (base + shift) word program index op =
      (symbolAt? sizer base word program index op).map fun entry =>
        (entry.1, entry.2.moved shift) := by
  cases op with
  | var | buffer =>
    simp only [symbolAt?, Option.map_some, Symbol.moved, SymbolKind.isData, if_true]
    rw [Nat.add_right_comm]
  | _ => rfl

/-- Moving the data moves where storage starts. -/
theorem rebaseData (lists : symbols.Lists sizer base word program) (shift : Nat) :
    (symbols.rebaseData shift).Lists sizer (base + shift) word program := by
  intro name symbol
  rw [SymbolTable.get?_rebaseData, Option.map_eq_some_iff]
  simp only [lists name, moved_symbolAt?, Option.map_eq_some_iff, Prod.mk.injEq, Prod.exists]
  constructor
  · rintro ⟨unmoved, ⟨index, i, present, declared⟩, rfl⟩
    exact ⟨index, i, present, name, unmoved, declared, rfl, rfl⟩
  · rintro ⟨index, i, present, _, unmoved, declared, rfl, rfl⟩
    exact ⟨unmoved, ⟨index, i, present, declared⟩, rfl⟩

end SymbolTable.Lists

section Prefixes

variable {program : List Instruction} {index : Nat} {i : Instruction}

theorem foldl_take_succ {α : Type} (f : α → Instruction → α) (a : α)
    (present : program[index]? = some i) :
    (program.take (index + 1)).foldl f a = f ((program.take index).foldl f a) i := by
  rw [List.take_add_one, present, Option.toList_some, List.foldl_append, List.foldl_cons,
    List.foldl_nil]

@[simp] theorem Sizer.counterAt_zero (sizer : Sizer) (program : List Instruction) :
    sizer.counterAt program 0 = 0 := rfl

theorem Sizer.counterAt_succ (sizer : Sizer) (present : program[index]? = some i) :
    sizer.counterAt program (index + 1) = sizer.advance i.op (sizer.counterAt program index) :=
  foldl_take_succ _ _ present

/-- The counter depends only on the instructions before. -/
theorem Sizer.counterAt_take (sizer : Sizer) (program : List Instruction) {index stop : Nat}
    (within : index ≤ stop) :
    sizer.counterAt (program.take stop) index = sizer.counterAt program index := by
  rw [counterAt, counterAt, List.take_take, Nat.min_eq_left within]

theorem Sizer.advance_of_isCode {sizer : Sizer} {op : Operation} {size pc : Nat}
    (isCode : op.isCode) (sized : sizer.sizeOf op = .ok size) : sizer.advance op pc = pc + size := by
  have same : sizer.advance op pc = pc + (sizer.sizeOf op).toOption.getD 0 := by
    cases op with
    | label | var | buffer | org => cases isCode
    | _ => rfl
  rw [same, sized]
  rfl

@[simp] theorem storageBefore_zero (word : Nat) (program : List Instruction) :
    storageBefore word program 0 = 0 := rfl

theorem storageBefore_succ (word : Nat) (present : program[index]? = some i) :
    storageBefore word program (index + 1) =
      storageBefore word program index + i.op.storage word :=
  foldl_take_succ _ _ present

theorem storageBefore_take (word : Nat) (program : List Instruction) {index stop : Nat}
    (within : index ≤ stop) :
    storageBefore word (program.take stop) index = storageBefore word program index := by
  rw [storageBefore, storageBefore, List.take_take, Nat.min_eq_left within]

theorem storageBefore_le (word : Nat) (program : List Instruction) {first last : Nat}
    (order : first ≤ last) : storageBefore word program first ≤ storageBefore word program last := by
  induction order with
  | refl => exact Nat.le_refl _
  | @step last _ ih =>
    cases present : program[last]? with
    | some i =>
      rw [storageBefore_succ word present]
      omega
    | none =>
      have past := List.getElem?_eq_none_iff.mp present
      rw [storageBefore, storageBefore, List.take_of_length_le past] at *
      rw [List.take_of_length_le (Nat.le_succ_of_le past)]
      exact ih

/-- The contents of all storage declared before an instruction are as long as that storage. -/
theorem length_flatMap_initial {value : Option Int64 → List UInt8} {word : Nat}
    (sized : ∀ init, (value init).length = word) (program : List Instruction) (index : Nat) :
    ((program.take index).flatMap fun i => i.op.initial value).length =
      storageBefore word program index := by
  induction index with
  | zero => rfl
  | succ index ih =>
    cases present : program[index]? with
    | some i =>
      rw [storageBefore_succ word present, List.take_add_one, present, Option.toList_some,
        List.flatMap_append, List.length_append, ih, List.flatMap_singleton,
        Operation.length_initial sized]
    | none =>
      have past := List.getElem?_eq_none_iff.mp present
      rw [storageBefore, List.take_of_length_le past] at ih
      rw [storageBefore, List.take_of_length_le (Nat.le_succ_of_le past)]
      exact ih

theorem length_contents {value : Option Int64 → List UInt8} {word : Nat}
    (sized : ∀ init, (value init).length = word) (program : List Instruction) :
    (program.flatMap fun i => i.op.initial value).length =
      storageBefore word program program.length := by
  rw [← length_flatMap_initial sized, List.take_length]

end Prefixes

/-- Storage is handed out one declaration after the other, from `base` on. `holds` says of storage which
bytes have been handed out so far, and `value` gives those of a variable. -/
structure Allocator.Consecutive {σ : Type} (allocator : Allocator σ) (base word : Nat)
    (holds : σ → List UInt8 → Prop) (value : Option Int64 → List UInt8) : Prop where
  sized : ∀ init, (value init).length = word
  var : ∀ {s bytes init address next}, holds s bytes → allocator.var init s = .ok address next →
    address = base + bytes.length ∧ holds next (bytes ++ value init)
  buffer : ∀ {s bytes length address next}, holds s bytes → allocator.buffer length s = .ok address next →
    address = base + bytes.length ∧ holds next (bytes ++ List.replicate length.toInt.toNat 0)

namespace Layout

variable {σ : Type} {sizer : Sizer} {allocator : Allocator σ} {storage : σ}
  {program : List Instruction}

section Counter

variable {l next : Layout σ} {op : Operation}

theorem Placed.pc_eq_advance (placed : Placed sizer allocator l op next) :
    next.pc = sizer.advance op l.pc := by
  cases placed with
  | label | var | buffer | org => rfl
  | code isCode sized => rw [Sizer.advance_of_isCode isCode sized]

/-- A layout counts as the program does. -/
theorem pc_before (laid : (run sizer allocator { storage } program).2 = none) :
    ∀ index ≤ program.length,
      (before sizer allocator { storage } program index).pc = sizer.counterAt program index := by
  refine invariant (P := fun index l => l.pc = sizer.counterAt program index) laid rfl ?_
  intro index i next present here stepped
  rw [sizer.counterAt_succ present, ← here]
  exact (step_eq_ok_iff.mp stepped).1.pc_eq_advance

theorem pc_run (laid : (run sizer allocator { storage } program).2 = none) :
    (run sizer allocator { storage } program).1.pc = sizer.counterAt program program.length := by
  rw [← before_length]
  exact pc_before laid _ (Nat.le_refl _)

theorem counterAt_le (laid : (run sizer allocator { storage } program).2 = none) {first last : Nat}
    (order : first ≤ last) (within : last ≤ program.length) :
    sizer.counterAt program first ≤ sizer.counterAt program last := by
  rw [← pc_before laid first (Nat.le_trans order within), ← pc_before laid last within]
  exact pc_before_le laid order

end Counter

section Storage

variable {base word : Nat} {holds : σ → List UInt8 → Prop} {value : Option Int64 → List UInt8}
  (consecutive : allocator.Consecutive base word holds value)
include consecutive

theorem Placed.holds_next {l next : Layout σ} {op : Operation} {bytes : List UInt8}
    (placed : Placed sizer allocator l op next) (here : holds l.storage bytes) :
    holds next.storage (bytes ++ op.initial value) := by
  cases placed with
  | label | org => exact (List.append_nil bytes).symm ▸ here
  | var fresh reserved => exact (consecutive.var here reserved).2
  | buffer fresh reserved => exact (consecutive.buffer here reserved).2
  | code isCode sized =>
    have none : op.initial value = [] := by
      cases op with
      | label | var | buffer | org => cases isCode
      | _ => rfl
    rwa [none, List.append_nil]

/-- The storage of a layout holds the initial values of all declarations so far. -/
theorem holds_before (laid : (run sizer allocator { storage } program).2 = none)
    (empty : holds storage []) :
    ∀ index ≤ program.length, holds (before sizer allocator { storage } program index).storage
      ((program.take index).flatMap fun i => i.op.initial value) := by
  refine invariant (P := fun index l => holds l.storage
    ((program.take index).flatMap fun i => i.op.initial value)) laid empty ?_
  intro index i next present here stepped
  rw [List.take_add_one, present, Option.toList_some, List.flatMap_append, List.flatMap_singleton]
  exact (step_eq_ok_iff.mp stepped).1.holds_next consecutive here

theorem holds_run (laid : (run sizer allocator { storage } program).2 = none)
    (empty : holds storage []) :
    holds (run sizer allocator { storage } program).1.storage
      (program.flatMap fun i => i.op.initial value) := by
  have whole := holds_before consecutive laid empty _ (Nat.le_refl _)
  rwa [before_length, List.take_length] at whole

/-- A name is declared, from the layout before its instruction, with the address that the program tells. -/
theorem declares_before_iff (laid : (run sizer allocator { storage } program).2 = none)
    (empty : holds storage []) {index : Nat} {i : Instruction}
    (present : program[index]? = some i) {name : String} {symbol : Symbol} :
    Declares allocator (before sizer allocator { storage } program index) i.op name symbol ↔
      symbolAt? sizer base word program index i.op = some (name, symbol) := by
  have within : index ≤ program.length := Nat.le_of_lt (List.getElem?_eq_some_iff.mp present).1
  have counter := pc_before laid index within
  have here := holds_before consecutive laid empty index within
  have length := length_flatMap_initial consecutive.sized program index
  have placed := placed_before laid present
  obtain ⟨op, pos⟩ := i
  generalize before sizer allocator { storage } program (index + 1) = next at placed
  constructor
  · intro declares
    cases declares with
    | label => rw [symbolAt?, ← counter]
    | var reserved =>
      rw [(consecutive.var here reserved).1, length]
      rfl
    | buffer reserved =>
      rw [(consecutive.buffer here reserved).1, length]
      rfl
  · intro declared
    cases placed with
    | label =>
      cases declared
      rw [← counter]
      exact .label
    | @var _ _ address _ _ reserved =>
      cases declared
      rw [← length, ← (consecutive.var here reserved).1]
      exact .var reserved
    | @buffer _ _ address _ _ reserved =>
      cases declared
      rw [← length, ← (consecutive.buffer here reserved).1]
      exact .buffer reserved
    | org => cases declared
    | code isCode =>
      dsimp only at isCode declared
      cases op with
      | label | var | buffer | org => cases isCode
      | _ => cases declared

/-- The table of a layout lists what the program declares. -/
theorem lists_run (laid : (run sizer allocator { storage } program).2 = none)
    (empty : holds storage []) :
    (run sizer allocator { storage } program).1.symbols.Lists sizer base word program := by
  intro name symbol
  rw [get?_run_iff laid rfl]
  constructor
  · rintro ⟨index, i, present, declares⟩
    exact ⟨index, i, present, (declares_before_iff consecutive laid empty present).mp declares⟩
  · rintro ⟨index, i, present, declared⟩
    exact ⟨index, i, present, (declares_before_iff consecutive laid empty present).mpr declared⟩

end Storage

end Layout

end CrossAsm
