import CrossAsm.Proofs.DeclarationOrder
import CrossAsm.Proofs.Relocation

/-!
One program behind another. The second starts where the code of the first ends, and everything about it
is moved up by as much. In layout these are its program counter and its labels (`Layout.Behind.run`).
Displacements are differences, so relocations are resolved to the same bytes as before, that much later
in the code (`Relocation.resolveAll_join_right`).
-/
namespace CrossAsm

namespace CodeBuffer

/-- Two buffers, one behind the other. -/
def join (front back : CodeBuffer) : CodeBuffer := ⟨front.bytes ++ back.bytes⟩

variable {front back : CodeBuffer}

@[simp] theorem size_join : (front.join back).size = front.size + back.size := Array.size_append

theorem append_join (front back : CodeBuffer) (bytes : List UInt8) :
    (front.join back).append bytes = front.join (back.append bytes) := by
  apply eq_of_toList
  simp [join]

theorem write_append_left {code : Array UInt8} {offset : Nat} {bytes : List UInt8}
    (room : offset + bytes.length ≤ code.size) (more : Array UInt8) :
    write (code ++ more) offset bytes = write code offset bytes ++ more := by
  induction bytes generalizing code offset with
  | nil => rfl
  | cons byte bytes ih =>
    rw [List.length_cons] at room
    rw [write, write, Array.setIfInBounds_append_left (by omega), ih]
    rw [Array.size_setIfInBounds]
    omega

theorem write_append_right (code more : Array UInt8) (offset : Nat) (bytes : List UInt8) :
    write (code ++ more) (offset + code.size) bytes = code ++ write more offset bytes := by
  induction bytes generalizing more offset with
  | nil => rfl
  | cons byte bytes ih =>
    rw [write, write, Array.setIfInBounds_append_right (Nat.le_add_left _ _), Nat.add_sub_cancel,
      Nat.add_right_comm, ih]

theorem overwrite_join_left {offset : Nat} {bytes : List UInt8}
    (room : offset + bytes.length ≤ front.size) :
    (front.join back).overwrite offset bytes = (front.overwrite offset bytes).join back :=
  congrArg CodeBuffer.mk (write_append_left room back.bytes)

theorem overwrite_join_right (offset : Nat) (bytes : List UInt8) :
    (front.join back).overwrite (offset + front.size) bytes =
      front.join (back.overwrite offset bytes) :=
  congrArg CodeBuffer.mk (write_append_right front.bytes back.bytes offset bytes)

end CodeBuffer

namespace Symbol

/-- The symbol, `distance` bytes later. -/
def later (distance : Nat) (symbol : Symbol) : Symbol :=
  { symbol with address := symbol.address + distance }

/-- A label, `distance` bytes later; data stay. -/
def labelLater (distance : Nat) (symbol : Symbol) : Symbol :=
  if symbol.kind.isData then symbol else symbol.later distance

theorem moved_labelLater (distance base : Nat) (symbol : Symbol) :
    (symbol.labelLater distance).moved (base + distance) = (symbol.moved base).later distance := by
  obtain ⟨kind, address⟩ := symbol
  cases kind with
  | label => rfl
  | var | buffer => exact congrArg (Symbol.mk _) (Nat.add_assoc _ _ _).symm

end Symbol

namespace SymbolTable

/-- All entries of two tables. -/
def join (t u : SymbolTable) : SymbolTable := ⟨t.entries ++ u.entries⟩

variable {t u : SymbolTable} {g : Symbol → Symbol} {name : String} {symbol : Symbol}

theorem get?_join : (t.join u).get? name = (t.get? name).or (u.get? name) := List.lookup_append

theorem mapSymbols_add :
    (t.add name symbol).mapSymbols g = (t.mapSymbols g).add name (g symbol) := by
  simp [mapSymbols, add]

theorem join_add : t.join (u.add name symbol) = (t.join u).add name symbol := by
  simp [join, add]

theorem rebaseData_join (base : Nat) :
    (t.join u).rebaseData base = (t.rebaseData base).join (u.rebaseData base) :=
  congrArg SymbolTable.mk List.map_append

/-- When data have been moved behind the code of both programs, all has been moved. -/
theorem rebaseData_mapSymbols_labelLater (distance base : Nat) :
    (t.mapSymbols (Symbol.labelLater distance)).rebaseData (base + distance) =
      (t.rebaseData base).mapSymbols (Symbol.later distance) := by
  simp only [rebaseData_eq, mapSymbols, List.map_map, Function.comp_def, Symbol.moved_labelLater]

end SymbolTable

namespace Relocation

variable {symbols symbols' : SymbolTable} {code final more : CodeBuffer} {r : Relocation}
  {relocations : List Relocation}

/-- The relocation of the same instruction, `distance` bytes later. -/
def later (distance : Nat) (r : Relocation) : Relocation :=
  { r with patch := r.patch + distance, stop := r.stop + distance }

/-- Filling in relocations does not touch what stands behind. -/
theorem resolveAll_join_left (resolved : resolveAll symbols code relocations = .resolved final)
    (more : CodeBuffer) :
    resolveAll symbols (code.join more) relocations = .resolved (final.join more) := by
  induction relocations generalizing code with
  | nil =>
    cases resolved
    rfl
  | cons r rest ih =>
    obtain ⟨d, found, room, resolved⟩ := resolveAll_cons_eq_resolved.mp resolved
    refine resolveAll_cons_eq_resolved.mpr ⟨d, found, ?_, ?_⟩
    · rw [CodeBuffer.size_join]
      omega
    · rw [CodeBuffer.overwrite_join_left ((length_displacementBytes d).symm ▸ room)]
      exact ih resolved

/-- Behind other code, the same displacements are filled in as many bytes later. -/
theorem resolveAll_join_right {front : CodeBuffer}
    (same : ∀ r ∈ relocations, ∀ d, r.displacement symbols = .ok d →
      (r.later front.size).displacement symbols' = .ok d)
    (resolved : resolveAll symbols code relocations = .resolved final) :
    resolveAll symbols' (front.join code) (relocations.map (later front.size)) =
      .resolved (front.join final) := by
  induction relocations generalizing code with
  | nil =>
    cases resolved
    rfl
  | cons r rest ih =>
    obtain ⟨first, others⟩ := List.forall_mem_cons.mp same
    obtain ⟨d, found, room, resolved⟩ := resolveAll_cons_eq_resolved.mp resolved
    refine resolveAll_cons_eq_resolved.mpr ⟨d, first d found, ?_, ?_⟩
    · rw [CodeBuffer.size_join]
      change r.patch + front.size + 4 ≤ _
      omega
    · change resolveAll _ ((front.join code).overwrite (r.patch + front.size) _) _ = _
      rw [CodeBuffer.overwrite_join_right]
      exact ih others resolved

/-- The way from an instruction to its symbol is the same when both have been moved. -/
theorem displacement_later {distance target : Nat} {d : Int32} (found : r.target symbols = .ok target)
    (moved : (r.later distance).target symbols' = .ok (target + distance))
    (made : r.displacement symbols = .ok d) : (r.later distance).displacement symbols' = .ok d := by
  obtain ⟨_, again, within, rfl⟩ := displacement_eq_ok_iff.mp made
  cases found.symm.trans again
  have same : signedDistance (target + distance) (r.later distance).stop = signedDistance target r.stop :=
    signedDistance_add target r.stop distance
  refine displacement_eq_ok_iff.mpr ⟨target + distance, moved, ?_, ?_⟩
  · rw [same]
    exact within
  · rw [same]

/-- A symbol that has been moved is reached where it is now. -/
theorem target_later {distance target : Nat}
    (known : symbols'.get? r.name = (symbols.get? r.name).map (Symbol.later distance))
    (found : r.target symbols = .ok target) :
    (r.later distance).target symbols' = .ok (target + distance) := by
  obtain ⟨name, patch, stop, pos, reference⟩ := r
  cases reference with
  | code =>
    have label := SymbolTable.resolveLabel_eq_ok_iff.mp found
    exact SymbolTable.resolveLabel_eq_ok_iff.mpr (known.trans (by rw [label]; rfl))
  | data =>
    obtain ⟨symbol, resolved, rfl⟩ := map_eq_ok_iff.mp found
    obtain ⟨data, isData⟩ := SymbolTable.resolveData_eq_ok_iff.mp resolved
    have moved : symbols'.resolveData name = .ok (symbol.later distance) := by
      refine SymbolTable.resolveData_eq_ok_iff.mpr ⟨?_, isData⟩
      rw [known, data]
      rfl
    change (symbols'.resolveData name).map Symbol.address = _
    rw [moved]
    rfl

end Relocation

namespace Layout

variable {σ : Type} {sizer : Sizer} {allocator : Allocator σ} {op : Operation}
  {front a a' b : Layout σ} {program : List Instruction}

/-- The layout of a program behind another one: `front` is that of the first program, `a` that of the
second alone. -/
structure Behind (front a b : Layout σ) : Prop where
  pc : b.pc = a.pc + front.pc
  storage : b.storage = a.storage
  symbols : b.symbols = front.symbols.join (a.symbols.mapSymbols (Symbol.labelLater front.pc))

theorem Behind.fresh (behind : Behind front a b) {name : String}
    (apart : front.symbols.get? name = none) (fresh : a.symbols.get? name = none) :
    b.symbols.get? name = none := by
  rw [behind.symbols, SymbolTable.get?_join, SymbolTable.get?_mapSymbols, apart, fresh]
  rfl

/-- Each step is done behind the other program as well, if it brings no name of that and no `org`. -/
theorem Behind.step (behind : Behind front a b) (unbounded : sizer.addressSpace = none)
    (apart : ∀ name, op.mentions? = some name → front.symbols.get? name = none)
    (unmoved : ∀ address, op ≠ .org address) (stepped : step sizer allocator op a = .ok () a') :
    ∃ b', Layout.step sizer allocator op b = .ok () b' ∧ Behind front a' b' := by
  have unlimited (l : Layout σ) (available : Nat) (space : sizer.addressSpace = some available) :
      l.pc ≤ available := by
    rw [unbounded] at space
    cases space
  have ⟨pc, storage, symbols⟩ := behind
  cases (step_eq_ok_iff.mp stepped).1 with
  | @label name fresh =>
    refine ⟨_, step_eq_ok_iff.mpr ⟨.label (behind.fresh (apart name rfl) fresh), unlimited _⟩, pc,
      storage, ?_⟩
    rw [SymbolTable.mapSymbols_add, SymbolTable.join_add, ← symbols, pc]
    rfl
  | @var name init address stored fresh reserved =>
    rw [← storage] at reserved
    refine ⟨_, step_eq_ok_iff.mpr ⟨.var (behind.fresh (apart name rfl) fresh) reserved, unlimited _⟩,
      pc, rfl, ?_⟩
    rw [SymbolTable.mapSymbols_add, SymbolTable.join_add, ← symbols]
    rfl
  | @buffer name length address stored fresh reserved =>
    rw [← storage] at reserved
    refine ⟨_, step_eq_ok_iff.mpr ⟨.buffer (behind.fresh (apart name rfl) fresh) reserved,
      unlimited _⟩, pc, rfl, ?_⟩
    rw [SymbolTable.mapSymbols_add, SymbolTable.join_add, ← symbols]
    rfl
  | org => exact absurd rfl (unmoved _)
  | @code _ size isCode sized =>
    refine ⟨_, step_eq_ok_iff.mpr ⟨.code isCode sized, unlimited _⟩, ?_, storage, symbols⟩
    dsimp only
    omega

/-- A program behind another one is laid out as it is alone. -/
theorem Behind.run {storage : σ} (start : Behind front { storage } front)
    (unbounded : sizer.addressSpace = none)
    (apart : ∀ name ∈ mentioned program, front.symbols.get? name = none)
    (unmoved : ∀ i ∈ program, ∀ address, i.op ≠ .org address)
    (laid : (run sizer allocator { storage } program).2 = none) :
    ∃ l, Layout.run sizer allocator front program = (l, none) ∧
      Behind front (Layout.run sizer allocator { storage } program).1 l := by
  rw [← pass_run, ← pass_run]
  refine Pass.run_follows start fun index i b present behind => ?_
  have member := List.mem_of_getElem? present
  rw [pass_before] at behind
  obtain ⟨b', stepped, behind'⟩ := behind.step unbounded
    (fun name found => apart name (List.mem_filterMap.mpr ⟨i, member, found⟩)) (unmoved i member)
    (before_succ laid present)
  rw [pass_before]
  exact ⟨b', pass_eq_none.mpr stepped, behind'⟩

/-- Without variables and buffers, nothing is stored and all symbols are labels. -/
theorem labels_run {storage : σ} (unstored : ∀ i ∈ program, i.op.isStorage = false)
    (laid : (run sizer allocator { storage } program).2 = none) :
    (run sizer allocator { storage } program).1.storage = storage ∧
      ∀ entry ∈ (run sizer allocator { storage } program).1.symbols.entries,
        entry.2.kind = .label := by
  rw [← before_length]
  refine invariant (P := fun _ l => l.storage = storage ∧
    ∀ entry ∈ l.symbols.entries, entry.2.kind = .label) laid ⟨rfl, List.forall_mem_nil _⟩ ?_ _
    (Nat.le_refl _)
  intro index i next present kept stepped
  have isRest := unstored i (List.mem_of_getElem? present)
  obtain ⟨op, pos⟩ := i
  cases (step_eq_ok_iff.mp stepped).1 with
  | label => exact ⟨kept.1, List.forall_mem_append.mpr ⟨kept.2, List.forall_mem_singleton.mpr rfl⟩⟩
  | var | buffer => cases isRest
  | org | code => exact kept

end Layout

theorem SymbolTable.rebaseData_of_labels {t : SymbolTable}
    (labels : ∀ entry ∈ t.entries, entry.2.kind = .label) (base : Nat) : t.rebaseData base = t := by
  have unmoved (entry : String × Symbol) (member : entry ∈ t.entries) :
      (entry.1, entry.2.moved base) = entry := by
    rw [Symbol.moved, labels entry member]
    rfl
  rw [rebaseData_eq, mapSymbols, List.map_congr_left unmoved, List.map_id']

theorem SymbolTable.Within.get?_eq_none {t : SymbolTable} {names : Set String} {name : String}
    (within : t.Within names) (outside : name ∉ names) : t.get? name = none := by
  cases known : t.get? name with
  | none => rfl
  | some symbol => exact absurd (within _ (mem_of_get? known)) outside

end CrossAsm
