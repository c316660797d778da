import CrossAsm.Code.Buffer
import CrossAsm.Symbol.Table

/-!
Symbol tables by what `get?` finds: how defining a name and moving the data change it, and when a name
can be resolved.
-/
namespace CrossAsm

theorem signedAddress_of_nonneg {address : Nat} (low : address < 0x8000000000000000) :
    signedAddress address = address := by
  unfold signedAddress
  apply Int.bmod_eq_of_le
  · omega
  · omega

/-- Distances are differences, counted anew from 2⁶⁴ on. -/
theorem signedDistance_eq_bmod (address stop : Nat) :
    signedDistance address stop = Int.bmod (address - stop) 0x10000000000000000 := by
  have words : Int64.size = 0x10000000000000000 := rfl
  rw [signedDistance, Int64.toInt_sub, Int64.toInt_ofNat', Int64.toInt_ofNat', words]
  exact Int.bmod_sub_bmod.trans Int.sub_bmod_bmod

/-- If the difference of two signed words is one, it is the distance. -/
theorem signedDistance_of_fits {address stop : Nat}
    (fits : -0x8000000000000000 ≤ signedAddress address - signedAddress stop ∧
      signedAddress address - signedAddress stop < 0x8000000000000000) :
    signedDistance address stop = signedAddress address - signedAddress stop := by
  have reckoned : signedDistance address stop =
      Int.bmod (signedAddress address - signedAddress stop) 0x10000000000000000 := by
    rw [signedDistance_eq_bmod]
    exact (Int.bmod_sub_bmod.trans Int.sub_bmod_bmod).symm
  rw [reckoned]
  apply Int.bmod_eq_of_le
  · exact fits.1
  · exact fits.2

theorem signedDistance_of_nonneg {address stop : Nat} (low : address < 0x8000000000000000)
    (low' : stop < 0x8000000000000000) : signedDistance address stop = (address : Int) - stop := by
  rw [signedDistance_eq_bmod]
  apply Int.bmod_eq_of_le
  · omega
  · omega

/-- The way stays the same if both ends are moved. -/
theorem signedDistance_add (address stop distance : Nat) :
    signedDistance (address + distance) (stop + distance) = signedDistance address stop := by
  rw [signedDistance_eq_bmod, signedDistance_eq_bmod]
  congr 1
  omega

/-- Between bytes that fit in memory, the distance is the difference. -/
theorem signedDistance_of_lt {memory : Memory} {address stop : Nat} (low : address < memory.limit)
    (low' : stop < memory.limit) : signedDistance address stop = (address : Int) - stop :=
  signedDistance_of_nonneg (Nat.lt_of_lt_of_le low memory.bounded)
    (Nat.lt_of_lt_of_le low' memory.bounded)

namespace Symbol

/-- A symbol after all data have been moved up by `base`. -/
def moved (base : Nat) (symbol : Symbol) : Symbol :=
  if symbol.kind.isData then { symbol with address := symbol.address + base } else symbol

@[simp] theorem kind_moved (base : Nat) (symbol : Symbol) : (symbol.moved base).kind = symbol.kind := by
  unfold moved
  split <;> rfl

theorem moved_data {base : Nat} {symbol : Symbol} (data : symbol.kind.isData) :
    symbol.moved base = ⟨symbol.kind, symbol.address + base⟩ := by
  simp [moved, data]

end Symbol

namespace SymbolTable

/-- The table with one more entry. -/
def add (t : SymbolTable) (name : String) (symbol : Symbol) : SymbolTable :=
  ⟨t.entries ++ [(name, symbol)]⟩

@[simp] theorem get?_empty (name : String) : empty.get? name = none := rfl

theorem mem_of_get? {t : SymbolTable} {name : String} {symbol : Symbol}
    (known : t.get? name = some symbol) : (name, symbol) ∈ t.entries := by
  obtain ⟨first, rest, same, _⟩ := List.lookup_eq_some_iff.mp known
  rw [same]
  exact List.mem_append_right _ List.mem_cons_self

theorem get?_add (t : SymbolTable) (name other : String) (symbol : Symbol) :
    (t.add name symbol).get? other =
      (t.get? other).or (if other = name then some symbol else none) := by
  unfold get? add
  rw [List.lookup_append]
  by_cases same : other = name
  · simp [same]
  · simp [List.lookup_cons, same, beq_false_of_ne same]

/-- An entry stays when another name is added. -/
theorem get?_add_of_some {t : SymbolTable} {name other : String} {symbol found : Symbol}
    (known : t.get? other = some found) : (t.add name symbol).get? other = some found := by
  rw [get?_add, known, Option.some_or]

theorem get?_add_self {t : SymbolTable} {name : String} (fresh : t.get? name = none)
    (symbol : Symbol) : (t.add name symbol).get? name = some symbol := by
  rw [get?_add, fresh, if_pos rfl, Option.none_or]

/-- What is found after adding a name was there before, or is what was added. -/
theorem get?_add_eq_some {t : SymbolTable} {name other : String} {symbol found : Symbol}
    (found_after : (t.add name symbol).get? other = some found) :
    t.get? other = some found ∨ other = name ∧ found = symbol := by
  rw [get?_add] at found_after
  cases known : t.get? other with
  | some earlier =>
    rw [known, Option.some_or] at found_after
    exact .inl found_after
  | none =>
    rw [known, Option.none_or] at found_after
    split at found_after
    next same => exact .inr ⟨same, (Option.some.inj found_after).symm⟩
    next => cases found_after

theorem define_eq_ok_iff {t next : SymbolTable} {name : String} {symbol : Symbol} :
    define name symbol t = .ok () next ↔ t.get? name = none ∧ next = t.add name symbol := by
  unfold define ensureUndefined add
  cases t.get? name <;> simp [eq_comm]

theorem ensureUndefined_of_fresh {t : SymbolTable} {name : String} (fresh : t.get? name = none) :
    t.ensureUndefined name = .ok () := by
  simp [ensureUndefined, fresh]

theorem ensureUndefined_of_known {t : SymbolTable} {name : String} (known : t.get? name ≠ none) :
    t.ensureUndefined name = .error (.duplicateSymbol name) := by
  simp [ensureUndefined, Option.isSome_iff_ne_none.mpr known]

/-- A name that is in the table is not defined again, and the table stays. -/
theorem define_eq_error_iff {t left : SymbolTable} {name : String} {symbol : Symbol} {fault : Fault} :
    define name symbol t = .error fault left ↔
      t.get? name ≠ none ∧ fault = .duplicateSymbol name ∧ left = t := by
  unfold define ensureUndefined
  cases t.get? name <;> simp [eq_comm]

/-- The same names for other symbols. -/
def mapSymbols (g : Symbol → Symbol) (t : SymbolTable) : SymbolTable :=
  ⟨t.entries.map fun entry => (entry.1, g entry.2)⟩

theorem get?_mapSymbols (g : Symbol → Symbol) (t : SymbolTable) (name : String) :
    (t.mapSymbols g).get? name = (t.get? name).map g := by
  obtain ⟨entries⟩ := t
  unfold get? mapSymbols
  induction entries with
  | nil => rfl
  | cons entry rest ih =>
    obtain ⟨key, symbol⟩ := entry
    simp only [List.map_cons, List.lookup_cons]
    cases name == key with
    | true => rfl
    | false => exact ih

theorem rebaseData_eq (t : SymbolTable) (base : Nat) :
    t.rebaseData base = t.mapSymbols (Symbol.moved base) := rfl

theorem get?_rebaseData (t : SymbolTable) (base : Nat) (name : String) :
    (t.rebaseData base).get? name = (t.get? name).map (Symbol.moved base) := by
  rw [rebaseData_eq, get?_mapSymbols]

theorem get?_rebaseData_eq_label_iff {t : SymbolTable} {base address : Nat} {name : String} :
    (t.rebaseData base).get? name = some ⟨.label, address⟩ ↔
      t.get? name = some ⟨.label, address⟩ := by
  rw [get?_rebaseData]
  rcases t.get? name with _ | ⟨kind, found⟩
  · simp
  · cases kind <;> simp [Symbol.moved, SymbolKind.isData]

theorem resolveLabel_eq_ok_iff {t : SymbolTable} {name : String} {address : Nat} :
    t.resolveLabel name = .ok address ↔ t.get? name = some ⟨.label, address⟩ := by
  unfold resolveLabel resolve
  rcases t.get? name with _ | ⟨kind, found⟩
  · simp [bind, Except.bind]
  · cases kind <;> simp [bind, Except.bind, pure, Except.pure, throw, throwThe, MonadExceptOf.throw]

theorem resolveData_eq_ok_iff {t : SymbolTable} {name : String} {symbol : Symbol} :
    t.resolveData name = .ok symbol ↔ t.get? name = some symbol ∧ symbol.kind.isData := by
  unfold resolveData resolve
  cases t.get? name with
  | none => simp [bind, Except.bind]
  | some found =>
    by_cases data : found.kind.isData
    · simp only [bind, Except.bind, data, if_true, pure, Except.pure, Except.ok.injEq,
        Option.some.injEq]
      constructor
      · rintro rfl
        exact ⟨rfl, data⟩
      · exact And.left
    · simp only [bind, Except.bind, data, if_false, throw, throwThe, MonadExceptOf.throw,
        reduceCtorEq, Option.some.injEq, false_iff, not_and, Bool.not_eq_true, Bool.false_eq_true]
      rintro rfl
      simpa using data

theorem exists_resolveData {t : SymbolTable} {name : String} {P : Symbol → Prop} :
    (∃ symbol, t.resolveData name = .ok symbol ∧ P symbol) ↔
      (∃ address, t.get? name = some ⟨.var, address⟩ ∧ P ⟨.var, address⟩) ∨
      ∃ address, t.get? name = some ⟨.buffer, address⟩ ∧ P ⟨.buffer, address⟩ := by
  simp only [resolveData_eq_ok_iff]
  constructor
  · rintro ⟨⟨kind, address⟩, ⟨found, data⟩, holds⟩
    cases kind with
    | label => cases data
    | var => exact .inl ⟨address, found, holds⟩
    | buffer => exact .inr ⟨address, found, holds⟩
  · rintro (⟨address, found, holds⟩ | ⟨address, found, holds⟩)
    · exact ⟨_, ⟨found, rfl⟩, holds⟩
    · exact ⟨_, ⟨found, rfl⟩, holds⟩

end SymbolTable

end CrossAsm
