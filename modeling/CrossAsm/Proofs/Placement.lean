import CrossAsm.Proofs.Checked
import CrossAsm.Proofs.Pass
import CrossAsm.Proofs.SymbolTable

/-!
Placement: what laying out one operation does. `Layout.Placed` has one rule for each kind of operation,
and `Layout.step` succeeds exactly by one of them (`step_eq_ok_iff`). What a layout does over a whole
program follows from the rules: the program counter never goes back, names keep what they were
declared as, and the table holds the declarations of the program and nothing else.
-/
namespace CrossAsm

namespace Operation

/-- Whether an operation becomes code; declarations do not, and `org` only pads. -/
def isCode : Operation → Bool
  | label _ | var _ _ | buffer _ _ | org _ => false
  | _ => true

end Operation

namespace Layout

variable {σ : Type} {sizer : Sizer} {allocator : Allocator σ} {l next : Layout σ} {op : Operation}

/-- What placing an operation does to a layout. -/
inductive Placed (sizer : Sizer) (allocator : Allocator σ) (l : Layout σ) :
    Operation → Layout σ → Prop
  | label {name : String} (fresh : l.symbols.get? name = none) :
    Placed sizer allocator l (.label name) { l with symbols := l.symbols.add name ⟨.label, l.pc⟩ }
  | var {name : String} {init : Option Int64} {address : Nat} {storage : σ}
      (fresh : l.symbols.get? name = none)
      (reserved : allocator.var init l.storage = .ok address storage) :
    Placed sizer allocator l (.var name init)
      { l with symbols := l.symbols.add name ⟨.var, address⟩, storage }
  | buffer {name : String} {length : Int64} {address : Nat} {storage : σ}
      (fresh : l.symbols.get? name = none)
      (reserved : allocator.buffer length l.storage = .ok address storage) :
    Placed sizer allocator l (.buffer name length)
      { l with symbols := l.symbols.add name ⟨.buffer, address⟩, storage }
  | org {address : Int64} (forward : (l.pc : Int) ≤ address.toInt) :
    Placed sizer allocator l (.org address) { l with pc := address.toInt.toNat }
  | code {op : Operation} {size : Nat} (isCode : op.isCode) (sized : sizer.sizeOf op = .ok size) :
    Placed sizer allocator l op { l with pc := l.pc + size }

theorem place_of_isCode (isCode : op.isCode) :
    place sizer allocator op l =
      match sizer.sizeOf op with
      | .error fault => .error fault l
      | .ok size => .ok () { l with pc := l.pc + size } := by
  cases op with
  | label | var | buffer | org => cases isCode
  | _ => rfl

theorem define_eq_ok_iff {name : String} {symbol : Symbol} :
    define name symbol l = .ok () next ↔
      l.symbols.get? name = none ∧ next = { l with symbols := l.symbols.add name symbol } := by
  unfold define
  cases defined : SymbolTable.define name symbol l.symbols with
  | ok _ symbols =>
    obtain ⟨fresh, rfl⟩ := SymbolTable.define_eq_ok_iff.mp defined
    simp [fresh, eq_comm]
  | error fault left =>
    obtain ⟨known, _⟩ := SymbolTable.define_eq_error_iff.mp defined
    simp [known]

theorem declare_eq_ok_iff {name : String} {kind : SymbolKind} {reserve : EStateM Fault σ Nat} :
    declare name kind reserve l = .ok () next ↔
      l.symbols.get? name = none ∧ ∃ address storage, reserve l.storage = .ok address storage ∧
        next = { l with symbols := l.symbols.add name ⟨kind, address⟩, storage } := by
  unfold declare
  by_cases fresh : l.symbols.get? name = none
  · rw [SymbolTable.ensureUndefined_of_fresh fresh]
    cases reserve l.storage with
    | error fault storage => simp
    | ok address storage =>
      simp only [define_eq_ok_iff, fresh, true_and, EStateM.Result.ok.injEq]
      constructor
      · exact fun declared => ⟨address, storage, ⟨rfl, rfl⟩, declared⟩
      · rintro ⟨_, _, ⟨rfl, rfl⟩, declared⟩
        exact declared
  · simp [SymbolTable.ensureUndefined_of_known fresh, fresh]

theorem place_eq_ok_iff :
    place sizer allocator op l = .ok () next ↔ Placed sizer allocator l op next := by
  constructor
  · intro placed
    by_cases isCode : op.isCode
    · rw [place_of_isCode isCode] at placed
      split at placed
      next => cases placed
      next size sized =>
        cases placed
        exact .code isCode sized
    · cases op with
      | label name =>
        obtain ⟨fresh, rfl⟩ := define_eq_ok_iff.mp placed
        exact .label fresh
      | var name init =>
        obtain ⟨fresh, address, storage, reserved, rfl⟩ := declare_eq_ok_iff.mp placed
        exact .var fresh reserved
      | buffer name length =>
        obtain ⟨fresh, address, storage, reserved, rfl⟩ := declare_eq_ok_iff.mp placed
        exact .buffer fresh reserved
      | org address =>
        simp only [place] at placed
        split at placed
        · cases placed
        · next forward =>
          cases placed
          exact .org (Int.not_lt.mp forward)
      | _ => exact absurd rfl isCode
  · intro placed
    cases placed with
    | label fresh => exact define_eq_ok_iff.mpr ⟨fresh, rfl⟩
    | var fresh reserved => exact declare_eq_ok_iff.mpr ⟨fresh, _, _, reserved, rfl⟩
    | buffer fresh reserved => exact declare_eq_ok_iff.mpr ⟨fresh, _, _, reserved, rfl⟩
    | org forward => simp only [place, if_neg (Int.not_lt.mpr forward)]
    | code isCode sized => rw [place_of_isCode isCode, sized]

/-- A layout goes on by one of the rules, as long as it stays within program memory. -/
theorem step_eq_ok_iff :
    step sizer allocator op l = .ok () next ↔ Placed sizer allocator l op next ∧
      ∀ available, sizer.addressSpace = some available → next.pc ≤ available := by
  rw [step, ← place_eq_ok_iff]
  cases place sizer allocator op l with
  | error fault left => simp
  | ok _ placed =>
    cases sizer.addressSpace with
    | none => simp
    | some available =>
      dsimp only
      split
      next past =>
        simp only [reduceCtorEq, false_iff, EStateM.Result.ok.injEq, true_and, not_and]
        rintro rfl within
        exact absurd (within available rfl) (Nat.not_le.mpr past)
      next within =>
        simp only [EStateM.Result.ok.injEq, true_and, Option.some.injEq, forall_eq']
        constructor
        · rintro rfl
          exact ⟨rfl, Nat.not_lt.mp within⟩
        · exact fun both => both.1

/-- What an operation laid out from `l` declares a name as. -/
inductive Declares (allocator : Allocator σ) (l : Layout σ) : Operation → String → Symbol → Prop
  | label {name : String} : Declares allocator l (.label name) name ⟨.label, l.pc⟩
  | var {name : String} {init : Option Int64} {address : Nat} {storage : σ}
      (reserved : allocator.var init l.storage = .ok address storage) :
    Declares allocator l (.var name init) name ⟨.var, address⟩
  | buffer {name : String} {length : Int64} {address : Nat} {storage : σ}
      (reserved : allocator.buffer length l.storage = .ok address storage) :
    Declares allocator l (.buffer name length) name ⟨.buffer, address⟩

namespace Placed

theorem pc_le (placed : Placed sizer allocator l op next) : l.pc ≤ next.pc := by
  cases placed with
  | label | var | buffer => exact Nat.le_refl _
  | org forward =>
    simp only
    omega
  | code => exact Nat.le_add_right ..

theorem pc_of_org {address : Int64} (placed : Placed sizer allocator l (.org address) next) :
    (next.pc : Int) = address.toInt := by
  cases placed with
  | org forward =>
    simp only
    omega
  | code isCode => cases isCode

theorem var_reserved {name : String} {init : Option Int64}
    (placed : Placed sizer allocator l (.var name init) next) :
    ∃ address storage, allocator.var init l.storage = .ok address storage := by
  cases placed with
  | var _ reserved => exact ⟨_, _, reserved⟩
  | code isCode => cases isCode

theorem buffer_reserved {name : String} {length : Int64}
    (placed : Placed sizer allocator l (.buffer name length) next) :
    ∃ address storage, allocator.buffer length l.storage = .ok address storage := by
  cases placed with
  | buffer _ reserved => exact ⟨_, _, reserved⟩
  | code isCode => cases isCode

theorem pc_of_isCode (placed : Placed sizer allocator l op next) (isCode : op.isCode) :
    ∃ size, sizer.sizeOf op = .ok size ∧ next.pc = l.pc + size := by
  cases placed with
  | label | var | buffer | org => cases isCode
  | code _ sized => exact ⟨_, sized, rfl⟩

/-- Names that are known stay what they are. -/
theorem get?_of_some (placed : Placed sizer allocator l op next) {name : String} {symbol : Symbol}
    (known : l.symbols.get? name = some symbol) : next.symbols.get? name = some symbol := by
  cases placed with
  | label | var | buffer => exact SymbolTable.get?_add_of_some known
  | org | code => exact known

theorem get?_of_declares (placed : Placed sizer allocator l op next) {name : String}
    {symbol : Symbol} (declares : Declares allocator l op name symbol) :
    next.symbols.get? name = some symbol := by
  cases declares with
  | label =>
    cases placed with
    | label fresh => exact SymbolTable.get?_add_self fresh _
    | code isCode => cases isCode
  | var reserved =>
    cases placed with
    | var fresh again =>
      cases reserved.symm.trans again
      exact SymbolTable.get?_add_self fresh _
    | code isCode => cases isCode
  | buffer reserved =>
    cases placed with
    | buffer fresh again =>
      cases reserved.symm.trans again
      exact SymbolTable.get?_add_self fresh _
    | code isCode => cases isCode

/-- A name that is known afterwards was known before or is declared by the operation. -/
theorem get?_eq_some (placed : Placed sizer allocator l op next) {name : String} {symbol : Symbol}
    (known : next.symbols.get? name = some symbol) :
    l.symbols.get? name = some symbol ∨ Declares allocator l op name symbol := by
  cases placed with
  | label =>
    obtain earlier | ⟨rfl, rfl⟩ := SymbolTable.get?_add_eq_some known
    · exact .inl earlier
    · exact .inr .label
  | var _ reserved =>
    obtain earlier | ⟨rfl, rfl⟩ := SymbolTable.get?_add_eq_some known
    · exact .inl earlier
    · exact .inr (.var reserved)
  | buffer _ reserved =>
    obtain earlier | ⟨rfl, rfl⟩ := SymbolTable.get?_add_eq_some known
    · exact .inl earlier
    · exact .inr (.buffer reserved)
  | org | code => exact .inl known

end Placed

section Run

variable {program : List Instruction}

theorem placed_before (laid : (run sizer allocator l program).2 = none) {index : Nat}
    {i : Instruction} (present : program[index]? = some i) :
    Placed sizer allocator (before sizer allocator l program index) i.op
      (before sizer allocator l program (index + 1)) :=
  (step_eq_ok_iff.mp (before_succ laid present)).1

theorem pc_before_le (laid : (run sizer allocator l program).2 = none) {first last : Nat}
    (order : first ≤ last) : (before sizer allocator l program first).pc ≤
      (before sizer allocator l program last).pc :=
  before_related (R := fun a b => a.pc ≤ b.pc) (fun _ => Nat.le_refl _)
    (fun _ _ _ => Nat.le_trans) laid
    (fun _ _ _ stepped => (step_eq_ok_iff.mp stepped).1.pc_le) order

/-- Where program memory is bounded, a layout stays within it. -/
theorem pc_before_le_addressSpace (laid : (run sizer allocator l program).2 = none) {available : Nat}
    (space : sizer.addressSpace = some available) (start : l.pc ≤ available) :
    ∀ index ≤ program.length, (before sizer allocator l program index).pc ≤ available :=
  invariant (P := fun _ next => next.pc ≤ available) laid start fun _ _ _ _ _ stepped =>
    (step_eq_ok_iff.mp stepped).2 available space

theorem get?_before_of_some (laid : (run sizer allocator l program).2 = none) {first last : Nat}
    (order : first ≤ last) {name : String} {symbol : Symbol}
    (known : (before sizer allocator l program first).symbols.get? name = some symbol) :
    (before sizer allocator l program last).symbols.get? name = some symbol :=
  before_related (R := fun a b => a.symbols.get? name = some symbol → b.symbols.get? name = some symbol)
    (fun _ known => known) (fun _ _ _ first second known => second (first known)) laid
    (fun _ _ _ stepped known => (step_eq_ok_iff.mp stepped).1.get?_of_some known) order known

/-- The table of a program, laid out from an empty one, holds what the program declares. -/
theorem get?_run_iff (laid : (run sizer allocator l program).2 = none)
    (start : l.symbols = .empty) {name : String} {symbol : Symbol} :
    (run sizer allocator l program).1.symbols.get? name = some symbol ↔
      ∃ index i, program[index]? = some i ∧
        Declares allocator (before sizer allocator l program index) i.op name symbol := by
  rw [← before_length]
  constructor
  · refine invariant (P := fun index next => next.symbols.get? name = some symbol →
      ∃ index i, program[index]? = some i ∧
        Declares allocator (before sizer allocator l program index) i.op name symbol)
      laid ?_ ?_ program.length (Nat.le_refl _)
    · intro known
      rw [start, SymbolTable.get?_empty] at known
      cases known
    · intro index i next present earlier stepped known
      obtain known | declares := (step_eq_ok_iff.mp stepped).1.get?_eq_some known
      · exact earlier known
      · exact ⟨index, i, present, declares⟩
  · rintro ⟨index, i, present, declares⟩
    have within : index + 1 ≤ program.length := (List.getElem?_eq_some_iff.mp present).1
    exact get?_before_of_some laid within ((placed_before laid present).get?_of_declares declares)

end Run

end Layout

end CrossAsm
