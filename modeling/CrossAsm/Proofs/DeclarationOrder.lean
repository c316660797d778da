import Mathlib.Data.List.Nodup
import CrossAsm.Proofs.Declarations
import CrossAsm.Proofs.Renaming

/-!
Where declarations stand. Variables and buffers move only the storage, all else moves only the program
counter, and the two meet in the names alone. So a layout is that of the declarations `Beside` that of
the rest (`Layout.Beside.split`, `Layout.Beside.join`), emission passes the declarations over
(`Emitter.run_remaining`), and programs that mix the same declarations with the same rest have the same image
up to the order of the symbols (`declarations_stand_anywhere`).
-/
namespace CrossAsm

variable {memory : Memory}

/-- Whether an operation declares a variable or a buffer. -/
def Operation.isStorage : Operation → Bool
  | var _ _ | buffer _ _ => true
  | _ => false

/-- Code declares nothing. -/
theorem Operation.declares?_of_isCode {op : Operation} (isCode : op.isCode) : op.declares? = none := by
  cases op with
  | label | var | buffer => cases isCode
  | _ => rfl

theorem Operation.isStorage_of_isCode {op : Operation} (isCode : op.isCode) : op.isStorage = false := by
  cases op with
  | var | buffer => cases isCode
  | _ => rfl

/-- The variables and buffers that a program declares. -/
def declarations (program : List Instruction) : List Instruction := program.filter (·.op.isStorage)

/-- All else in a program. -/
def remaining (program : List Instruction) : List Instruction := program.filter (!·.op.isStorage)

theorem filters_cons_of_isStorage {i : Instruction} (isStorage : i.op.isStorage = true)
    (program : List Instruction) :
    declarations (i :: program) = i :: declarations program ∧
      remaining (i :: program) = remaining program := by
  simp [declarations, remaining, isStorage]

theorem filters_cons_of_not_isStorage {i : Instruction} (isRest : i.op.isStorage = false)
    (program : List Instruction) :
    declarations (i :: program) = declarations program ∧
      remaining (i :: program) = i :: remaining program := by
  simp [declarations, remaining, isRest]

namespace SymbolTable

/-- No name stands twice in the table. -/
def Distinct (t : SymbolTable) : Prop := (t.entries.map Prod.fst).Nodup

theorem mem_entries_iff {t : SymbolTable} (distinct : t.Distinct) {name : String} {symbol : Symbol} :
    (name, symbol) ∈ t.entries ↔ t.get? name = some symbol := by
  constructor
  · intro member
    obtain ⟨front, back, parts⟩ := List.append_of_mem member
    refine List.lookup_eq_some_iff.mpr ⟨front, back, parts, fun entry earlier => ?_⟩
    rw [Distinct, parts, List.map_append, List.nodup_append] at distinct
    have apart := distinct.2.2 entry.1 (List.mem_map_of_mem earlier) name (by simp)
    simpa using apart.symm
  · exact mem_of_get?

theorem Distinct.add {t : SymbolTable} (distinct : t.Distinct) {name : String}
    (fresh : t.get? name = none) (symbol : Symbol) : (t.add name symbol).Distinct := by
  rw [Distinct, SymbolTable.add, List.map_append, List.nodup_append]
  refine ⟨distinct, by simp, ?_⟩
  intro _ earlier _ new
  obtain ⟨entry, member, rfl⟩ := List.mem_map.mp earlier
  obtain rfl := List.mem_singleton.mp new
  exact (bne_iff_ne.mp (List.lookup_eq_none_iff.mp fresh entry member)).symm

theorem before_iff {a b : String × Symbol} :
    before a b = true ↔
      a.2.address < b.2.address ∨ a.2.address = b.2.address ∧ a.1 ≤ b.1 := by
  simp only [before, Bool.or_eq_true, Bool.and_eq_true, decide_eq_true_eq, decide_eq_false_iff_not,
    beq_iff_eq, Bool.not_eq_eq_eq_not, Bool.not_true, String.not_lt]

theorem before_trans (a b c : String × Symbol) (first : before a b = true) (second : before b c = true) :
    before a c = true := by
  rw [before_iff] at *
  obtain lower | ⟨same, names⟩ := first
  · exact .inl (by omega)
  · obtain lower | ⟨same', names'⟩ := second
    · exact .inl (by omega)
    · exact .inr ⟨same.trans same', String.le_trans names names'⟩

theorem before_total (a b : String × Symbol) : (before a b || before b a) = true := by
  rw [Bool.or_eq_true, before_iff, before_iff]
  rcases Nat.lt_trichotomy a.2.address b.2.address with lower | same | higher
  · exact .inl (.inl lower)
  · exact (String.le_total a.1 b.1).imp (fun names => .inr ⟨same, names⟩)
      (fun names => .inr ⟨same.symm, names⟩)
  · exact .inr (.inl higher)

/-- Entries that come before one another have the same name. -/
theorem name_eq_of_before {a b : String × Symbol} (first : before a b = true)
    (second : before b a = true) : a.1 = b.1 := by
  rw [before_iff] at first second
  obtain lower | ⟨_, names⟩ := first
  · omega
  · obtain lower | ⟨_, names'⟩ := second
    · omega
    · exact String.le_antisymm names names'

/-- The same names for the same symbols, declared in any order. -/
structure Reordered (t u : SymbolTable) : Prop where
  entries : t.entries.Perm u.entries
  distinct : t.Distinct

namespace Reordered

variable {t u : SymbolTable}

theorem symm (reordered : Reordered t u) : Reordered u t :=
  ⟨reordered.entries.symm, (reordered.entries.map Prod.fst).nodup_iff.mp reordered.distinct⟩

theorem get? (reordered : Reordered t u) (name : String) : u.get? name = t.get? name := by
  ext symbol
  rw [← mem_entries_iff reordered.distinct,
    ← mem_entries_iff reordered.symm.distinct, reordered.entries.mem_iff]

theorem rebaseData (reordered : Reordered t u) (base : Nat) :
    Reordered (t.rebaseData base) (u.rebaseData base) := by
  refine ⟨reordered.entries.map _, ?_⟩
  have names : (t.rebaseData base).entries.map Prod.fst = t.entries.map Prod.fst := by
    simp [SymbolTable.rebaseData]
  rw [Distinct, names]
  exact reordered.distinct

/-- Sorted, they are the same list. -/
theorem sorted (reordered : Reordered t u) : u.sorted = t.sorted := by
  have perm : u.sorted.Perm t.sorted :=
    ((List.mergeSort_perm _ _).trans reordered.entries.symm).trans (List.mergeSort_perm _ _).symm
  refine List.Perm.eq_of_pairwise ?_ (List.pairwise_mergeSort before_trans before_total _)
    (List.pairwise_mergeSort before_trans before_total _) perm
  intro a b ofU ofT first second
  have ofT' := (List.mergeSort_perm _ _).mem_iff.mp (perm.mem_iff.mp ofU)
  exact List.inj_on_of_nodup_map reordered.distinct ofT' ((List.mergeSort_perm _ _).mem_iff.mp ofT)
    (name_eq_of_before first second)

end Reordered

end SymbolTable

namespace Layout

variable {σ : Type} {sizer : Sizer} {allocator : Allocator σ} {op : Operation}
  {l l' a b x x' y : Layout σ} {program : List Instruction}

theorem run_cons_eq_none {i : Instruction} :
    run sizer allocator l (i :: program) = (l', none) ↔
      ∃ next, step sizer allocator i.op l = .ok () next ∧
        run sizer allocator next program = (l', none) := by
  rw [run]
  cases step sizer allocator i.op l with
  | ok _ next => simp
  | error fault left => simp

/-- A name that is new at the end has been new all the time. -/
theorem fresh_of_run (laid : run sizer allocator l program = (l', none)) {name : String}
    (fresh : l'.symbols.get? name = none) : l.symbols.get? name = none := by
  cases known : l.symbols.get? name with
  | none => rfl
  | some symbol =>
    have kept := get?_before_of_some (congrArg Prod.snd laid) (Nat.zero_le program.length) known
    rw [before_length, laid, fresh] at kept
    cases kept

theorem fresh_of_step (stepped : step sizer allocator op l = .ok () l') {name : String}
    (declares : op.declares? = some name) : l.symbols.get? name = none := by
  obtain ⟨placed, _⟩ := step_eq_ok_iff.mp stepped
  cases placed with
  | label fresh | var fresh | buffer fresh =>
    cases declares
    exact fresh
  | org => cases declares
  | code isCode =>
    rw [Operation.declares?_of_isCode isCode] at declares
    cases declares

/-- The same step from `x` to `x'` and from `y` to `y'`. -/
structure SameStep (op : Operation) (x x' y y' : Layout σ) : Prop where
  entries : ∃ added, x'.symbols.entries = x.symbols.entries ++ added ∧
    y'.symbols.entries = y.symbols.entries ++ added
  rest : op.isStorage = false → y'.pc = x'.pc ∧ x'.storage = x.storage ∧ y'.storage = y.storage
  storage : op.isStorage = true → y'.storage = x'.storage ∧ x'.pc = x.pc ∧ y'.pc = y.pc

theorem SameStep.symm {y' : Layout σ} (same : SameStep op x x' y y') : SameStep op y y' x x' where
  entries := by
    obtain ⟨added, ofX, ofY⟩ := same.entries
    exact ⟨added, ofY, ofX⟩
  rest isRest := by
    obtain ⟨pc, ofX, ofY⟩ := same.rest isRest
    exact ⟨pc.symm, ofY, ofX⟩
  storage isStorage := by
    obtain ⟨stored, ofX, ofY⟩ := same.storage isStorage
    exact ⟨stored.symm, ofY, ofX⟩

/-- A step looks at the program counter or at the storage, and otherwise only whether a name is new. -/
theorem exists_sameStep (stepped : step sizer allocator op x = .ok () x')
    (fresh : ∀ name, op.declares? = some name → y.symbols.get? name = none)
    (rest : op.isStorage = false → y.pc = x.pc)
    (storage : op.isStorage = true → y.storage = x.storage ∧
      ∀ available, sizer.addressSpace = some available → y.pc ≤ available) :
    ∃ y', step sizer allocator op y = .ok () y' ∧ SameStep op x x' y y' := by
  obtain ⟨placed, within⟩ := step_eq_ok_iff.mp stepped
  cases placed with
  | @label name _ =>
    have pc := rest rfl
    refine ⟨{ y with symbols := y.symbols.add name ⟨.label, y.pc⟩ },
      step_eq_ok_iff.mpr ⟨.label (fresh name rfl), ?_⟩, ⟨[(name, ⟨.label, x.pc⟩)], rfl, ?_⟩,
      fun _ => ⟨pc, rfl, rfl⟩, fun data => by cases data⟩
    · rw [pc]
      exact within
    · rw [pc]
      rfl
  | @var name init address stored _ reserved =>
    obtain ⟨same, room⟩ := storage rfl
    rw [← same] at reserved
    exact ⟨{ y with symbols := y.symbols.add name ⟨.var, address⟩, storage := stored },
      step_eq_ok_iff.mpr ⟨.var (fresh name rfl) reserved, room⟩, ⟨_, rfl, rfl⟩,
      (fun code => by cases code), fun _ => ⟨rfl, rfl, rfl⟩⟩
  | @buffer name length address stored _ reserved =>
    obtain ⟨same, room⟩ := storage rfl
    rw [← same] at reserved
    exact ⟨{ y with symbols := y.symbols.add name ⟨.buffer, address⟩, storage := stored },
      step_eq_ok_iff.mpr ⟨.buffer (fresh name rfl) reserved, room⟩, ⟨_, rfl, rfl⟩,
      (fun code => by cases code), fun _ => ⟨rfl, rfl, rfl⟩⟩
  | @org address forward =>
    rw [← rest rfl] at forward
    exact ⟨{ y with pc := address.toInt.toNat }, step_eq_ok_iff.mpr ⟨.org forward, within⟩,
      ⟨[], (List.append_nil _).symm, (List.append_nil _).symm⟩, fun _ => ⟨rfl, rfl, rfl⟩,
      fun data => by cases data⟩
  | @code _ size isCode sized =>
    have code := Operation.isStorage_of_isCode isCode
    have pc : y.pc + size = x.pc + size := by rw [rest code]
    refine ⟨{ y with pc := y.pc + size }, step_eq_ok_iff.mpr ⟨.code isCode sized, ?_⟩,
      ⟨[], (List.append_nil _).symm, (List.append_nil _).symm⟩, fun _ => ⟨pc, rfl, rfl⟩, ?_⟩
    · rw [pc]
      exact within
    · intro data
      rw [code] at data
      cases data

theorem known_of_step (stepped : step sizer allocator op l = .ok () l') {name : String}
    (declares : op.declares? = some name) : l'.symbols.get? name ≠ none := by
  obtain ⟨placed, _⟩ := step_eq_ok_iff.mp stepped
  cases placed with
  | label fresh | var fresh | buffer fresh =>
    cases declares
    rw [SymbolTable.get?_add_self fresh]
    exact Option.some_ne_none _
  | org => cases declares
  | code isCode =>
    rw [Operation.declares?_of_isCode isCode] at declares
    cases declares

/-- A layout that has its program counter from one layout, its storage from another, and the symbols
of both. -/
structure Beside (l a b : Layout σ) : Prop where
  pc : l.pc = a.pc
  storage : l.storage = b.storage
  entries : l.symbols.entries.Perm (a.symbols.entries ++ b.symbols.entries)

namespace Beside

theorem get?_eq_none_iff (beside : Beside l a b) {name : String} :
    l.symbols.get? name = none ↔ a.symbols.get? name = none ∧ b.symbols.get? name = none := by
  simp only [SymbolTable.get?, List.lookup_eq_none_iff, beside.entries.mem_iff, List.mem_append,
    or_imp, forall_and]

theorem apart (beside : Beside l a b) (distinct : l.symbols.Distinct) (name : String) :
    a.symbols.get? name = none ∨ b.symbols.get? name = none := by
  have names := (beside.entries.map Prod.fst).nodup_iff.mp distinct
  rw [List.map_append, List.nodup_append] at names
  cases ofA : a.symbols.get? name with
  | none => exact .inl rfl
  | some symbol =>
    cases ofB : b.symbols.get? name with
    | none => exact .inr rfl
    | some symbol' =>
      exact absurd rfl (names.2.2 name (List.mem_map_of_mem (SymbolTable.mem_of_get? ofA)) name
        (List.mem_map_of_mem (SymbolTable.mem_of_get? ofB)))

theorem step_rest {l' a' : Layout σ} (beside : Beside l a b) (isRest : op.isStorage = false)
    (same : SameStep op l l' a a') : Beside l' a' b := by
  obtain ⟨added, ofL, ofA⟩ := same.entries
  obtain ⟨pc, stored, _⟩ := same.rest isRest
  refine ⟨pc.symm, stored.trans beside.storage, ?_⟩
  rw [ofL, ofA, List.append_assoc]
  refine (beside.entries.append_right added).trans ?_
  rw [List.append_assoc]
  exact List.perm_append_comm.append_left _

theorem step_storage {l' b' : Layout σ} (beside : Beside l a b) (isStorage : op.isStorage = true)
    (same : SameStep op l l' b b') : Beside l' a b' := by
  obtain ⟨added, ofL, ofB⟩ := same.entries
  obtain ⟨stored, pc, _⟩ := same.storage isStorage
  refine ⟨pc.trans beside.pc, stored.symm, ?_⟩
  rw [ofL, ofB, ← List.append_assoc]
  exact beside.entries.append_right added

/-- A layout goes apart into that of the declarations and that of the rest. -/
theorem split (beside : Beside l a b)
    (room : ∀ available, sizer.addressSpace = some available → b.pc ≤ available)
    (laid : run sizer allocator l program = (l', none)) :
    ∃ a' b', run sizer allocator a (remaining program) = (a', none) ∧
      run sizer allocator b (declarations program) = (b', none) ∧ Beside l' a' b' := by
  induction program generalizing l a b with
  | nil =>
    cases laid
    exact ⟨a, b, rfl, rfl, beside⟩
  | cons i program ih =>
    obtain ⟨next, stepped, laid⟩ := run_cons_eq_none.mp laid
    have fresh (name : String) (declares : i.op.declares? = some name) :=
      beside.get?_eq_none_iff.mp (fresh_of_step stepped declares)
    cases isStorage : i.op.isStorage with
    | true =>
      obtain ⟨b₁, stepped', same⟩ := exists_sameStep (y := b) stepped
        (fun name declares => (fresh name declares).2) (by simp [isStorage])
        (fun _ => ⟨beside.storage.symm, room⟩)
      rw [← (same.storage isStorage).2.2] at room
      obtain ⟨a', b', others, declared, final⟩ :=
        ih (beside.step_storage isStorage same) room laid
      obtain ⟨first, second⟩ := filters_cons_of_isStorage isStorage program
      rw [first, second]
      exact ⟨a', b', others, run_cons_eq_none.mpr ⟨b₁, stepped', declared⟩, final⟩
    | false =>
      obtain ⟨a₁, stepped', same⟩ := exists_sameStep (y := a) stepped
        (fun name declares => (fresh name declares).1) (fun _ => beside.pc.symm)
        (by simp [isStorage])
      obtain ⟨a', b', others, declared, final⟩ := ih (beside.step_rest isStorage same) room laid
      obtain ⟨first, second⟩ := filters_cons_of_not_isStorage isStorage program
      rw [first, second]
      exact ⟨a', b', run_cons_eq_none.mpr ⟨a₁, stepped', others⟩, declared, final⟩

/-- The layouts of the declarations and of the rest go together, if they share no name. -/
theorem join {a' b' : Layout σ} (beside : Beside l a b)
    (room : ∀ available, sizer.addressSpace = some available → l.pc ≤ available)
    (others : run sizer allocator a (remaining program) = (a', none))
    (declared : run sizer allocator b (declarations program) = (b', none))
    (apart : ∀ name, a'.symbols.get? name = none ∨ b'.symbols.get? name = none) :
    ∃ l', run sizer allocator l program = (l', none) ∧ Beside l' a' b' := by
  induction program generalizing l a b with
  | nil =>
    cases others
    cases declared
    exact ⟨l, rfl, beside⟩
  | cons i program ih =>
    cases isStorage : i.op.isStorage with
    | true =>
      obtain ⟨first, second⟩ := filters_cons_of_isStorage isStorage program
      rw [first] at declared
      rw [second] at others
      obtain ⟨b₁, stepped, declared⟩ := run_cons_eq_none.mp declared
      have fresh (name : String) (declares : i.op.declares? = some name) :
          l.symbols.get? name = none := by
        refine beside.get?_eq_none_iff.mpr ⟨?_, fresh_of_step stepped declares⟩
        obtain new | new := apart name
        · exact fresh_of_run others new
        · exact absurd (fresh_of_run declared new) (known_of_step stepped declares)
      obtain ⟨next, stepped', same⟩ := exists_sameStep (y := l) stepped fresh
        (by simp [isStorage]) (fun _ => ⟨beside.storage, room⟩)
      rw [← (same.storage isStorage).2.2] at room
      obtain ⟨l', laid, final⟩ := ih (beside.step_storage isStorage same.symm) room others declared
      exact ⟨l', run_cons_eq_none.mpr ⟨next, stepped', laid⟩, final⟩
    | false =>
      obtain ⟨first, second⟩ := filters_cons_of_not_isStorage isStorage program
      rw [first] at declared
      rw [second] at others
      obtain ⟨a₁, stepped, others⟩ := run_cons_eq_none.mp others
      have fresh (name : String) (declares : i.op.declares? = some name) :
          l.symbols.get? name = none := by
        refine beside.get?_eq_none_iff.mpr ⟨fresh_of_step stepped declares, ?_⟩
        obtain new | new := apart name
        · exact absurd (fresh_of_run others new) (known_of_step stepped declares)
        · exact fresh_of_run declared new
      obtain ⟨next, stepped', same⟩ := exists_sameStep (y := l) stepped fresh (fun _ => beside.pc)
        (by simp [isStorage])
      obtain ⟨l', laid, final⟩ := ih (beside.step_rest isStorage same.symm)
        (step_eq_ok_iff.mp stepped').2 others declared
      exact ⟨l', run_cons_eq_none.mpr ⟨next, stepped', laid⟩, final⟩

end Beside

theorem Placed.distinct (placed : Placed sizer allocator l op l') (distinct : l.symbols.Distinct) :
    l'.symbols.Distinct := by
  cases placed with
  | label fresh | var fresh | buffer fresh => exact distinct.add fresh _
  | org | code => exact distinct

theorem distinct_run {storage : σ} (laid : (run sizer allocator { storage } program).2 = none) :
    (run sizer allocator { storage } program).1.symbols.Distinct := by
  rw [← before_length]
  exact invariant (P := fun _ l => l.symbols.Distinct) laid List.nodup_nil
    (fun _ _ _ _ distinct stepped => (step_eq_ok_iff.mp stepped).1.distinct distinct) _ (Nat.le_refl _)

/-- Programs that mix the same declarations with the same rest are laid out alike. -/
theorem run_interleaved {storage : σ} {other : List Instruction}
    (laid : (run sizer allocator { storage } program).2 = none)
    (declared : declarations other = declarations program)
    (others : remaining other = remaining program) :
    (run sizer allocator { storage } other).2 = none ∧
      (run sizer allocator { storage } other).1.pc = (run sizer allocator { storage } program).1.pc ∧
      (run sizer allocator { storage } other).1.storage =
        (run sizer allocator { storage } program).1.storage ∧
      (run sizer allocator { storage } program).1.symbols.Reordered
        (run sizer allocator { storage } other).1.symbols := by
  have start : Beside { storage } { storage } ({ storage } : Layout σ) := ⟨rfl, rfl, .refl _⟩
  have room (available : Nat) (_ : sizer.addressSpace = some available) :
      ({ storage } : Layout σ).pc ≤ available := Nat.zero_le _
  have distinct := distinct_run laid
  obtain ⟨a, b, ofRest, ofDeclarations, beside⟩ := start.split room (Prod.ext rfl laid)
  rw [← others] at ofRest
  rw [← declared] at ofDeclarations
  obtain ⟨l', laid', beside'⟩ := start.join room ofRest ofDeclarations (beside.apart distinct)
  rw [laid']
  exact ⟨rfl, beside'.pc.trans beside.pc.symm, beside'.storage.trans beside.storage.symm,
    beside.entries.trans beside'.entries.symm, distinct⟩

end Layout

/-- Emission passes declarations over. -/
theorem Emitter.run_remaining {σ : Type} (e : Emitter σ) (s : σ) (program : List Instruction) :
    e.run s (remaining program) = e.run s program := by
  induction program generalizing s with
  | nil => rfl
  | cons i program ih =>
    cases isStorage : i.op.isStorage with
    | true =>
      rw [(filters_cons_of_isStorage isStorage program).2, ih]
      obtain ⟨op, pos⟩ := i
      cases op with
      | var | buffer => rfl
      | _ => cases isStorage
    | false =>
      rw [(filters_cons_of_not_isStorage isStorage program).2, run, run]
      simp only [ih]

/-- The same image up to the order in which its symbols were declared. -/
structure Image.Agrees (image other : Image) : Prop where
  code : other.code = image.code
  codeSize : other.codeSize = image.codeSize
  ram : other.ram = image.ram
  symbols : ∀ name, other.symbols.get? name = image.symbols.get? name
  listing : other.symbols.sorted = image.symbols.sorted

/-- Names and positions stay as they are. -/
def Transcription.identity : Transcription := .ofNames id

theorem Transcription.map_identity (program : List Instruction) :
    program.map identity.instruction = program := by
  have same (i : Instruction) : identity.instruction i = i := by
    change (⟨i.op.rename id, i.pos⟩ : Instruction) = i
    rw [Operation.rename_id]
  rw [List.map_congr_left fun i _ => same i, List.map_id']

/-- Programs with the same rest are emitted alike, if names are looked up alike. -/
theorem Emitter.Transcribes.run_interleaved {σ : Type} {e : Emitter σ} {R : σ → σ → Prop} {s s' : σ}
    {program other : List Instruction}
    (transcribes : e.Transcribes .identity R (remaining program)) (related : R s s')
    (others : remaining other = remaining program) (emitted : (e.run s program).2 = none) :
    (e.run s' other).2 = none ∧ R (e.run s program).1 (e.run s' other).1 := by
  rw [← e.run_remaining s program] at emitted ⊢
  rw [← e.run_remaining s' other, others]
  obtain ⟨faults, reached⟩ := transcribes.run related
  rw [Transcription.map_identity] at faults reached
  refine ⟨?_, reached emitted⟩
  rw [faults, emitted]
  rfl

section Machines

variable {program other : List Instruction} {image : Image}
  (declared : declarations other = declarations program)
  (others : remaining other = remaining program)
include declared others

theorem Mcs51.generate_interleaved (accepted : Mcs51.generate memory program = .ok image) :
    ∃ moved, Mcs51.generate memory other = .ok moved ∧ image.Agrees moved := by
  obtain ⟨laid, room, emitted, rfl⟩ := Mcs51.generate_eq_ok_iff.mp accepted
  obtain ⟨laid', pc, storage, reordered⟩ := Layout.run_interleaved laid declared others
  have known (name : String) (_ : name ∈ mentioned (remaining program)) := reordered.get? name
  have starts : Output.Alike (layoutOf program).1.symbols (layoutOf other).1.symbols (start program)
      (start other) := ⟨rfl, rfl, rfl⟩
  obtain ⟨emitted', alike⟩ :=
    (emitter_transcribes (T := .identity) known).run_interleaved starts others emitted
  have symbols : (emissionOf memory program).1.symbols.Reordered (emissionOf memory other).1.symbols := by
    rw [emissionOf, emissionOf, alike.symbols, alike.symbols']
    exact reordered
  exact ⟨_, Mcs51.generate_eq_ok_iff.mpr ⟨laid', pc.trans_lt room, emitted', rfl⟩,
    congrArg CodeBuffer.bytes alike.code, congrArg CodeBuffer.size alike.code,
    congrArg Ram.image storage, symbols.get?, symbols.sorted⟩

theorem X64.generate_interleaved (accepted : X64.generate memory program = .ok image) :
    ∃ moved, X64.generate memory other = .ok moved ∧ image.Agrees moved := by
  obtain ⟨laid, room, emitted, code, resolved, fits, rfl⟩ := X64.generate_eq_ok_iff.mp accepted
  obtain ⟨laid', pc, storage, layouts⟩ := Layout.run_interleaved laid declared others
  change (layoutOf memory other).1.pc = (layoutOf memory program).1.pc at pc
  change (layoutOf memory other).1.storage = (layoutOf memory program).1.storage at storage
  have reordered : (start memory program).symbols.Reordered (start memory other).symbols := by
    rw [start, start, pc]
    exact layouts.rebaseData _
  have known (name : String) (_ : name ∈ mentioned (remaining program)) :=
    congrArg (Option.map Symbol.kind) (reordered.get? name)
  have starts : Output.Alike .identity (start memory program).symbols (start memory other).symbols
      (start memory program) (start memory other) := ⟨rfl, rfl, rfl, rfl⟩
  obtain ⟨emitted', alike⟩ :=
    (emitter_transcribes (T := .identity) known).run_interleaved starts others emitted
  have resolved' : Relocation.resolveAll (emissionOf memory other).1.symbols
      (emissionOf memory other).1.code (emissionOf memory other).1.relocations = .resolved code := by
    rw [emissionOf, alike.symbols', alike.code, alike.relocations,
      Relocation.resolveAll_transcribed (fun r _ => reordered.get? r.name)]
    rw [emissionOf, alike.symbols] at resolved
    rw [resolved]
    rfl
  rw [← storage, ← pc] at room
  rw [← storage] at fits
  have symbols : (emissionOf memory program).1.symbols.Reordered (emissionOf memory other).1.symbols := by
    rw [emissionOf, emissionOf, alike.symbols, alike.symbols']
    exact reordered
  exact ⟨_, X64.generate_eq_ok_iff.mpr ⟨laid', room, emitted', code, resolved', fits, rfl⟩,
    by rw [storage], pc, rfl, symbols.get?, symbols.sorted⟩

end Machines

@[simp] theorem Operation.isStorage_rename (f : String → String) (op : Operation) :
    (op.rename f).isStorage = op.isStorage := by cases op <;> rfl

theorem filters_transcribed (T : Transcription) (program : List Instruction) :
    declarations (program.map T.instruction) = (declarations program).map T.instruction ∧
      remaining (program.map T.instruction) = (remaining program).map T.instruction := by
  simp [declarations, remaining, List.filter_map, Function.comp_def, Transcription.instruction]

/-- The names stay as they are, and all positions are lost. -/
def Transcription.unplaced : Transcription := ⟨id, fun _ => .nowhere, rfl⟩

@[simp] theorem Image.rename_id (image : Image) : image.rename id = image := by
  simp [rename, SymbolTable.rename]

/-- Positions do not matter for an image. -/
theorem generate_unplaced {arch : Arch} {program : List Instruction} {image : Image} :
    generate memory arch (program.map Transcription.unplaced.instruction) = .ok image ↔
      generate memory arch program = .ok image := by
  rw [generate_transcribed arch .unplaced (Set.injOn_id _)]
  cases generate memory arch program with
  | ok made =>
    change Except.ok (made.rename id) = .ok image ↔ _
    rw [Image.rename_id]
  | error failure =>
    cases failure with
    | rejected | misplacedRelocation =>
      constructor
      · intro made
        cases made
      · intro made
        cases made

theorem generate_interleaved {arch : Arch} {program other : List Instruction} {image : Image}
    (declared : (declarations other).map Instruction.op = (declarations program).map Instruction.op)
    (others : (remaining other).map Instruction.op = (remaining program).map Instruction.op)
    (accepted : generate memory arch program = .ok image) :
    ∃ moved, generate memory arch other = .ok moved ∧ image.Agrees moved := by
  have unplaced {a b : List Instruction} (same : a.map Instruction.op = b.map Instruction.op) :
      a.map Transcription.unplaced.instruction = b.map Transcription.unplaced.instruction := by
    have again := congrArg (List.map fun op => (⟨op.rename id, .nowhere⟩ : Instruction)) same
    rwa [List.map_map, List.map_map] at again
  obtain ⟨ofOther, restOfOther⟩ := filters_transcribed .unplaced other
  obtain ⟨ofProgram, restOfProgram⟩ := filters_transcribed .unplaced program
  rw [unplaced declared, ← ofProgram] at ofOther
  rw [unplaced others, ← restOfProgram] at restOfOther
  have accepted := generate_unplaced.mpr accepted
  obtain ⟨moved, made, agrees⟩ : ∃ moved,
      generate memory arch (other.map Transcription.unplaced.instruction) = .ok moved ∧
        image.Agrees moved := by
    cases arch with
    | mcs51 => exact Mcs51.generate_interleaved ofOther restOfOther accepted
    | x64 => exact X64.generate_interleaved ofOther restOfOther accepted
  exact ⟨moved, generate_unplaced.mp made, agrees⟩

/-- It does not matter where declarations stand. If a program has an image, so has every other that mixes
the same variables and buffers, in the same order, with the same other operations, in the same order;
the two images agree. This holds too if all declarations come last, after what uses them. -/
theorem declarations_stand_anywhere (arch : Arch) (program : List Instruction) (image : Image)
    (accepted : generate memory arch program = .ok image) :
    (∀ other : List Instruction,
      (declarations other).map Instruction.op = (declarations program).map Instruction.op →
      (remaining other).map Instruction.op = (remaining program).map Instruction.op →
      ∃ moved, generate memory arch other = .ok moved ∧ image.Agrees moved) ∧
    ∃ moved, generate memory arch (remaining program ++ declarations program) = .ok moved ∧
      image.Agrees moved := by
  refine ⟨fun other declared others => generate_interleaved declared others accepted, ?_⟩
  refine generate_interleaved ?_ ?_ accepted
  · simp [declarations, remaining, List.filter_filter]
  · simp [declarations, remaining, List.filter_filter]

/-- A variable and a buffer, declared first, or between and after the operations that use them. -/
theorem declarations_stand_anywhere_among_uses :
    let early : List Instruction := [⟨.var "x" (some 7), ⟨1, 1⟩⟩, ⟨.buffer "b" 3, ⟨2, 1⟩⟩,
      ⟨.get ⟨0⟩ "x", ⟨3, 1⟩⟩, ⟨.label "end", ⟨4, 1⟩⟩, ⟨.get ⟨1⟩ "b", ⟨5, 1⟩⟩]
    let late : List Instruction := [⟨.get ⟨0⟩ "x", ⟨1, 1⟩⟩, ⟨.var "x" (some 7), ⟨2, 1⟩⟩,
      ⟨.label "end", ⟨3, 1⟩⟩, ⟨.get ⟨1⟩ "b", ⟨4, 1⟩⟩, ⟨.buffer "b" 3, ⟨5, 1⟩⟩]
    (∃ image moved, generate .ofProcess .mcs51 early = .ok image ∧
      generate .ofProcess .mcs51 late = .ok moved ∧ image.Agrees moved) ∧
    (∃ image moved, generate .ofProcess .x64 early = .ok image ∧
      generate .ofProcess .x64 late = .ok moved ∧ image.Agrees moved) := by
  intro early late
  constructor
  · obtain ⟨image, accepted⟩ : ∃ image, generate .ofProcess .mcs51 early = .ok image := ⟨_, rfl⟩
    obtain ⟨moved, made, agrees⟩ :=
      (declarations_stand_anywhere .mcs51 early image accepted).1 late rfl rfl
    exact ⟨image, moved, accepted, made, agrees⟩
  · obtain ⟨image, accepted⟩ : ∃ image, generate .ofProcess .x64 early = .ok image := ⟨_, rfl⟩
    obtain ⟨moved, made, agrees⟩ :=
      (declarations_stand_anywhere .x64 early image accepted).1 late rfl rfl
    exact ⟨image, moved, accepted, made, agrees⟩

end CrossAsm
