import Mathlib.Data.List.Dedup
import CrossAsm.Proofs.DeclarationOrder

/-!
Symbol tables under any changes. A name keeps what its first definition gave it, and data move with every
rebase after that (`get?_after`); later definitions of the name fail and change nothing. The listing of a
table is fixed by what `get?` finds: it is the one list of all symbols that strictly increases by address
and, at one address, by the bytes of the name in UTF-8 (`eq_sorted_iff`), since these order names as their
characters do (`lt_iff_lex_nameBytes`). So neither the order in which entries are visited nor that in which
names were defined shows in it (`table_over_changes`).
-/
namespace CrossAsm

/-- The bytes of a name in UTF-8. -/
def nameBytes (name : String) : List UInt8 := name.toByteArray.data.toList

section Bytes

theorem nameBytes_eq (name : String) : nameBytes name = name.toList.flatMap String.utf8EncodeChar := by
  rw [nameBytes, ← String.utf8Encode_toList, List.utf8Encode, List.data_toByteArray]

theorem lex_cons_bytes {a b : Nat} {as bs : List UInt8} (first : a < 256) (second : b < 256) :
    List.Lex (· < ·) (UInt8.ofNat a :: as) (UInt8.ofNat b :: bs) ↔
      a < b ∨ a = b ∧ List.Lex (· < ·) as bs := by
  rw [List.cons_lex_cons_iff, UInt8.lt_iff_toNat_lt, ← UInt8.toNat_inj, UInt8.toNat_ofNat_of_lt' first,
    UInt8.toNat_ofNat_of_lt' second]

/-- A character that comes before another one differs from it within its own bytes. -/
theorem lex_encode_of_lt {c d : Char} (less : c < d) (first second : List UInt8) :
    List.Lex (· < ·) (String.utf8EncodeChar c ++ first) (String.utf8EncodeChar d ++ second) := by
  have less : c.val.toNat < d.val.toNat := less
  have bound : d.val.toNat < 0x110000 := by
    have valid := d.valid
    unfold UInt32.isValidChar Nat.isValidChar at valid
    omega
  unfold String.utf8EncodeChar
  generalize c.val.toNat = v, d.val.toNat = w at *
  -- the bytes of one length are digits to the base 64; a longer encoding begins with a greater byte
  have low : v / 64 < w / 64 ∨ v / 64 = w / 64 ∧ v % 64 < w % 64 := by omega
  have middle : v / 4096 < w / 4096 ∨ v / 4096 = w / 4096 ∧ v / 64 % 64 ≤ w / 64 % 64 := by omega
  have high : v / 262144 < w / 262144 ∨
    v / 262144 = w / 262144 ∧ v / 4096 % 64 ≤ w / 4096 % 64 := by omega
  have lead : v / 262144 % 8 = v / 262144 ∧ w / 262144 % 8 = w / 262144 := by omega
  dsimp only
  rw [lead.1, lead.2]
  (repeat' split) <;>
    simp (disch := omega) only [List.cons_append, List.nil_append, lex_cons_bytes] <;> omega

theorem lex_flatMap_encode {first second : List Char} (less : List.Lex (· < ·) first second) :
    List.Lex (· < ·) (first.flatMap String.utf8EncodeChar) (second.flatMap String.utf8EncodeChar) := by
  induction less with
  | @nil c cs =>
    rw [List.flatMap_nil, List.flatMap_cons]
    cases bytes : String.utf8EncodeChar c with
    | nil => exact absurd bytes String.utf8EncodeChar_ne_nil
    | cons byte rest => exact .nil
  | rel less => exact lex_encode_of_lt less _ _
  | cons _ ih => exact List.append_left_lt ih

/-- Names are in the order of their bytes. -/
theorem lt_iff_lex_nameBytes {a b : String} :
    a < b ↔ List.Lex (· < ·) (nameBytes a) (nameBytes b) := by
  have ordered {a b : String} (less : a < b) : List.Lex (· < ·) (nameBytes a) (nameBytes b) := by
    rw [nameBytes_eq, nameBytes_eq]
    exact lex_flatMap_encode (String.lt_iff.mp less)
  refine ⟨ordered, fun lex => ?_⟩
  rcases Std.lt_trichotomy a b with less | rfl | greater
  · exact less
  · exact absurd lex (List.lt_irrefl _)
  · exact absurd lex (List.lt_asymm (ordered greater))

end Bytes

namespace Symbol

theorem moved_zero (symbol : Symbol) : symbol.moved 0 = symbol := by
  unfold moved
  split <;> rfl

theorem moved_moved (first second : Nat) (symbol : Symbol) :
    (symbol.moved first).moved second = symbol.moved (first + second) := by
  obtain ⟨kind, address⟩ := symbol
  cases kind <;> simp [moved, SymbolKind.isData, Nat.add_assoc]

theorem moved_eq (base : Nat) (symbol : Symbol) :
    symbol.moved base = ⟨symbol.kind, symbol.address + if symbol.kind.isData then base else 0⟩ := by
  obtain ⟨kind, address⟩ := symbol
  cases kind <;> rfl

end Symbol

namespace SymbolTable

/-- Strictly by address, and at one address by the bytes of the name. -/
def Precedes (a b : String × Symbol) : Prop :=
  a.2.address < b.2.address ∨
    a.2.address = b.2.address ∧ List.Lex (· < ·) (nameBytes a.1) (nameBytes b.1)

section Listing

variable {t : SymbolTable} {a b : String × Symbol} {listing : List (String × Symbol)}

theorem precedes_of_before (order : before a b = true) (other : a.1 ≠ b.1) : Precedes a b := by
  obtain lower | ⟨same, names⟩ := before_iff.mp order
  · exact .inl lower
  · refine .inr ⟨same, lt_iff_lex_nameBytes.mp ?_⟩
    rcases Std.lt_trichotomy a.1 b.1 with less | equal | greater
    · exact less
    · exact absurd equal other
    · exact absurd greater (String.not_lt.mpr names)

theorem Precedes.asymm (first : Precedes a b) : ¬ Precedes b a := by
  intro second
  obtain lower | ⟨same, names⟩ := first
  · obtain lower' | ⟨same', _⟩ := second <;> omega
  · obtain lower' | ⟨_, names'⟩ := second
    · omega
    · exact List.lt_asymm names names'

theorem pairwise_precedes_sorted (distinct : t.Distinct) : t.sorted.Pairwise Precedes := by
  have ordered : t.sorted.Pairwise fun a b => before a b = true :=
    List.pairwise_mergeSort before_trans before_total _
  have names : (t.sorted.map Prod.fst).Nodup :=
    ((List.mergeSort_perm t.entries before).map Prod.fst).nodup_iff.mpr distinct
  rw [List.Nodup, List.pairwise_map] at names
  exact (ordered.and names).imp fun both => precedes_of_before both.1 both.2

theorem mem_sorted_iff (distinct : t.Distinct) {name : String} {symbol : Symbol} :
    (name, symbol) ∈ t.sorted ↔ t.get? name = some symbol := by
  rw [sorted, List.mem_mergeSort, mem_entries_iff distinct]

theorem nodup_of_pairwise_precedes (ordered : listing.Pairwise Precedes) : listing.Nodup :=
  ordered.imp fun first same => (same ▸ first).asymm (same ▸ first)

/-- The listing is the one list of all symbols that strictly increases. -/
theorem eq_sorted_iff (distinct : t.Distinct) :
    listing = t.sorted ↔ listing.Nodup ∧
      (∀ name symbol, (name, symbol) ∈ listing ↔ t.get? name = some symbol) ∧
      listing.Pairwise Precedes := by
  have ordered := pairwise_precedes_sorted distinct
  constructor
  · rintro rfl
    exact ⟨nodup_of_pairwise_precedes ordered, fun _ _ => mem_sorted_iff distinct, ordered⟩
  · rintro ⟨once, all, strict⟩
    have perm : listing.Perm t.sorted := by
      rw [List.perm_ext_iff_of_nodup once (nodup_of_pairwise_precedes ordered)]
      rintro ⟨name, symbol⟩
      rw [all, mem_sorted_iff distinct]
    exact perm.eq_of_pairwise (fun _ _ _ _ first second => absurd second first.asymm) strict ordered

end Listing

/-- A change of a table. -/
inductive Change where
  | define (name : String) (symbol : Symbol)
  | rebase (base : Nat)
  deriving DecidableEq, Repr

namespace Change

/-- How far changes move the data that are there before them. -/
def shift : List Change → Nat
  | [] => 0
  | define _ _ :: later => shift later
  | rebase base :: later => base + shift later

/-- The names that changes define, also where that fails. -/
def names : List Change → List String
  | [] => []
  | define name _ :: later => name :: names later
  | rebase _ :: later => names later

end Change

/-- The answer to a change, and the table it leaves. -/
def change (t : SymbolTable) : Change → Except Fault Unit × SymbolTable
  | .define name symbol =>
    match SymbolTable.define name symbol t with
    | .ok _ next => (.ok (), next)
    | .error fault left => (.error fault, left)
  | .rebase base => (.ok (), t.rebaseData base)

/-- The table after some changes. -/
def after (t : SymbolTable) (changes : List Change) : SymbolTable :=
  changes.foldl (fun t c => (t.change c).2) t

section Changes

variable {t : SymbolTable} {name : String} {symbol : Symbol} {changes : List Change}

theorem change_define_of_fresh (fresh : t.get? name = none) :
    t.change (.define name symbol) = (.ok (), t.add name symbol) := by
  rw [change, define_eq_ok_iff.mpr ⟨fresh, rfl⟩]

theorem change_define_of_known {found : Symbol} (known : t.get? name = some found) :
    t.change (.define name symbol) = (.error (.duplicateSymbol name), t) := by
  rw [change, define_eq_error_iff.mpr ⟨by simp [known], rfl, rfl⟩]

end Changes

theorem Distinct.rebaseData {t : SymbolTable} (distinct : t.Distinct) (base : Nat) :
    (t.rebaseData base).Distinct := by
  have same : t.Reordered t := ⟨.refl _, distinct⟩
  exact (same.rebaseData base).symm.distinct

theorem Distinct.change {t : SymbolTable} (distinct : t.Distinct) (c : Change) :
    (t.change c).2.Distinct := by
  cases c with
  | rebase base => exact distinct.rebaseData base
  | define name symbol =>
    cases known : t.get? name with
    | none =>
      rw [change_define_of_fresh known]
      exact distinct.add known symbol
    | some found =>
      rw [change_define_of_known known]
      exact distinct

theorem Distinct.after {t : SymbolTable} (distinct : t.Distinct) (changes : List Change) :
    (t.after changes).Distinct := by
  induction changes generalizing t with
  | nil => exact distinct
  | cons c later ih => exact ih (distinct.change c)

theorem distinct_after_empty (changes : List Change) : (empty.after changes).Distinct :=
  Distinct.after (t := empty) List.nodup_nil changes

/-- What a name stands for after some changes: its first definition counts, and data move with what
comes after it. -/
def Change.found? (name : String) : List Change → Option Symbol
  | [] => none
  | define other symbol :: later =>
    if other = name then some (symbol.moved (shift later)) else found? name later
  | rebase _ :: later => found? name later

/-- What is found is what was there, moved, or else the first definition. -/
theorem get?_after (t : SymbolTable) (changes : List Change) (name : String) :
    (t.after changes).get? name =
      ((t.get? name).map (Symbol.moved (Change.shift changes))).or (Change.found? name changes) := by
  induction changes generalizing t with
  | nil =>
    change t.get? name = _
    cases t.get? name <;> simp [Change.shift, Change.found?, Symbol.moved_zero]
  | cons c later ih =>
    change ((t.change c).2.after later).get? name = _
    rw [ih]
    cases c with
    | rebase base =>
      have rebased : (t.change (.rebase base)).2.get? name = (t.get? name).map (Symbol.moved base) :=
        get?_rebaseData t base name
      rw [rebased, Option.map_map, Change.shift, Change.found?]
      congr 2
      funext symbol
      exact Symbol.moved_moved base _ symbol
    | define other symbol =>
      rw [Change.shift, Change.found?]
      cases known : t.get? other with
      | some found =>
        rw [change_define_of_known known]
        by_cases same : other = name
        · simp [← same, known]
        · simp [same]
      | none =>
        rw [change_define_of_fresh known, get?_add]
        by_cases same : other = name
        · simp [← same, known]
        · simp [same, Ne.symm same]

theorem get?_after_empty (changes : List Change) (name : String) :
    (empty.after changes).get? name = Change.found? name changes := by
  rw [get?_after, get?_empty, Option.map_none, Option.none_or]

namespace Change

theorem found?_eq_none_iff {name : String} {changes : List Change} :
    found? name changes = none ↔ name ∉ names changes := by
  induction changes with
  | nil => simp [found?, names]
  | cons c later ih =>
    cases c with
    | rebase base => exact ih
    | define other symbol =>
      rw [found?, names, List.mem_cons, not_or, ← ih]
      by_cases same : other = name
      · simp [same]
      · simp [same, Ne.symm same]

/-- The first definition is found. -/
theorem found?_eq_some_iff {name : String} {symbol : Symbol} {changes : List Change} :
    found? name changes = some symbol ↔ ∃ earlier first later,
      changes = earlier ++ define name first :: later ∧ name ∉ names earlier ∧
        symbol = first.moved (shift later) := by
  constructor
  · intro found
    induction changes with
    | nil => cases found
    | cons c rest ih =>
      cases c with
      | rebase base =>
        obtain ⟨earlier, first, later, rfl, fresh, moved⟩ := ih found
        exact ⟨rebase base :: earlier, first, later, rfl, fresh, moved⟩
      | define other first =>
        rw [found?] at found
        split at found
        next same =>
          cases found
          exact ⟨[], first, rest, by rw [same]; rfl, by simp [names], rfl⟩
        next different =>
          obtain ⟨earlier, first', later, rfl, fresh, moved⟩ := ih found
          refine ⟨define other first :: earlier, first', later, rfl, ?_, moved⟩
          rw [names, List.mem_cons, not_or]
          exact ⟨Ne.symm different, fresh⟩
  · rintro ⟨earlier, first, later, rfl, fresh, rfl⟩
    induction earlier with
    | nil => simp [found?]
    | cons c earlier ih =>
      cases c with
      | rebase base => exact ih fresh
      | define other symbol =>
        rw [names, List.mem_cons, not_or] at fresh
        rw [List.cons_append, found?, if_neg (Ne.symm fresh.1)]
        exact ih fresh.2

/-- The definitions of some entries. -/
def defining (entries : List (String × Symbol)) : List Change :=
  entries.map fun entry => define entry.1 entry.2

theorem shift_defining (entries : List (String × Symbol)) : shift (defining entries) = 0 := by
  induction entries with
  | nil => rfl
  | cons entry later ih => exact ih

theorem found?_defining (entries : List (String × Symbol)) (name : String) :
    found? name (defining entries) = get? ⟨entries⟩ name := by
  induction entries with
  | nil => rfl
  | cons entry later ih =>
    obtain ⟨other, symbol⟩ := entry
    change (if other = name then some (symbol.moved (shift (defining later))) else
      found? name (defining later)) = List.lookup name ((other, symbol) :: later)
    rw [ih, shift_defining, Symbol.moved_zero, List.lookup_cons]
    by_cases same : other = name
    · simp [same]
    · simp [same, beq_false_of_ne (Ne.symm same), get?]

end Change

theorem after_append (t : SymbolTable) (earlier later : List Change) :
    t.after (earlier ++ later) = (t.after earlier).after later :=
  List.foldl_append

/-- The order of definitions of distinct names does not show in what is found. -/
theorem get?_after_reordered {entries reordered : List (String × Symbol)}
    (perm : entries.Perm reordered) (distinct : (entries.map Prod.fst).Nodup)
    (earlier later : List Change) (name : String) :
    (empty.after (earlier ++ (Change.defining reordered ++ later))).get? name =
      (empty.after (earlier ++ (Change.defining entries ++ later))).get? name := by
  have same : Reordered ⟨entries⟩ ⟨reordered⟩ := ⟨perm, distinct⟩
  simp only [after_append, get?_after _ later, get?_after _ (Change.defining _), Change.shift_defining,
    Change.found?_defining, same.get?]

theorem mem_names_iff {changes : List Change} {name : String} :
    name ∈ Change.names changes ↔ name ∈ (empty.after changes).entries.map Prod.fst := by
  have found := get?_after_empty changes name
  constructor
  · intro member
    cases known : (empty.after changes).get? name with
    | none => exact absurd member (Change.found?_eq_none_iff.mp (found.symm.trans known))
    | some symbol => exact List.mem_map_of_mem (mem_of_get? known)
  · intro member
    obtain ⟨⟨_, symbol⟩, listed, rfl⟩ := List.mem_map.mp member
    have known := (mem_entries_iff (distinct_after_empty changes)).mp listed
    apply Decidable.of_not_not
    intro absent
    cases (Change.found?_eq_none_iff.mpr absent).symm.trans (found.symm.trans known)

theorem size_after_empty (changes : List Change) :
    (empty.after changes).size = (Change.names changes).dedup.length := by
  have perm : ((empty.after changes).entries.map Prod.fst).Perm (Change.names changes).dedup := by
    rw [List.perm_ext_iff_of_nodup (distinct_after_empty changes) (List.nodup_dedup _)]
    intro name
    rw [List.mem_dedup, mem_names_iff]
  rw [size, ← perm.length_eq, List.length_map]

/-- Tables in which the same is found are listed alike. -/
theorem sorted_eq_of_get? {t u : SymbolTable} (distinct : t.Distinct) (distinct' : u.Distinct)
    (alike : ∀ name, u.get? name = t.get? name) : u.sorted = t.sorted := by
  obtain ⟨once, all, ordered⟩ := (eq_sorted_iff distinct').mp rfl
  refine (eq_sorted_iff distinct).mpr ⟨once, fun name symbol => ?_, ordered⟩
  rw [all, alike]

/-- What a table tells of the changes that led to it from the empty one. -/
structure Records (changes : List Change) (t : SymbolTable) : Prop where
  /-- A name has what its first definition gave it. Data have moved with every rebase since then. -/
  found : ∀ name symbol, t.get? name = some symbol ↔ ∃ earlier kind address later,
    changes = earlier ++ .define name ⟨kind, address⟩ :: later ∧ name ∉ Change.names earlier ∧
      symbol = ⟨kind, address + if kind.isData then Change.shift later else 0⟩
  fresh : ∀ name symbol, name ∉ Change.names changes → (t.change (.define name symbol)).1 = .ok ()
  /-- No name is defined twice, whatever it stands for. -/
  repeated : ∀ name symbol, name ∈ Change.names changes →
    t.change (.define name symbol) = (.error (.duplicateSymbol name), t)
  size : t.size = (Change.names changes).dedup.length
  /-- The listing is the one list of all symbols that strictly increases. -/
  listing : ∀ entries, entries = t.sorted ↔ entries.Nodup ∧
    (∀ name symbol, (name, symbol) ∈ entries ↔ t.get? name = some symbol) ∧ entries.Pairwise Precedes
  /-- It does not depend on the order in which the entries are visited, -/
  visited : ∀ entries : List (String × Symbol), entries.Perm t.entries → sorted ⟨entries⟩ = t.sorted
  /-- nor on that in which distinct names were defined. -/
  reordered : ∀ earlier entries reordered later,
    changes = earlier ++ (Change.defining entries ++ later) → entries.Perm reordered →
    (entries.map Prod.fst).Nodup →
    (empty.after (earlier ++ (Change.defining reordered ++ later))).sorted = t.sorted

/-- Whatever is defined and rebased, and goes on after definitions that fail, the table records it. -/
theorem table_over_changes (changes : List Change) : Records changes (empty.after changes) where
  found name symbol := by
    rw [get?_after_empty, Change.found?_eq_some_iff]
    constructor
    · rintro ⟨earlier, ⟨kind, address⟩, later, parts, fresh, rfl⟩
      exact ⟨earlier, kind, address, later, parts, fresh, Symbol.moved_eq _ _⟩
    · rintro ⟨earlier, kind, address, later, parts, fresh, rfl⟩
      exact ⟨earlier, ⟨kind, address⟩, later, parts, fresh, (Symbol.moved_eq _ ⟨kind, address⟩).symm⟩
  fresh name symbol absent := by
    have unknown : (empty.after changes).get? name = none := by
      rw [get?_after_empty, Change.found?_eq_none_iff]
      exact absent
    rw [change_define_of_fresh unknown]
  repeated name symbol present := by
    obtain ⟨⟨_, found⟩, listed, rfl⟩ := List.mem_map.mp (mem_names_iff.mp present)
    exact change_define_of_known ((mem_entries_iff (distinct_after_empty changes)).mp listed)
  size := size_after_empty changes
  listing _ := eq_sorted_iff (distinct_after_empty changes)
  visited entries perm := by
    have same : Reordered (empty.after changes) ⟨entries⟩ := ⟨perm.symm, distinct_after_empty changes⟩
    exact same.sorted
  reordered earlier entries reordered later parts perm distinct := by
    refine sorted_eq_of_get? (distinct_after_empty _) (distinct_after_empty _) fun name => ?_
    rw [parts, get?_after_reordered perm distinct]

-- what is defined between two rebases moves only with the second, and a name is not defined again
example : empty.after [.define "a" ⟨.var, 0⟩, .rebase 3, .define "b" ⟨.buffer, 1⟩, .rebase 10,
    .define "a" ⟨.label, 9⟩] = ⟨[("a", ⟨.var, 13⟩), ("b", ⟨.buffer, 11⟩)]⟩ := by decide

end SymbolTable

end CrossAsm
