import CrossAsm.Proofs.Lexing
import CrossAsm.Proofs.Numeral
import Mathlib.Data.List.Forall2
import Mathlib.Data.List.TakeWhile
import Mathlib.Data.Nat.Digits.Defs

/-!
Literals mean what they spell. The value of a spelling is said here by the weights of its digits, and
not by the loop that reads them (`readDigits_eq_some_iff`). A literal is read as the number that it
spells with its sign, if this is a 64-bit integer, and as nothing otherwise
(`literals_mean_what_they_spell`). However long it is, its reading may stop at any partial value that no
64-bit integer has (`parseWithin?_eq`).
-/
namespace CrossAsm.Numeral

section Spelling

/-- The digits by their values, with letters in lower case. -/
def lowerDigits : List Char :=
  ['0', '1', '2', '3', '4', '5', '6', '7', '8', '9', 'a', 'b', 'c', 'd', 'e', 'f']

/-- The digits by their values, with letters in upper case. -/
def upperDigits : List Char :=
  ['0', '1', '2', '3', '4', '5', '6', '7', '8', '9', 'A', 'B', 'C', 'D', 'E', 'F']

/-- `c` is the digit of value `d` in a base. -/
def IsDigitOf (base : Nat) (c : Char) (d : Nat) : Prop :=
  d < base ∧ (lowerDigits[d]? = some c ∨ upperDigits[d]? = some c)

/-- The number that one or more digits spell in a base; the last digit has the lowest weight. -/
def Spells (base : Nat) (cs : List Char) (n : Nat) : Prop :=
  cs ≠ [] ∧ ∃ ds, List.Forall₂ (IsDigitOf base) cs ds ∧ Nat.ofDigits base ds.reverse = n

/-- The number that a literal spells without its sign. -/
def Spelled (body : List Char) (n : Nat) : Prop :=
  Spells 10 body n ∨
  (∃ cs, (body = '0' :: 'x' :: cs ∨ body = '0' :: 'X' :: cs) ∧ Spells 16 cs n) ∨
  ∃ cs, (body = '0' :: 'b' :: cs ∨ body = '0' :: 'B' :: cs) ∧ Spells 2 cs n

/-- The sign before a literal. -/
inductive Sign where
  | absent | plus | minus
  deriving DecidableEq, Repr

namespace Sign

def text : Sign → List Char
  | absent => []
  | plus => ['+']
  | minus => ['-']

def apply : Sign → Nat → Int
  | absent, n | plus, n => n
  | minus, n => -n

end Sign

/-- The number of a literal. -/
def Denotes (text : List Char) (value : Int) : Prop :=
  ∃ (sign : Sign) (body : List Char) (n : Nat),
    text = sign.text ++ body ∧ Spelled body n ∧ value = sign.apply n

/-- A text that is collected as one literal: an optional sign, a digit, then letters and digits. -/
structure Literal where
  sign : Sign
  first : Char
  rest : List Char
  isDigit_first : first.isDigit
  isAlphanum_rest : ∀ c ∈ rest, c.isAlphanum

namespace Literal

/-- The characters after the sign. -/
def body (literal : Literal) : List Char := literal.first :: literal.rest

def chars (literal : Literal) : List Char := literal.sign.text ++ literal.body

end Literal

end Spelling

section Digits

variable {base : Nat} {c : Char} {d n : Nat} {cs : List Char}

theorem digitValue_of_table : ∀ d < 16,
    lowerDigits[d]?.bind digitValue = some d ∧ upperDigits[d]?.bind digitValue = some d := by decide

theorem table_of_decimal : ∀ d < 10, lowerDigits[d]? = some (Char.ofNat ('0'.toNat + d)) := by decide

theorem table_of_letter : ∀ d < 6, lowerDigits[d + 10]? = some (Char.ofNat ('a'.toNat + d)) ∧
    upperDigits[d + 10]? = some (Char.ofNat ('A'.toNat + d)) := by decide

/-- A character is found by its distance from the first of its range. -/
theorem ofNat_add_sub {first : Char} (within : first ≤ c) :
    Char.ofNat (first.toNat + (c.toNat - first.toNat)) = c := by
  have above : first.toNat ≤ c.toNat := within
  rw [Nat.add_sub_cancel' above, Char.ofNat_toNat]

/-- Every digit is in one of the tables, in the place of its value. -/
theorem table_of_digitValue (value : digitValue c = some d) (small : d < 16) :
    lowerDigits[d]? = some c ∨ upperDigits[d]? = some c := by
  unfold digitValue at value
  split at value
  next within =>
    have below : c.toNat ≤ 57 := within.2
    cases value
    rw [table_of_decimal _ (Nat.lt_succ_of_le (Nat.sub_le_sub_right below _)), ofNat_add_sub within.1]
    exact .inl rfl
  next =>
    split at value
    next within =>
      cases value
      rw [(table_of_letter _ (by omega)).1, ofNat_add_sub within.1]
      exact .inl rfl
    next =>
      split at value
      next within =>
        cases value
        rw [(table_of_letter _ (by omega)).2, ofNat_add_sub within.1]
        exact .inr rfl
      next => cases value

/-- Digits have the values that they have in the tables. -/
theorem isDigitOf_iff (sixteen : base ≤ 16) :
    IsDigitOf base c d ↔ digitValue c = some d ∧ d < base := by
  constructor
  · rintro ⟨small, listed⟩
    obtain ⟨lower, upper⟩ := digitValue_of_table d (by omega)
    rcases listed with listed | listed
    · rw [listed] at lower
      exact ⟨lower, small⟩
    · rw [listed] at upper
      exact ⟨upper, small⟩
  · rintro ⟨value, small⟩
    exact ⟨small, table_of_digitValue value (by omega)⟩

/-- Each further digit counts one, and the value so far counts as many times as the base says. -/
theorem readDigits_eq_some_iff (sixteen : base ≤ 16) {value : Nat} :
    readDigits base value cs = some n ↔
      ∃ ds, List.Forall₂ (IsDigitOf base) cs ds ∧ ds.foldl (fun so d => d + base * so) value = n := by
  induction cs generalizing value with
  | nil => simp [readDigits]
  | cons c cs ih =>
    have step (d : Nat) : value * base + d = d + base * value := by
      rw [Nat.add_comm, Nat.mul_comm]
    constructor
    · intro read
      obtain ⟨d, known, small, read⟩ := readDigits_cons_eq_some read
      obtain ⟨ds, digits, weighed⟩ := ih.mp read
      rw [step] at weighed
      exact ⟨d :: ds, .cons ((isDigitOf_iff sixteen).mpr ⟨known, small⟩) digits, weighed⟩
    · rintro ⟨_, digits, weighed⟩
      obtain ⟨d, ds, digit, further, rfl⟩ := List.forall₂_cons_left_iff.mp digits
      obtain ⟨known, small⟩ := (isDigitOf_iff sixteen).mp digit
      rw [List.foldl_cons, ← step] at weighed
      simp only [readDigits, known, if_pos small]
      exact ih.mpr ⟨ds, further, weighed⟩

/-- Weights count from the last digit, and reading goes from the first. -/
theorem ofDigits_reverse (ds : List Nat) :
    Nat.ofDigits base ds.reverse = ds.foldl (fun so d => d + base * so) 0 := by
  rw [Nat.ofDigits_eq_foldr, List.foldr_reverse]
  rfl

theorem ofDigits?_eq_some_iff (sixteen : base ≤ 16) :
    ofDigits? base cs = some n ↔ Spells base cs n := by
  cases cs with
  | nil => simp [ofDigits?, Spells]
  | cons c cs =>
    rw [ofDigits?, readDigits_eq_some_iff sixteen]
    simp only [Spells, ofDigits_reverse, ne_eq, reduceCtorEq, not_false_eq_true, true_and]

end Digits

section Bases

variable {body cs : List Char} {n : Nat}

/-- The base of a literal without its sign, and the digits that are read in it. -/
def radix : List Char → Nat × List Char
  | '0' :: c :: cs =>
    if c = 'x' ∨ c = 'X' then (16, cs)
    else if c = 'b' ∨ c = 'B' then (2, cs)
    else (10, '0' :: c :: cs)
  | cs => (10, cs)

/-- A mark after a zero decides the base, and what has none is decimal. -/
theorem radix_cases (body : List Char) :
    (∃ cs, (body = '0' :: 'x' :: cs ∨ body = '0' :: 'X' :: cs) ∧ radix body = (16, cs) ∧
      magnitude? body = ofDigits? 16 cs) ∨
    (∃ cs, (body = '0' :: 'b' :: cs ∨ body = '0' :: 'B' :: cs) ∧ radix body = (2, cs) ∧
      magnitude? body = ofDigits? 2 cs) ∨
    radix body = (10, body) ∧ magnitude? body = ofDigits? 10 body := by
  unfold magnitude?
  split
  next c cs =>
    by_cases hexadecimal : c = 'x' ∨ c = 'X'
    · refine .inl ⟨cs, by simpa using hexadecimal, ?_⟩
      simp [radix, hexadecimal]
    · by_cases binary : c = 'b' ∨ c = 'B'
      · refine .inr (.inl ⟨cs, by simpa using binary, ?_⟩)
        simp [radix, hexadecimal, binary]
      · refine .inr (.inr ?_)
        simp [radix, hexadecimal, binary]
  next body unmarked =>
    refine .inr (.inr ⟨?_, rfl⟩)
    unfold radix
    split
    next c cs => exact absurd rfl (unmarked c cs)
    next => rfl

/-- Letters are no decimal digits. -/
theorem not_spells_of_letter {c : Char} {d : Nat} (value : digitValue c = some d) (large : 10 ≤ d) :
    ¬Spells 10 ('0' :: c :: cs) n := by
  rintro ⟨_, ds, digits, _⟩
  obtain ⟨_, _, _, further, rfl⟩ := List.forall₂_cons_left_iff.mp digits
  obtain ⟨_, _, digit, _, rfl⟩ := List.forall₂_cons_left_iff.mp further
  obtain ⟨known, small⟩ := (isDigitOf_iff (by decide)).mp digit
  cases value.symm.trans known
  exact absurd small (Nat.not_lt.mpr large)

theorem magnitude?_eq_some_iff : magnitude? body = some n ↔ Spelled body n := by
  constructor
  · intro read
    rcases radix_cases body with ⟨cs, marked, _, reads⟩ | ⟨cs, marked, _, reads⟩ | ⟨_, reads⟩
    · exact .inr (.inl ⟨cs, marked, (ofDigits?_eq_some_iff (by decide)).mp (reads ▸ read)⟩)
    · exact .inr (.inr ⟨cs, marked, (ofDigits?_eq_some_iff (by decide)).mp (reads ▸ read)⟩)
    · exact .inl ((ofDigits?_eq_some_iff (by decide)).mp (reads ▸ read))
  · rintro (spells | ⟨cs, rfl | rfl, spells⟩ | ⟨cs, rfl | rfl, spells⟩)
    · rcases radix_cases body with ⟨cs, rfl | rfl, _⟩ | ⟨cs, rfl | rfl, _⟩ | ⟨_, reads⟩
      · exact absurd spells (not_spells_of_letter (d := 33) rfl (by decide))
      · exact absurd spells (not_spells_of_letter (d := 33) rfl (by decide))
      · exact absurd spells (not_spells_of_letter (d := 11) rfl (by decide))
      · exact absurd spells (not_spells_of_letter (d := 11) rfl (by decide))
      · rw [reads]
        exact (ofDigits?_eq_some_iff (by decide)).mpr spells
    · exact (ofDigits?_eq_some_iff (by decide)).mpr spells
    · exact (ofDigits?_eq_some_iff (by decide)).mpr spells
    · exact (ofDigits?_eq_some_iff (by decide)).mpr spells
    · exact (ofDigits?_eq_some_iff (by decide)).mpr spells

theorem magnitude?_eq_ofDigits? (body : List Char) :
    magnitude? body = ofDigits? (radix body).1 (radix body).2 := by
  rcases radix_cases body with ⟨cs, _, parts, reads⟩ | ⟨cs, _, parts, reads⟩ | ⟨parts, reads⟩
  · rw [reads, parts]
  · rw [reads, parts]
  · rw [reads, parts]

theorem radix_pos (body : List Char) : 0 < (radix body).1 := by
  rcases radix_cases body with ⟨cs, _, parts, _⟩ | ⟨cs, _, parts, _⟩ | ⟨parts, _⟩
  · simp [parts]
  · simp [parts]
  · simp [parts]

end Bases

section Limits

variable {limit base value n : Nat} {cs : List Char}

/-- Reads further digits, and gives up once the value so far exceeds `limit`. -/
def readWithin (limit base value : Nat) : List Char → Option Nat
  | [] => some value
  | c :: cs =>
    match digitValue c with
    | some d =>
      if d < base ∧ value * base + d ≤ limit then readWithin limit base (value * base + d) cs else none
    | none => none

/-- Reads one or more digits, whose value never exceeds `limit` on the way. -/
def ofDigitsWithin? (limit base : Nat) : List Char → Option Nat
  | [] => none
  | c :: cs => readWithin limit base 0 (c :: cs)

theorem le_mul_add (positive : 0 < base) (value d : Nat) : value ≤ value * base + d :=
  Nat.le_trans (Nat.le_mul_of_pos_right value positive) (Nat.le_add_right _ d)

/-- Digits never lower the value. -/
theorem le_of_readDigits (positive : 0 < base) (read : readDigits base value cs = some n) :
    value ≤ n := by
  induction cs generalizing value with
  | nil =>
    cases read
    exact Nat.le_refl _
  | cons c cs ih =>
    obtain ⟨d, _, _, read⟩ := readDigits_cons_eq_some read
    exact Nat.le_trans (le_mul_add positive value d) (ih read)

/-- What gives up on the way would have come to a value above the limit. -/
theorem readWithin_eq (positive : 0 < base) (below : value ≤ limit) :
    readWithin limit base value cs = (readDigits base value cs).filter (· ≤ limit) := by
  induction cs generalizing value with
  | nil => simp [readWithin, readDigits, Option.filter_some, below]
  | cons c cs ih =>
    rw [readWithin, readDigits]
    cases digitValue c with
    | none => rfl
    | some d =>
      dsimp only
      by_cases small : d < base
      · rw [if_pos small]
        by_cases within : value * base + d ≤ limit
        · rw [if_pos ⟨small, within⟩, ih within]
        · -- the digits to come cannot lower the value again
          rw [if_neg (by simp [within])]
          cases read : readDigits base (value * base + d) cs with
          | none => rfl
          | some n =>
            have above := le_of_readDigits positive read
            rw [Option.filter_some, if_neg (by simp; omega)]
      · rw [if_neg small, if_neg (by simp [small])]
        rfl

theorem ofDigitsWithin?_eq (positive : 0 < base) :
    ofDigitsWithin? limit base cs = (ofDigits? base cs).filter (· ≤ limit) := by
  cases cs with
  | nil => rfl
  | cons c cs => exact readWithin_eq positive (Nat.zero_le limit)

end Limits

section Literals

theorem int64?_eq_some_iff {value : Int} {n : Int64} : int64? value = some n ↔ value = n.toInt := by
  constructor
  · intro fits
    exact (toInt_of_int64? fits).symm
  · rintro rfl
    exact int64?_toInt n

theorem int64?_eq_none_iff {value : Int} :
    int64? value = none ↔ ¬(-0x8000000000000000 ≤ value ∧ value < 0x8000000000000000) := by
  simp [int64?]

/-- What a literal is read as is what it denotes. -/
theorem denotes_of_parse? {cs : List Char} {value : Int64} (read : parse? cs = some value) :
    Denotes cs value.toInt := by
  have parts (sign : Sign) {body : List Char}
      (read : ((magnitude? body).bind fun n => int64? (sign.apply n)) = some value) :
      Denotes (sign.text ++ body) value.toInt := by
    obtain ⟨n, known, fits⟩ := Option.bind_eq_some_iff.mp read
    exact ⟨sign, body, n, rfl, magnitude?_eq_some_iff.mp known, toInt_of_int64? fits⟩
  unfold parse? at read
  split at read
  next => exact parts .minus read
  next => exact parts .plus read
  next => exact parts .absent read

theorem repr_eq_digits (n : Nat) : n.repr = String.ofList (digits 10 n) := by
  rw [← Register.toDigits_eq_digits, ← Nat.toList_repr, String.ofList_toList]

theorem toString_eq_decimal (n : Int) : toString n = decimal n := by
  cases n with
  | ofNat n =>
    rw [decimal, if_neg (by simp)]
    exact repr_eq_digits n
  | negSucc n =>
    rw [decimal, if_pos (Int.negSucc_lt_zero n)]
    exact congrArg ("-" ++ ·) (repr_eq_digits (n + 1))

namespace Literal

variable (literal : Literal)

theorem parse?_chars : parse? literal.chars =
    (magnitude? literal.body).bind fun n => int64? (literal.sign.apply n) := by
  obtain ⟨sign, first, rest, digit, further⟩ := literal
  cases sign with
  | absent => exact parse?_of_isDigit digit
  | plus => rfl
  | minus => rfl

/-- Reads a literal whose value never exceeds `limit` on the way. -/
def parseWithin? (limit : Nat) : Option Int64 :=
  (ofDigitsWithin? limit (radix literal.body).1 (radix literal.body).2).bind fun n =>
    int64? (literal.sign.apply n)

theorem parseWithin?_eq {limit : Nat} (enough : 0x8000000000000000 ≤ limit) :
    literal.parseWithin? limit = parse? literal.chars := by
  rw [parseWithin?, ofDigitsWithin?_eq (radix_pos _), parse?_chars, magnitude?_eq_ofDigits?]
  cases ofDigits? (radix literal.body).1 (radix literal.body).2 with
  | none => rfl
  | some n =>
    by_cases within : n ≤ limit
    · simp [Option.filter_some, within]
    · have outside : int64? (literal.sign.apply n) = none := by
        rw [int64?_eq_none_iff]
        cases literal.sign <;> simp only [Sign.apply] <;> omega
      simp [Option.filter_some, within, outside]

/-- A text that starts like a number, and goes on with letters and digits, has the parts of a literal. -/
theorem exists_of_startsNumber {c : Char} {cs : List Char} (starts : Token.startsNumber c cs)
    (all : ∀ d ∈ cs, d.isAlphanum) : ∃ literal : Literal, literal.chars = c :: cs := by
  simp only [Token.startsNumber, Bool.or_eq_true, Bool.and_eq_true, beq_iff_eq] at starts
  rcases starts with digit | ⟨signed, digit⟩
  · exact ⟨⟨.absent, c, cs, digit, all⟩, rfl⟩
  · cases cs with
    | nil => cases digit
    | cons first rest =>
      obtain ⟨_, further⟩ := List.forall_mem_cons.mp all
      rcases signed with rfl | rfl
      · exact ⟨⟨.plus, first, rest, digit, further⟩, rfl⟩
      · exact ⟨⟨.minus, first, rest, digit, further⟩, rfl⟩

/-- A literal starts like a number, and is collected to its end. -/
theorem collected : ∃ c cs, Token.startsNumber c cs ∧
    literal.chars = c :: cs.takeWhile Char.isAlphanum := by
  obtain ⟨sign, first, rest, digit, further⟩ := literal
  have body : ∀ c ∈ first :: rest, c.isAlphanum :=
    List.forall_mem_cons.mpr ⟨Token.isAlphanum_of_isDigit digit, further⟩
  cases sign with
  | absent =>
    refine ⟨first, rest, by simp [Token.startsNumber, digit], ?_⟩
    rw [List.takeWhile_eq_self_iff.mpr further]
    rfl
  | plus =>
    refine ⟨'+', first :: rest, by simp [Token.startsNumber, digit], ?_⟩
    rw [List.takeWhile_eq_self_iff.mpr body]
    rfl
  | minus =>
    refine ⟨'-', first :: rest, by simp [Token.startsNumber, digit], ?_⟩
    rw [List.takeWhile_eq_self_iff.mpr body]
    rfl

end Literal

/-- Literals mean what they spell. Whatever is collected as a literal is read as `n` exactly if it
spells a number that is `n` with the sign applied, and is not read exactly if it spells no number or
one that is no 64-bit integer. A reader whose partial values have a limit finds the same, if the
limit leaves room for the magnitude of the least integer. Every integer is read from its decimal
numeral. -/
theorem literals_mean_what_they_spell :
    (∀ text : List Char,
      (∃ c cs, Token.startsNumber c cs ∧ text = c :: cs.takeWhile Char.isAlphanum) ↔
        ∃ literal : Literal, literal.chars = text) ∧
    (∀ literal : Literal,
      (∀ n : Int64, parse? literal.chars = some n ↔
        ∃ m, Spelled literal.body m ∧ literal.sign.apply m = n.toInt) ∧
      (parse? literal.chars = none ↔
        ∀ m, Spelled literal.body m →
          ¬(-0x8000000000000000 ≤ literal.sign.apply m ∧ literal.sign.apply m < 0x8000000000000000)) ∧
      ∀ limit, 0x8000000000000000 ≤ limit → literal.parseWithin? limit = parse? literal.chars) ∧
    ∀ n : Int64, parse? (toString n.toInt).toList = some n := by
  refine ⟨fun text => ⟨?_, ?_⟩, fun literal => ⟨fun n => ?_, ?_, fun _ enough => ?_⟩, fun n => ?_⟩
  · rintro ⟨c, cs, starts, rfl⟩
    obtain ⟨_, _, same, starts, all⟩ := Token.valid_number starts
    rw [same]
    exact Literal.exists_of_startsNumber starts all
  · rintro ⟨literal, rfl⟩
    exact literal.collected
  · rw [literal.parse?_chars, Option.bind_eq_some_iff]
    simp only [magnitude?_eq_some_iff, int64?_eq_some_iff]
  · rw [literal.parse?_chars, Option.bind_eq_none_iff]
    simp only [magnitude?_eq_some_iff, int64?_eq_none_iff]
  · exact literal.parseWithin?_eq enough
  · rw [toString_eq_decimal, parse?_decimal]

end Literals

end CrossAsm.Numeral
