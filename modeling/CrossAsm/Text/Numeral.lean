/-!
Numerals of the assembly language, as the lexer reads them and messages show them. Literals are decimal,
or hexadecimal after `0x`, or binary after `0b`, with an optional sign, and stand for a signed 64-bit
integer. Numbers are written in decimal, or in hexadecimal after `0x`.
-/
namespace CrossAsm.Numeral

/-- The value of a digit; letters of either case count on from ten. -/
def digitValue (c : Char) : Option Nat :=
  if '0' ≤ c ∧ c ≤ '9' then some (c.toNat - '0'.toNat)
  else if 'a' ≤ c ∧ c ≤ 'z' then some (c.toNat - 'a'.toNat + 10)
  else if 'A' ≤ c ∧ c ≤ 'Z' then some (c.toNat - 'A'.toNat + 10)
  else none

/-- Reads further digits of a number whose digits so far have the value `value`. -/
def readDigits (base value : Nat) : List Char → Option Nat
  | [] => some value
  | c :: cs =>
    match digitValue c with
    | some d => if d < base then readDigits base (value * base + d) cs else none
    | none => none

/-- Reads one or more digits. -/
def ofDigits? (base : Nat) : List Char → Option Nat
  | [] => none
  | c :: cs => readDigits base 0 (c :: cs)

/-- The value of a literal without its sign. -/
def magnitude? : List Char → Option Nat
  | '0' :: c :: cs =>
    if c = 'x' ∨ c = 'X' then ofDigits? 16 cs
    else if c = 'b' ∨ c = 'B' then ofDigits? 2 cs
    else ofDigits? 10 ('0' :: c :: cs)
  | cs => ofDigits? 10 cs

/-- A value that fits in a signed 64-bit integer. -/
def int64? (value : Int) : Option Int64 :=
  if -0x8000000000000000 ≤ value ∧ value < 0x8000000000000000 then some (Int64.ofInt value) else none

/-- Reads a literal. -/
def parse? : List Char → Option Int64
  | '-' :: cs => (magnitude? cs).bind fun n => int64? (-(n : Int))
  | '+' :: cs => (magnitude? cs).bind fun n => int64? n
  | cs => (magnitude? cs).bind fun n => int64? n

/-- The digit of value `n`, in lower case. -/
def digit (n : Nat) : Char :=
  if n < 10 then Char.ofNat ('0'.toNat + n) else Char.ofNat ('a'.toNat + (n - 10))

/-- The digits of `n`, most significant first; zero has one digit. -/
def digits (base n : Nat) : List Char :=
  if _h : n < base ∨ base < 2 then [digit n]
  else digits base (n / base) ++ [digit (n % base)]
termination_by n
decreasing_by exact Nat.div_lt_self (by omega) (by omega)

def decimal (n : Int) : String :=
  if n < 0 then "-" ++ String.ofList (digits 10 n.natAbs) else String.ofList (digits 10 n.natAbs)

/-- The digits of `n` in hexadecimal, filled up with zeros to at least `width`. -/
def hexDigits (width n : Nat) : List Char :=
  let ds := digits 16 n
  List.replicate (width - ds.length) '0' ++ ds

/-- Hexadecimal after `0x`, in lower case. -/
def hex (n : Nat) : String := "0x" ++ String.ofList (digits 16 n)

/-- Hexadecimal after `0x` of the two's complement of `n` in 64 bits. -/
def hexWord (n : Int) : String := hex (n % 0x10000000000000000).toNat

/-- Hexadecimal in upper case without a mark, of at least `width` digits. -/
def hexUpper (width n : Nat) : String := (String.ofList (hexDigits width n)).toUpper

end CrossAsm.Numeral
