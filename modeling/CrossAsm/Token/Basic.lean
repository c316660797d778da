import CrossAsm.Text.Numeral
import CrossAsm.Text.Position

/-!
Tokens of the assembly language, as the lexer hands them to the parser: words, numbers, punctuation and
line ends. Words of the form `r0` to `r255`, in either case, name registers.
-/
namespace CrossAsm

inductive Punct where
  | comma | colon | left | right
  deriving DecidableEq, Repr

namespace Punct

def ofChar? : Char → Option Punct
  | ',' => some comma
  | ':' => some colon
  | '[' => some left
  | ']' => some right
  | _ => none

def toChar : Punct → Char
  | comma => ','
  | colon => ':'
  | left => '['
  | right => ']'

@[simp] theorem ofChar?_toChar (p : Punct) : ofChar? p.toChar = some p := by cases p <;> rfl

end Punct

namespace Token

inductive Kind where
  | word (name : String)
  | number (value : Int64)
  | punct (p : Punct)
  | newline
  deriving DecidableEq, Repr

end Token

/-- A token and the characters that spell it. -/
structure Token where
  kind : Token.Kind
  span : Span
  deriving DecidableEq, Repr

namespace Token

def startsWord (c : Char) : Bool := c.isAlpha || c == '_' || c == '.'

def continuesWord (c : Char) : Bool := c.isAlphanum || c == '_' || c == '.'

/-- A digit starts a number, and so does a sign right before a digit. -/
def startsNumber (c : Char) (rest : List Char) : Bool :=
  c.isDigit || ((c == '+' || c == '-') && rest.head?.any Char.isDigit)

/-- The number of the register that a word names. -/
def register? (word : String) : Option UInt8 :=
  match word.toList with
  | c :: digits =>
    if (c = 'r' ∨ c = 'R') ∧ digits.all Char.isDigit then
      (Numeral.ofDigits? 10 digits).bind fun n => if n < 256 then some (UInt8.ofNat n) else none
    else none
  | [] => none

end Token

end CrossAsm
