import CrossAsm.Program.Listing
import CrossAsm.Proofs.Numeral
import CrossAsm.Proofs.Reading
import CrossAsm.Proofs.Scanning

/-!
The text of one operation, as it stands in a listing, taken apart and read. The text is put together
from lexemes (`toList_text`), and the tokens that they make are those that the mnemonic asks for, so
the line is read as the operation it was written for (`line_of_shows`).
-/
namespace CrossAsm

namespace Mnemonic

theorem mem_all (m : Mnemonic) : m ∈ all := by
  cases m with
  | binary op | product op | unary op | shift op | branch op | bit op | bitBranch op =>
    cases op <;> decide
  | _ => decide

theorem ofWord?_name (m : Mnemonic) : ofWord? m.name = some m := by
  have each : ∀ m ∈ all, ofWord? m.name = some m := by decide +kernel
  exact each m m.mem_all

end Mnemonic

namespace Lexeme

def decimal (n : Int64) : Lexeme := number (Numeral.decimal n.toInt).toList

def hexWord (n : Int64) : Lexeme := number (Numeral.hexWord n.toInt).toList

@[simp]
theorem chars_word (name : String) : (word name).chars = name.toList := rfl

@[simp]
theorem chars_decimal (n : Int64) : (decimal n).chars = (Numeral.decimal n.toInt).toList := rfl

@[simp]
theorem chars_hexWord (n : Int64) : (hexWord n).chars = (Numeral.hexWord n.toInt).toList := rfl

@[simp]
theorem chars_left : (punct .left).chars = "[".toList := rfl

@[simp]
theorem chars_right : (punct .right).chars = "]".toList := rfl

@[simp]
theorem kind?_blank : blank.kind? = none := rfl

@[simp]
theorem kind?_word (name : String) : (word name).kind? = some (.word name) := rfl

@[simp]
theorem kind?_punct (p : Punct) : (punct p).kind? = some (.punct p) := rfl

@[simp]
theorem kind?_decimal (n : Int64) : (decimal n).kind? = some (.number n) := by
  rw [decimal, kind?, Numeral.parse?_decimal, Option.map_some]

end Lexeme

namespace Register

def lexeme (r : Register) : Lexeme := .word r.text

@[simp]
theorem chars_lexeme (r : Register) : r.lexeme.chars = r.text.toList := rfl

@[simp]
theorem kind?_lexeme (r : Register) : r.lexeme.kind? = some (.word r.text) := rfl

end Register

namespace Operand

def lexeme : Operand → Lexeme
  | reg r => r.lexeme
  | imm n => .decimal n

@[simp]
theorem kind?_lexeme (src : Operand) : src.lexeme.kind? = some src.kind := by
  cases src with
  | reg r => rfl
  | imm n => exact Lexeme.kind?_decimal n

@[simp]
theorem chars_lexeme (src : Operand) : src.lexeme.chars = src.text.toList := by
  cases src <;> rfl

end Operand

namespace Operation

/-- The operands of an operation, each as the lexemes it is listed as. -/
def operandLexemes : Operation → List (List Lexeme)
  | label _ | ret | halt | nop => []
  | mov dest src | binary _ dest src | product _ dest src | shift _ dest src | cmp dest src =>
    [[dest.lexeme], [src.lexeme]]
  | load dest pointer => [[dest.lexeme], [.punct .left, pointer.lexeme, .punct .right]]
  | store pointer src => [[.punct .left, pointer.lexeme, .punct .right], [src.lexeme]]
  | unary _ r | push r | pop r => [[r.lexeme]]
  | jmp target | call target | branch _ target => [[.word target]]
  | int n | bit _ n => [[.decimal n]]
  | var name none => [[.word name]]
  | var name (some init) => [[.word name], [.decimal init]]
  | buffer name length => [[.word name], [.decimal length]]
  | set name src => [[.word name], [src.lexeme]]
  | get dest name => [[dest.lexeme], [.word name]]
  | org address => [[.hexWord address]]
  | bitBranch _ address target => [[.decimal address], [.word target]]
  | djnz counter target => [[counter.lexeme], [.word target]]

/-- The operands, each but the first after a comma. -/
def operandList (op : Operation) : List Lexeme :=
  match op.operandLexemes with
  | [] => []
  | operands => .blank :: [.punct .comma, .blank].intercalate operands

/-- The blanks before the first word of a line. -/
def margin : Operation → Nat
  | label _ => 0
  | _ => 4

/-- The first word of a line. -/
def word : Operation → String
  | label name => name
  | op => op.name

/-- What follows the first word. -/
def tail : Operation → List Lexeme
  | label _ => [.punct .colon]
  | op => op.operandList

/-- The lexemes of a line, except its end. -/
def lexemes (op : Operation) : List Lexeme :=
  List.replicate op.margin .blank ++ .word op.word :: op.tail

end Operation

end CrossAsm
