import CrossAsm.Program.Mnemonic
import CrossAsm.Text.Numeral

/-!
Listings, the intermediate representation as text: one line for each operation. A label stands at the
start of its line, all else is indented by four blanks.
-/
namespace CrossAsm

namespace Operand

def text : Operand → String
  | reg r => r.text
  | imm n => Numeral.decimal n.toInt

end Operand

namespace Operation

/-- The operands as they are listed. The address of `org` is written as a 64-bit word in
hexadecimal, all other numbers in decimal. -/
def operands : Operation → List String
  | label _ | ret | halt | nop => []
  | mov dest src | binary _ dest src | product _ dest src | shift _ dest src | cmp dest src =>
    [dest.text, src.text]
  | load dest pointer => [dest.text, "[" ++ pointer.text ++ "]"]
  | store pointer src => ["[" ++ pointer.text ++ "]", src.text]
  | unary _ r | push r | pop r => [r.text]
  | jmp target | call target | branch _ target => [target]
  | int n | bit _ n => [Numeral.decimal n.toInt]
  | var name none => [name]
  | var name (some init) => [name, Numeral.decimal init.toInt]
  | buffer name length => [name, Numeral.decimal length.toInt]
  | set name src => [name, src.text]
  | get dest name => [dest.text, name]
  | org address => [Numeral.hexWord address.toInt]
  | bitBranch _ address target => [Numeral.decimal address.toInt, target]
  | djnz counter target => [counter.text, target]

def text (op : Operation) : String :=
  match op with
  | label name => name ++ ":"
  | _ =>
    match op.operands with
    | [] => "    " ++ op.name
    | operands => "    " ++ op.name ++ " " ++ String.intercalate ", " operands

end Operation

/-- The listing of a program, each line ended by a newline. -/
def listing (ops : List Operation) : String :=
  String.join (ops.map fun op => op.text ++ "\n")

end CrossAsm
