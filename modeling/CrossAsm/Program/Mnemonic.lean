import CrossAsm.Program.Operation

/-!
Mnemonics: the words by which the parser knows operations in a source text, in either case.
-/
namespace CrossAsm

/-- An operation without its operands. -/
inductive Mnemonic where
  | mov | load | store
  | binary (op : BinaryOp)
  | product (op : ProductOp)
  | unary (op : UnaryOp)
  | shift (dir : Shift)
  | cmp | jmp | call
  | branch (condition : Condition)
  | ret | halt | nop | push | pop | int | var | buffer | set | get | org
  | bit (op : BitOp)
  | bitBranch (ifSet : Bool)
  | djnz
  deriving DecidableEq, Repr

namespace Mnemonic

def name : Mnemonic → String
  | mov => "mov"
  | load => "load"
  | store => "store"
  | binary op => op.name
  | product op => op.name
  | unary op => op.name
  | shift dir => dir.name
  | cmp => "cmp"
  | jmp => "jmp"
  | call => "call"
  | branch condition => condition.name
  | ret => "ret"
  | halt => "halt"
  | nop => "nop"
  | push => "push"
  | pop => "pop"
  | int => "int"
  | var => "var"
  | buffer => "buffer"
  | set => "set"
  | get => "get"
  | org => "org"
  | bit op => op.name
  | bitBranch true => "jb"
  | bitBranch false => "jnb"
  | djnz => "djnz"

def all : List Mnemonic :=
  [mov, load, store,
    binary .add, binary .sub, binary .and, binary .or, binary .xor,
    product .mul, product .div, product .mod,
    unary .not, unary .neg, unary .inc, unary .dec,
    shift .left, shift .right, cmp, jmp, call,
    branch .equal, branch .notEqual, branch .less, branch .greater, branch .lessEqual,
    branch .greaterEqual,
    ret, halt, nop, push, pop, int, var, buffer, set, get, org,
    bit .set, bit .clear, bit .complement, bitBranch true, bitBranch false, djnz]

/-- The mnemonic that a word spells, ASCII letters of either case being the same. -/
def ofWord? (word : String) : Option Mnemonic :=
  let lower := word.toList.map Char.toLower
  all.find? fun m => m.name.toList == lower

end Mnemonic

namespace Operation

/-- The mnemonic of an operation; a label has none. -/
def mnemonic? : Operation → Option Mnemonic
  | label _ => none
  | mov .. => some .mov
  | load .. => some .load
  | store .. => some .store
  | binary op .. => some (.binary op)
  | product op .. => some (.product op)
  | unary op _ => some (.unary op)
  | shift dir .. => some (.shift dir)
  | cmp .. => some .cmp
  | jmp _ => some .jmp
  | call _ => some .call
  | branch condition _ => some (.branch condition)
  | ret => some .ret
  | halt => some .halt
  | nop => some .nop
  | push _ => some .push
  | pop _ => some .pop
  | int _ => some .int
  | var .. => some .var
  | buffer .. => some .buffer
  | set .. => some .set
  | get .. => some .get
  | org _ => some .org
  | bit op _ => some (.bit op)
  | bitBranch ifSet .. => some (.bitBranch ifSet)
  | djnz .. => some .djnz

/-- The name of an operation as it appears in messages. -/
def name (op : Operation) : String := (op.mnemonic?.map Mnemonic.name).getD "label"

end Operation

end CrossAsm
