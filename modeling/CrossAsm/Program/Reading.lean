import CrossAsm.Program.Mnemonic
import CrossAsm.Token.Window

/-!
The parser of the analysis: it reads a program from its source text. A line holds any number of labels and
then at most one instruction. A line that cannot be read is reported and passed over; the program is
accepted if there is nothing to report.
-/
namespace CrossAsm

/-- What a line holds in place of an unexpected token. -/
inductive Expected where
  | labelOrInstruction | endOfLine | leftBracket | rightBracket | comma
  deriving DecidableEq, Repr

namespace Expected

def text : Expected → String
  | labelOrInstruction => "expected a label or an instruction"
  | endOfLine => "expected end of line"
  | leftBracket => "expected '['"
  | rightBracket => "expected ']'"
  | comma => "expected ','"

end Expected

inductive OperandClass where
  | register | registerOrImmediate | number | symbol
  deriving DecidableEq, Repr

namespace OperandClass

def text : OperandClass → String
  | register => "expected a register"
  | registerOrImmediate => "expected a register or an immediate"
  | number => "expected a number"
  | symbol => "expected a symbol name"

end OperandClass

/-- Why a line cannot be read. -/
inductive ParseFault where
  | scan (fault : ScanFault)
  | unexpectedToken (span : Span) (wanted : Expected)
  /-- The line ends at the offset where an operand should stand. -/
  | missingOperand (offset : Nat)
  | unknownMnemonic (span : Span) (word : String)
  | invalidOperand (span : Span) (wanted : OperandClass)
  deriving DecidableEq, Repr

namespace ParseFault

def report (source : String) : ParseFault → Report
  | scan fault => fault.report source
  | unexpectedToken span wanted => .unexpectedToken source span wanted.text
  | missingOperand offset => .unexpectedEnd source offset "missing operand"
  | unknownMnemonic span word =>
    .single source .unknownMnemonic s!"unknown mnemonic `{word}`" span "not an instruction"
  | invalidOperand span wanted => .single source .invalidOperand "invalid operand" span wanted.text

end ParseFault

/-- A step of reading; what was read before a failure stays read. -/
abbrev Reading := EStateM ParseFault Window

namespace Reading

/-- Takes the current token, whatever it is. -/
def take : Reading (Option Token) := fun w =>
  match Window.take w with
  | .ok token w => .ok token w
  | .error fault w => .error (.scan fault) w

/-- Takes the current token, which must not end the line. -/
def takeOperand : Reading Token := do
  let w ← get
  match w.current with
  | none => throw (.missingOperand w.start)
  | some token =>
    if token.kind = .newline then throw (.missingOperand w.start)
    else
      let _ ← take
      return token

def register : Reading Register := do
  let token ← takeOperand
  match token.kind with
  | .word name =>
    match Token.register? name with
    | some n => return ⟨n⟩
    | none => throw (.invalidOperand token.span .register)
  | _ => throw (.invalidOperand token.span .register)

def operand : Reading Operand := do
  let token ← takeOperand
  match token.kind with
  | .number n => return .imm n
  | .word name =>
    match Token.register? name with
    | some n => return .reg ⟨n⟩
    | none => throw (.invalidOperand token.span .registerOrImmediate)
  | _ => throw (.invalidOperand token.span .registerOrImmediate)

def number : Reading Int64 := do
  let token ← takeOperand
  match token.kind with
  | .number n => return n
  | _ => throw (.invalidOperand token.span .number)

/-- A symbol is a word that names no register. -/
def symbol : Reading String := do
  let token ← takeOperand
  match token.kind with
  | .word name =>
    match Token.register? name with
    | some _ => throw (.invalidOperand token.span .symbol)
    | none => return name
  | _ => throw (.invalidOperand token.span .symbol)

def punct (p : Punct) (wanted : Expected) : Reading Unit := do
  let token ← takeOperand
  if token.kind = .punct p then return () else throw (.unexpectedToken token.span wanted)

def comma : Reading Unit := punct .comma .comma

/-- A register in brackets. -/
def pointer : Reading Register := do
  punct .left .leftBracket
  let r ← register
  punct .right .rightBracket
  return r

/-- Takes a comma, if one is next. -/
def comma? : Reading Bool := do
  match (← get).current with
  | some ⟨.punct .comma, _⟩ =>
    let _ ← take
    return true
  | _ => return false

def registerAndOperand : Reading (Register × Operand) := do
  let r ← register
  comma
  return (r, ← operand)

/-- The operands of an instruction. -/
def operation : Mnemonic → Reading Operation
  | .mov => do
    let (dest, src) ← registerAndOperand
    return .mov dest src
  | .load => do
    let dest ← register
    comma
    return .load dest (← pointer)
  | .store => do
    let p ← pointer
    comma
    return .store p (← operand)
  | .binary op => do
    let (dest, src) ← registerAndOperand
    return .binary op dest src
  | .product op => do
    let (dest, src) ← registerAndOperand
    return .product op dest src
  | .unary op => return .unary op (← register)
  | .shift dir => do
    let (dest, count) ← registerAndOperand
    return .shift dir dest count
  | .cmp => do
    let (left, right) ← registerAndOperand
    return .cmp left right
  | .jmp => return .jmp (← symbol)
  | .call => return .call (← symbol)
  | .branch condition => return .branch condition (← symbol)
  | .ret => return .ret
  | .halt => return .halt
  | .nop => return .nop
  | .push => return .push (← register)
  | .pop => return .pop (← register)
  | .int => return .int (← number)
  | .var => do
    let name ← symbol
    if ← comma? then return .var name (some (← number)) else return .var name none
  | .buffer => do
    let name ← symbol
    comma
    return .buffer name (← number)
  | .set => do
    let name ← symbol
    comma
    return .set name (← operand)
  | .get => do
    let dest ← register
    comma
    return .get dest (← symbol)
  | .org => return .org (← number)
  | .bit op => return .bit op (← number)
  | .bitBranch ifSet => do
    let address ← number
    comma
    return .bitBranch ifSet address (← symbol)
  | .djnz => do
    let counter ← register
    comma
    return .djnz counter (← symbol)

/-- Takes the end of the line. Tells whether another line follows. -/
def endOfLine : Reading Bool := do
  match ← take with
  | none => return false
  | some token =>
    if token.kind = .newline then return true else throw (.unexpectedToken token.span .endOfLine)

/-- An instruction whose mnemonic, the word of the given span, has been taken, and the end of its
line. -/
def instruction (pos : Position) (word : String) (span : Span) :
    Reading (List Instruction × Bool) := do
  match Mnemonic.ofWord? word with
  | none => throw (.unknownMnemonic span word)
  | some mnemonic =>
    let op ← operation mnemonic
    let more ← endOfLine
    return ([⟨op, pos⟩], more)

end Reading

end CrossAsm
