import CrossAsm.Program.Source

/-!
The grammar of a source text, token by token. A line is any number of labels and then nothing or one
instruction, and an instruction is a mnemonic with operands of just the `form` that it takes. The grammar
says nothing of how a line is read.
-/
namespace CrossAsm

/-- The position of an offset: its line is counted by the newlines before it, and its column by the
characters since the last of them, both from one and in words of 32 bits. -/
def Position.ofOffset (source : List Char) (offset : Nat) : Position :=
  let before := source.take offset
  ⟨UInt32.ofNat (before.count '\n' + 1),
    UInt32.ofNat ((before.reverse.takeWhile (· ≠ '\n')).length + 1)⟩

namespace Position

variable {source : List Char}

end Position

/-- A line of a source text. -/
structure SourceLine where
  tokens : List Token
  /-- The offset at which the line ends. -/
  stop : Nat
  deriving DecidableEq, Repr

namespace SourceLine

/-- Splits tokens at the newlines into the first line and those that follow. -/
def split (length : Nat) : List Token → SourceLine × List SourceLine
  | [] => (⟨[], length⟩, [])
  | t :: rest =>
    let (first, others) := split length rest
    if t.kind = .newline then (⟨[], t.span.start⟩, first :: others)
    else (⟨t :: first.tokens, first.stop⟩, others)

/-- The lines of a source text of so many characters. -/
def ofTokens (length : Nat) (tokens : List Token) : List SourceLine :=
  (split length tokens).1 :: (split length tokens).2

end SourceLine

namespace Grammar

def Is (p : Punct) (t : Token) : Prop := t.kind = .punct p

def IsNumber (t : Token) (n : Int64) : Prop := t.kind = .number n

def IsRegister (t : Token) (r : Register) : Prop :=
  ∃ word, t.kind = .word word ∧ Token.register? word = some r.number

/-- A symbol is a word that names no register. -/
def IsSymbol (t : Token) (name : String) : Prop :=
  t.kind = .word name ∧ Token.register? name = none

inductive IsOperand (t : Token) : Operand → Prop
  | reg {r : Register} (register : IsRegister t r) : IsOperand t (.reg r)
  | imm {n : Int64} (number : IsNumber t n) : IsOperand t (.imm n)

/-- Letters of either case spell a mnemonic. -/
def Spells (word : String) (m : Mnemonic) : Prop := word.toList.map Char.toLower = m.name.toList

/-- The forms of operand lists, each with the operation that is made of its operands. -/
inductive Form where
  | registerAndOperand (make : Register → Operand → Operation)
  | registerAndPointer (make : Register → Register → Operation)
  | pointerAndOperand (make : Register → Operand → Operation)
  | register (make : Register → Operation)
  | symbol (make : String → Operation)
  | number (make : Int64 → Operation)
  | nothing (op : Operation)
  /-- The number may be left out. -/
  | symbolAndNumber? (make : String → Option Int64 → Operation)
  | symbolAndNumber (make : String → Int64 → Operation)
  | symbolAndOperand (make : String → Operand → Operation)
  | registerAndSymbol (make : Register → String → Operation)
  | numberAndSymbol (make : Int64 → String → Operation)

/-- The operands that a mnemonic takes. -/
def form : Mnemonic → Form
  | .mov => .registerAndOperand .mov
  | .binary op => .registerAndOperand (.binary op)
  | .product op => .registerAndOperand (.product op)
  | .shift dir => .registerAndOperand (.shift dir)
  | .cmp => .registerAndOperand .cmp
  | .load => .registerAndPointer .load
  | .store => .pointerAndOperand .store
  | .unary op => .register (.unary op)
  | .push => .register .push
  | .pop => .register .pop
  | .jmp => .symbol .jmp
  | .branch condition => .symbol (.branch condition)
  | .call => .symbol .call
  | .ret => .nothing .ret
  | .halt => .nothing .halt
  | .nop => .nothing .nop
  | .int => .number .int
  | .org => .number .org
  | .bit op => .number (.bit op)
  | .var => .symbolAndNumber? .var
  | .buffer => .symbolAndNumber .buffer
  | .set => .symbolAndOperand .set
  | .get => .registerAndSymbol .get
  | .bitBranch ifSet => .numberAndSymbol (.bitBranch ifSet)
  | .djnz => .registerAndSymbol .djnz

/-- The tokens of an operand list, and the operation that they make. -/
inductive Form.Admits : Form → List Token → Operation → Prop
  | registerAndOperand {make : Register → Operand → Operation} {a c b : Token} {dest : Register}
    {src : Operand} (first : IsRegister a dest) (comma : Is .comma c) (second : IsOperand b src) :
    Admits (.registerAndOperand make) [a, c, b] (make dest src)
  | registerAndPointer {make : Register → Register → Operation} {a c o b e : Token} {dest p : Register}
    (first : IsRegister a dest) (comma : Is .comma c) (opened : Is .left o) (second : IsRegister b p)
    (closed : Is .right e) : Admits (.registerAndPointer make) [a, c, o, b, e] (make dest p)
  | pointerAndOperand {make : Register → Operand → Operation} {o a e c b : Token} {p : Register}
    {src : Operand} (opened : Is .left o) (first : IsRegister a p) (closed : Is .right e)
    (comma : Is .comma c) (second : IsOperand b src) :
    Admits (.pointerAndOperand make) [o, a, e, c, b] (make p src)
  | register {make : Register → Operation} {a : Token} {r : Register} (only : IsRegister a r) :
    Admits (.register make) [a] (make r)
  | symbol {make : String → Operation} {a : Token} {name : String} (only : IsSymbol a name) :
    Admits (.symbol make) [a] (make name)
  | number {make : Int64 → Operation} {a : Token} {n : Int64} (only : IsNumber a n) :
    Admits (.number make) [a] (make n)
  | nothing {op : Operation} : Admits (.nothing op) [] op
  | symbolAlone {make : String → Option Int64 → Operation} {a : Token} {name : String}
    (only : IsSymbol a name) : Admits (.symbolAndNumber? make) [a] (make name none)
  | symbolAndNumber? {make : String → Option Int64 → Operation} {a c b : Token} {name : String}
    {n : Int64} (first : IsSymbol a name) (comma : Is .comma c) (second : IsNumber b n) :
    Admits (.symbolAndNumber? make) [a, c, b] (make name (some n))
  | symbolAndNumber {make : String → Int64 → Operation} {a c b : Token} {name : String} {n : Int64}
    (first : IsSymbol a name) (comma : Is .comma c) (second : IsNumber b n) :
    Admits (.symbolAndNumber make) [a, c, b] (make name n)
  | symbolAndOperand {make : String → Operand → Operation} {a c b : Token} {name : String}
    {src : Operand} (first : IsSymbol a name) (comma : Is .comma c) (second : IsOperand b src) :
    Admits (.symbolAndOperand make) [a, c, b] (make name src)
  | registerAndSymbol {make : Register → String → Operation} {a c b : Token} {r : Register}
    {name : String} (first : IsRegister a r) (comma : Is .comma c) (second : IsSymbol b name) :
    Admits (.registerAndSymbol make) [a, c, b] (make r name)
  | numberAndSymbol {make : Int64 → String → Operation} {a c b : Token} {n : Int64} {name : String}
    (first : IsNumber a n) (comma : Is .comma c) (second : IsSymbol b name) :
    Admits (.numberAndSymbol make) [a, c, b] (make n name)

/-- The tokens of a line and the instructions that they make, each at the place of its first token. -/
inductive Line (place : Nat → Position) : List Token → List Instruction → Prop
  | blank : Line place [] []
  | label {name : String} {t c : Token} {rest : List Token} {instructions : List Instruction}
    (word : t.kind = .word name) (colon : Is .colon c) (later : Line place rest instructions) :
    Line place (t :: c :: rest) (⟨.label name, place t.span.start⟩ :: instructions)
  | instruction {word : String} {m : Mnemonic} {t : Token} {rest : List Token} {op : Operation}
    (named : t.kind = .word word) (spelled : Spells word m) (operands : (form m).Admits rest op) :
    Line place (t :: rest) [⟨op, place t.span.start⟩]

/-- The lines of a text and the program that they make one after the other. -/
inductive Lines (place : Nat → Position) : List SourceLine → List Instruction → Prop
  | nil : Lines place [] []
  | cons {l : SourceLine} {ls : List SourceLine} {first rest : List Instruction}
    (line : Line place l.tokens first) (others : Lines place ls rest) :
    Lines place (l :: ls) (first ++ rest)

/-- No instructions can be made of the line. -/
def Malformed (place : Nat → Position) (l : SourceLine) : Prop :=
  ∀ instructions, ¬ Line place l.tokens instructions

/-- The fault is one of this line: at one of its tokens, or where it ends. -/
def Blames (l : SourceLine) : ParseFault → Prop
  | .scan _ => False
  | .unexpectedToken span _ | .invalidOperand span _ => ∃ t ∈ l.tokens, t.span = span
  | .unknownMnemonic span word => ⟨.word word, span⟩ ∈ l.tokens ∧ ∀ m, ¬ Spells word m
  | .missingOperand offset => offset = l.stop

/-- One fault for each malformed line, in the order of the lines. -/
inductive Faults (place : Nat → Position) : List SourceLine → List ParseFault → Prop
  | nil : Faults place [] []
  | sound {l : SourceLine} {ls : List SourceLine} {instructions : List Instruction}
    {faults : List ParseFault} (line : Line place l.tokens instructions) (others : Faults place ls faults) :
    Faults place (l :: ls) faults
  | malformed {l : SourceLine} {ls : List SourceLine} {fault : ParseFault} {faults : List ParseFault}
    (line : Malformed place l) (blamed : Blames l fault) (others : Faults place ls faults) :
    Faults place (l :: ls) (fault :: faults)

end Grammar

end CrossAsm
