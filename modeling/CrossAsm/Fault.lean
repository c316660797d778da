import CrossAsm.Arch
import CrossAsm.Text.Numeral
import CrossAsm.Text.Position

/-!
The errors of the synthesis: why code cannot be generated for a program. `Fault.message` is the only place
that words them.
-/
namespace CrossAsm

/-- What a name stands for: a place in the code, or storage for data. -/
inductive SymbolKind where
  | label | var | buffer
  deriving DecidableEq, Repr

namespace SymbolKind

def text : SymbolKind → String
  | label => "label"
  | var => "variable"
  | buffer => "buffer"

def isData : SymbolKind → Bool
  | label => false
  | var | buffer => true

end SymbolKind

/-- Ways in which an operand of the right kind cannot be used. -/
inductive AddressingFault where
  | notPointer (register : Nat)
  | shiftByRegister (arch : Arch)
  | stackPointerDivision
  | assignedBuffer (name : String)
  | notLabel (name : String) (kind : SymbolKind)
  | notData (name : String)
  /-- Any other, in its own words. -/
  | other (text : String)
  deriving DecidableEq, Repr

namespace AddressingFault

def message : AddressingFault → String
  | notPointer register =>
    s!"R{register} cannot be used for indirect addressing, only R0 and R1 can"
  | shiftByRegister arch => s!"shift count must be an immediate on {arch.prose}"
  | stackPointerDivision => "the stack pointer can't be used in a division"
  | assignedBuffer name =>
    s!"`{name}` is a buffer and cannot be assigned, store through its address instead"
  | notLabel name kind => s!"`{name}` is a {kind.text}, not a label"
  | notData name => s!"`{name}` is a label, not a variable"
  | other text => text

end AddressingFault

inductive Fault where
  | duplicateSymbol (name : String)
  | unresolvedSymbol (name : String)
  | registerOutOfRange (register last : Nat)
  | unsupportedRegister (register : Nat)
  | immediateOutOfRange (value low high : Int)
  | branchOutOfRange (target : String) (displacement low high : Int)
  | addressingMode (fault : AddressingFault)
  | unsupportedOperation (name : String)
  | storageExhausted (what : String) (needed available : Nat)
  | outOfMemory
  | addressBackwards (target : Int) (current : Nat)
  | sizeMismatch (name : String) (expected actual : Nat)
  deriving DecidableEq, Repr

namespace Fault

def message : Fault → String
  | duplicateSymbol name => s!"symbol `{name}` is already defined"
  | unresolvedSymbol name => s!"unresolved symbol `{name}`"
  | registerOutOfRange register last => s!"register r{register} is out of range (r0-r{last})"
  | unsupportedRegister register =>
    s!"register r{register} is not supported, only r0-r7 are available"
  | immediateOutOfRange value low high => s!"immediate {value} is out of range ({low}..={high})"
  | branchOutOfRange target displacement low high =>
    s!"jump to `{target}` is out of range (displacement {displacement}, allowed {low}..={high})"
  | addressingMode fault => fault.message
  | unsupportedOperation name => s!"`{name}` is not supported on this architecture"
  | storageExhausted what needed available =>
    s!"out of {what} storage (need {needed} bytes, {available} left)"
  | outOfMemory => "out of memory while growing the code buffer"
  | addressBackwards target current =>
    "org " ++ Numeral.hexWord target ++ " would move the program counter backwards from " ++
      Numeral.hex current
  | sizeMismatch name expected actual =>
    s!"internal error: `{name}` sized as {expected} bytes but emitted {actual}"

end Fault

/-- Lets a value pass that lies in a range, both ends included. -/
def checkRange (value low high : Int) : Except Fault Int :=
  if low ≤ value ∧ value ≤ high then .ok value else .error (.immediateOutOfRange value low high)

/-- A fault and the instruction at which it arose. -/
structure FaultAt where
  pos : Position
  fault : Fault
  deriving DecidableEq, Repr

namespace FaultAt

/-- A fault met while generating code for `arch`, in words. -/
def message (arch : Arch) (f : FaultAt) : String :=
  arch.name ++ ": " ++ f.pos.text ++ ": " ++ f.fault.message

end FaultAt

end CrossAsm
