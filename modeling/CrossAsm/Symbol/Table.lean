import CrossAsm.Fault

/-!
The symbol table of the synthesis: the names that a program declares. A name is declared once, whatever it
stands for, and entries are kept in the order of declaration.
-/
namespace CrossAsm

/-- An address as a signed 64-bit word. -/
def signedAddress (address : Nat) : Int := Int.bmod address 0x10000000000000000

/-- How far an address is from the end of an instruction, reckoned in signed 64-bit words. -/
def signedDistance (address stop : Nat) : Int := (Int64.ofNat address - Int64.ofNat stop).toInt

structure Symbol where
  kind : SymbolKind
  address : Nat
  deriving DecidableEq, Repr

structure SymbolTable where
  entries : List (String × Symbol) := []
  deriving DecidableEq, Repr

namespace SymbolTable

def empty : SymbolTable := {}

def size (t : SymbolTable) : Nat := t.entries.length

def isEmpty (t : SymbolTable) : Bool := t.entries.isEmpty

def get? (t : SymbolTable) (name : String) : Option Symbol := t.entries.lookup name

def ensureUndefined (t : SymbolTable) (name : String) : Except Fault Unit :=
  if (t.get? name).isSome then .error (.duplicateSymbol name) else .ok ()

/-- Adds a name, unless it is in the table. -/
def define (name : String) (symbol : Symbol) : EStateM Fault SymbolTable Unit := fun t =>
  match t.ensureUndefined name with
  | .error fault => .error fault t
  | .ok _ => .ok () ⟨t.entries ++ [(name, symbol)]⟩

def resolve (t : SymbolTable) (name : String) : Except Fault Symbol :=
  match t.get? name with
  | some symbol => .ok symbol
  | none => .error (.unresolvedSymbol name)

/-- The address of a label. -/
def resolveLabel (t : SymbolTable) (name : String) : Except Fault Nat := do
  let symbol ← t.resolve name
  if symbol.kind = .label then return symbol.address
  else throw (.addressingMode (.notLabel name symbol.kind))

/-- A variable or a buffer. -/
def resolveData (t : SymbolTable) (name : String) : Except Fault Symbol := do
  let symbol ← t.resolve name
  if symbol.kind.isData then return symbol else throw (.addressingMode (.notData name))

/-- Moves all data, and no code, up by `base`. -/
def rebaseData (t : SymbolTable) (base : Nat) : SymbolTable :=
  ⟨t.entries.map fun (name, symbol) =>
    (name, if symbol.kind.isData then { symbol with address := symbol.address + base } else symbol)⟩

/-- By address, and by name at one address. -/
def before (a b : String × Symbol) : Bool :=
  a.2.address < b.2.address || (a.2.address == b.2.address && !decide (b.1 < a.1))

/-- All entries, by address and then by name. -/
def sorted (t : SymbolTable) : List (String × Symbol) := t.entries.mergeSort before

end SymbolTable

end CrossAsm
