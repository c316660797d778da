import CrossAsm.Code.Buffer
import CrossAsm.Symbol.Table

/-!
Images, the executables in which synthesis ends. On x86-64 the data follow the instructions; on the 8051
they are in internal RAM, whose initial contents are given apart.
-/
namespace CrossAsm

structure Image where
  arch : Arch
  /-- The instructions, and after them the data if they are part of the image. -/
  code : Array UInt8
  /-- How many bytes of the image are instructions. -/
  codeSize : Nat
  symbols : SymbolTable
  /-- Initial contents of internal RAM. -/
  ram : List UInt8
  deriving DecidableEq, Repr

namespace Image

def instructions (image : Image) : List UInt8 := image.code.toList.take image.codeSize

def data (image : Image) : List UInt8 := image.code.toList.drop image.codeSize

/-- The 64-bit word at an address of the image. -/
def word? (image : Image) (address : Nat) : Option Int64 :=
  if address + 8 ≤ image.code.size then
    some (Int64.ofNat (LittleEndian.value (image.code.extract address (address + 8)).toList))
  else none

/-- The initial value of a variable; other names have none. -/
def readVariable (image : Image) (name : String) : Option Int := do
  let symbol ← image.symbols.get? name
  guard (symbol.kind = .var)
  match image.arch with
  | .mcs51 => image.ram[symbol.address]?.map fun b => (b.toNat : Int)
  | .x64 => (image.word? symbol.address).map Int64.toInt

end Image

end CrossAsm
