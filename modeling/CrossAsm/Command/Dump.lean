import CrossAsm.Image
import CrossAsm.Text.Numeral

/-!
What the command prints about an image: its bytes in rows of sixteen, and its symbols by address.
Colours are escape sequences around the text.
-/
namespace CrossAsm

inductive Colour where
  | brightGreen | brightBlue | dimmed | cyan | bold
  deriving DecidableEq, Repr

namespace Colour

def code : Colour → String
  | brightGreen => "92"
  | brightBlue => "94"
  | dimmed => "2"
  | cyan => "36"
  | bold => "1"

/-- A text in this colour, if colours are wanted. -/
def paint (colour : Colour) (wanted : Bool) (text : String) : String :=
  if wanted then "\x1b[" ++ colour.code ++ "m" ++ text ++ "\x1b[0m" else text

end Colour

namespace Dump

/-- Fills up with blanks at the left. -/
def padLeft (width : Nat) (text : String) : String :=
  String.ofList (List.replicate (width - text.length) ' ') ++ text

/-- The rows of sixteen bytes, each with the offset of its first byte. -/
def rows (offset : Nat) (bytes : List UInt8) : List (Nat × List UInt8) :=
  match bytes with
  | [] => []
  | b :: bs => (offset, (b :: bs).take 16) :: rows (offset + 16) (bs.drop 15)
termination_by bytes.length
decreasing_by simp only [List.length_drop, List.length_cons]; omega

def byte (b : UInt8) : String := Numeral.hexUpper 2 b.toNat

/-- One row: its offset in so many digits, and its bytes. Bytes from `limit` on are data. -/
def row (colours : Bool) (width limit : Nat) (r : Nat × List UInt8) : String :=
  let bytes := r.2.zipIdx.map fun (b, i) =>
    if r.1 + i < limit then byte b else Colour.cyan.paint colours (byte b)
  Colour.dimmed.paint colours (Numeral.hexUpper width r.1) ++ " " ++ String.intercalate " " bytes

/-- The bytes of an image, and the initial contents of RAM unless it is all zero. -/
def bytes (colours : Bool) (image : Image) : List String :=
  let code := (rows 0 image.code.toList).map (row colours 8 image.codeSize)
  if image.ram.all (· == 0) then code
  else
    code ++ Colour.bold.paint colours "internal ram" ::
      (rows 0 image.ram).map (row colours 2 image.ram.length)

def symbols (colours : Bool) (image : Image) : List String :=
  image.symbols.sorted.map fun (name, symbol) =>
    Colour.brightBlue.paint colours (padLeft 12 symbol.kind.text) ++ " 0x" ++
      String.ofList (Numeral.hexDigits 4 symbol.address) ++ " " ++ name

end Dump

end CrossAsm
