import CrossAsm.Code.Layout

/-!
The RAM of the 8051 generator. Variables, one byte each, and buffers are placed one after the other above
the register banks and the bit-addressable area, as far as internal RAM can be addressed directly.
-/
namespace CrossAsm.Mcs51

namespace Ram

/-- The size of directly addressable RAM. -/
def size : Nat := 0x80

/-- The first address that is handed out. -/
def start : Nat := 0x30

end Ram

structure Ram where
  /-- The initial contents. -/
  image : List UInt8 := List.replicate Ram.size 0
  /-- The next address that is handed out. -/
  next : Nat := Ram.start
  deriving DecidableEq, Repr

namespace Ram

/-- Hands out so many bytes. -/
def reserve (count : Nat) : EStateM Fault Ram Nat := fun ram =>
  let available := size - ram.next
  if available < count then .error (.storageExhausted "internal RAM" count available) ram
  else .ok ram.next { ram with next := ram.next + count }

/-- A variable; its initial value may be meant as signed or unsigned. -/
def var (init : Option Int64) : EStateM Fault Ram Nat := fun ram =>
  match checkRange ((init.map Int64.toInt).getD 0) (-128) 255 with
  | .error fault => .error fault ram
  | .ok value =>
    match reserve 1 ram with
    | .error fault ram => .error fault ram
    | .ok address ram => .ok address { ram with image := ram.image.set address (UInt8.ofInt value) }

def buffer (length : Int64) : EStateM Fault Ram Nat := fun ram =>
  match checkRange length.toInt 1 size with
  | .error fault => .error fault ram
  | .ok count => reserve count.toNat ram

def allocator : Allocator Ram := ⟨var, buffer⟩

end Ram

end CrossAsm.Mcs51
