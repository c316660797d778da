import CrossAsm.Code.Buffer
import CrossAsm.Code.Layout

/-!
The data region of the x86-64 generator, which follows the code. Variables take one 64-bit word, buffers
are filled with zeros, and all stand one after the other. Addresses are offsets into the region.
-/
namespace CrossAsm.X64

structure Data where
  bytes : List UInt8 := []
  deriving DecidableEq, Repr

namespace Data

def size (d : Data) : Nat := d.bytes.length

/-- The longest buffer. Displacements into the region have 32 bits. -/
def longestBuffer : Int := 0x7FFFFFFF

/-- Adds bytes at the end and gives their offset. -/
def append (memory : Memory) (bytes : List UInt8) : EStateM Fault Data Nat := fun d =>
  if d.size + bytes.length < memory.limit then .ok d.size ⟨d.bytes ++ bytes⟩
  else .error .outOfMemory d

def var (memory : Memory) (init : Option Int64) : EStateM Fault Data Nat :=
  append memory (LittleEndian.bytes 8 (init.getD 0).toUInt64.toNat)

def buffer (memory : Memory) (length : Int64) : EStateM Fault Data Nat := fun d =>
  match checkRange length.toInt 1 longestBuffer with
  | .error fault => .error fault d
  | .ok count => append memory (List.replicate count.toNat 0) d

def allocator (memory : Memory) : Allocator Data := ⟨var memory, buffer memory⟩

end Data

end CrossAsm.X64
