import CrossAsm.Fault

/-!
The code buffer of the synthesis, and the bytes that go into it. Words stand with their least significant
byte first, and `LittleEndian.value` reads what `LittleEndian.bytes` writes. The encoding of one native
instruction has at most fifteen bytes. A buffer holds the bytes generated so far. It grows at its end, and
bytes inside it can be overwritten. Growth fails once more memory is asked for than there is, and then the
buffer stays as it is.
-/
namespace CrossAsm

namespace LittleEndian

/-- The low `width` bytes of `n`. -/
def bytes : (width : Nat) → (n : Nat) → List UInt8
  | 0, _ => []
  | width + 1, n => UInt8.ofNat n :: bytes width (n / 256)

def value : List UInt8 → Nat
  | [] => 0
  | b :: bs => b.toNat + 256 * value bs

@[simp] theorem length_bytes (width n : Nat) : (bytes width n).length = width := by
  induction width generalizing n with
  | zero => rfl
  | succ width ih => simp [bytes, ih]

/-- Reading back gives the word modulo its width. -/
theorem value_bytes (width n : Nat) : value (bytes width n) = n % Nat.pow 256 width := by
  induction width generalizing n with
  | zero => simp [bytes, value, Nat.mod_one]
  | succ width ih =>
    have byte : (UInt8.ofNat n).toNat = n % 256 := by simp
    rw [bytes, value, ih, byte, Nat.pow_eq, Nat.pow_eq, Nat.pow_succ, Nat.mul_comm (256 ^ width) 256,
      Nat.mod_mul]

end LittleEndian

structure Encoding where
  bytes : List UInt8
  fits : bytes.length ≤ 15
  deriving DecidableEq, Repr

namespace Encoding

def ofBytes? (bytes : List UInt8) : Option Encoding :=
  if h : bytes.length ≤ 15 then some ⟨bytes, h⟩ else none

def empty : Encoding := ⟨[], by decide⟩

/-- Adds bytes at the end, if they fit. -/
def append? (e : Encoding) (bytes : List UInt8) : Option Encoding := ofBytes? (e.bytes ++ bytes)

/-- The bytes in hexadecimal, in brackets and divided by commas. -/
def text (e : Encoding) : String :=
  "[" ++ String.intercalate ", " (e.bytes.map fun b => Numeral.hexUpper 2 b.toNat) ++ "]"

end Encoding

/-- The memory at hand. How much there is is left open, as long as all code of an 8051 fits into it and
no buffer takes half of what a word can address. -/
structure Memory where
  /-- A buffer holds fewer bytes than this. -/
  limit : Nat
  enough : 0x10000 < limit
  bounded : limit ≤ 0x8000000000000000
  deriving DecidableEq, Repr

/-- As much memory as a process can address. -/
def Memory.ofProcess : Memory where
  limit := 0x800000000000
  enough := by decide
  bounded := by decide

structure CodeBuffer where
  bytes : Array UInt8 := #[]
  deriving DecidableEq, Repr

namespace CodeBuffer

def empty : CodeBuffer := {}

def size (b : CodeBuffer) : Nat := b.bytes.size

/-- Whether `count` more bytes fit. -/
def fits (memory : Memory) (b : CodeBuffer) (count : Nat) : Bool := b.size + count < memory.limit

/-- An empty buffer with room for `capacity` bytes. -/
def withCapacity (memory : Memory) (capacity : Nat) : Except Fault CodeBuffer :=
  if empty.fits memory capacity then .ok empty else .error .outOfMemory

/-- Adds bytes at the end. -/
def extend (memory : Memory) (bytes : List UInt8) : EStateM Fault CodeBuffer Unit := fun b =>
  if b.fits memory bytes.length then .ok () ⟨b.bytes ++ bytes⟩ else .error .outOfMemory b

/-- Adds a byte so many times. -/
def fill (memory : Memory) (byte : UInt8) (count : Nat) : EStateM Fault CodeBuffer Unit := fun b =>
  if b.fits memory count then .ok () ⟨b.bytes ++ Array.replicate count byte⟩
  else .error .outOfMemory b

/-- Writes bytes one after the other from `offset` on. -/
def write (code : Array UInt8) (offset : Nat) : List UInt8 → Array UInt8
  | [] => code
  | byte :: bytes => write (code.setIfInBounds offset byte) (offset + 1) bytes

/-- Whether `count` bytes from `offset` on all lie inside the buffer. -/
def covers (b : CodeBuffer) (offset count : Nat) : Bool := offset + count ≤ b.size

/-- Overwrites bytes from `offset` on; those outside the buffer are dropped. -/
def overwrite (b : CodeBuffer) (offset : Nat) (bytes : List UInt8) : CodeBuffer :=
  ⟨write b.bytes offset bytes⟩

/-- Overwrites bytes inside the buffer; there is no result if they do not all lie inside. -/
def patch? (b : CodeBuffer) (offset : Nat) (bytes : List UInt8) : Option CodeBuffer :=
  if b.covers offset bytes.length then some (b.overwrite offset bytes) else none

end CodeBuffer

end CrossAsm
