import CrossAsm.X64.Instr
import Mathlib.Logic.Function.Basic

/-!
x86-64 as a machine that executes straight-line code: eight registers and a memory of bytes, with the
instructions that a signed division is made of. `Yields` says what some code makes of the registers if it
leaves the stack as it found it, and registers can be saved around such code (`Yields.saved`).
-/
namespace CrossAsm.X64

abbrev Word := BitVec 64

abbrev Registers := GeneralReg → Word

/-- The number of addresses. They wrap around. -/
def addressCount : Nat := 0x10000000000000000

/-- The signed values of a word. -/
def FitsWord (n : Int) : Prop := -0x8000000000000000 ≤ n ∧ n ≤ 0x7FFFFFFFFFFFFFFF

instance (n : Int) : Decidable (FitsWord n) := inferInstanceAs (Decidable (_ ∧ _))

abbrev Store := Word → UInt8

namespace Store

def writeWord (memory : Store) (address value : Word) : Store := fun other =>
  ((LittleEndian.bytes 8 value.toNat)[(other - address).toNat]?).getD (memory other)

def word (memory : Store) (address : Word) : Word :=
  .ofNat 64 (LittleEndian.value ((List.range 8).map fun i => memory (address + .ofNat 64 i)))

theorem writeWord_of_outside (memory : Store) {address other : Word} (value : Word)
    (outside : 8 ≤ (other - address).toNat) : memory.writeWord address value other = memory other := by
  rw [writeWord, List.getElem?_eq_none (by rwa [LittleEndian.length_bytes]), Option.getD_none]

theorem word_congr {memory other : Store} {address : Word}
    (same : ∀ i < 8, memory (address + .ofNat 64 i) = other (address + .ofNat 64 i)) :
    memory.word address = other.word address := by
  unfold word
  congr 2
  exact List.map_congr_left fun i member => same i (List.mem_range.mp member)

theorem word_writeWord (memory : Store) (address value : Word) :
    (memory.writeWord address value).word address = value := by
  have bytes : ((List.range 8).map fun i =>
      memory.writeWord address value (address + .ofNat 64 i)) = LittleEndian.bytes 8 value.toNat := by
    refine List.ext_getElem (by simp) fun i low _ => ?_
    have place : (address + BitVec.ofNat 64 i - address).toNat = i := by
      rw [List.length_map, List.length_range] at low
      rw [BitVec.add_comm, BitVec.add_sub_cancel, BitVec.toNat_ofNat]
      omega
    rw [List.getElem_map, List.getElem_range, writeWord, place, List.getElem?_eq_getElem, Option.getD_some]
  have whole : value.toNat % Nat.pow 256 8 = value.toNat := Nat.mod_eq_of_lt value.isLt
  rw [word, bytes, LittleEndian.value_bytes, whole, BitVec.ofNat_toNat, BitVec.setWidth_eq]

end Store

structure Machine where
  regs : Registers
  memory : Store

namespace Machine

def set (m : Machine) (r : GeneralReg) (value : Word) : Machine :=
  { m with regs := Function.update m.regs r value }

@[simp] theorem regs_set_self (m : Machine) (r : GeneralReg) (value : Word) :
    (m.set r value).regs r = value := Function.update_self ..

theorem regs_set_of_ne (m : Machine) {r s : GeneralReg} (value : Word) (ne : s ≠ r) :
    (m.set r value).regs s = m.regs s := Function.update_of_ne ne ..

/-- Divides the double word in `rdx` and `rax`. The machine traps if the quotient is not a word. -/
def divide? (m : Machine) (divisor : Word) : Option Machine :=
  let dividend := (m.regs .rdx ++ m.regs .rax).toInt
  let quotient := dividend.tdiv divisor.toInt
  if divisor ≠ 0 ∧ FitsWord quotient then
    some ((m.set .rax (.ofInt 64 quotient)).set .rdx (.ofInt 64 (dividend.tmod divisor.toInt)))
  else none

def push (m : Machine) (src : GeneralReg) : Machine :=
  let top := m.regs .rsp - 8
  { m.set .rsp top with memory := m.memory.writeWord top (m.regs src) }

def pop (m : Machine) (dest : GeneralReg) : Machine :=
  let top := m.regs .rsp
  (m.set .rsp (top + 8)).set dest (m.memory.word top)

/-- One instruction, of those that divisions are made of. -/
def exec (m : Machine) : Instr → Option Machine
  | .movReg dest src => some (m.set dest (m.regs src))
  | .movImm dest imm => some (m.set dest (imm.toBitVec.signExtend 64))
  | .cqo => some (m.set .rdx (if (m.regs .rax).msb then .allOnes 64 else 0))
  | .group .idiv divisor => m.divide? (m.regs divisor)
  | .push src => some (m.push src)
  | .pop dest => some (m.pop dest)
  | _ => none

def run (m : Machine) : List Instr → Option Machine
  | [] => some m
  | i :: rest => (m.exec i).bind fun next => next.run rest

theorem run_append (m : Machine) (first second : List Instr) :
    m.run (first ++ second) = (m.run first).bind fun next => next.run second := by
  induction first generalizing m with
  | nil => rfl
  | cons i rest ih =>
    rw [List.cons_append, run, run]
    cases m.exec i with
    | none => rfl
    | some next => exact ih next

/-- The machine has these registers. The stack pointer, which moves as registers are saved, is left
open. -/
def Carries (m : Machine) (x : Registers) : Prop := ∀ r, r ≠ .rsp → m.regs r = x r

theorem Carries.set {m : Machine} {x : Registers} (carries : m.Carries x) (r : GeneralReg) (value : Word) :
    (m.set r value).Carries (Function.update x r value) := by
  intro s free
  by_cases same : s = r
  · rw [same, regs_set_self, Function.update_self]
  · rw [regs_set_of_ne _ _ same, Function.update_of_ne same, carries s free]

theorem Carries.set_rsp {m : Machine} {x : Registers} (carries : m.Carries x) (value : Word) :
    (m.set .rsp value).Carries x := fun r free => (m.regs_set_of_ne value free).trans (carries r free)

/-- The stack is as before: only the `depth` bytes below it may have changed. As addresses wrap around,
these are the last that one comes to from the stack pointer on. -/
structure Balanced (depth : Nat) (m after : Machine) : Prop where
  rsp : after.regs .rsp = m.regs .rsp
  memory : ∀ offset : Word, offset.toNat + depth < addressCount →
    after.memory (m.regs .rsp + offset) = m.memory (m.regs .rsp + offset)

namespace Balanced

variable {depth : Nat} {m next after : Machine}

theorem refl (m : Machine) : Balanced depth m m := ⟨rfl, fun _ _ => rfl⟩

theorem set (m : Machine) {r : GeneralReg} (other : r ≠ .rsp) (value : Word) :
    Balanced depth m (m.set r value) := ⟨m.regs_set_of_ne value other.symm, fun _ _ => rfl⟩

theorem trans (first : Balanced depth m next) (second : Balanced depth next after) :
    Balanced depth m after where
  rsp := second.rsp.trans first.rsp
  memory offset above := by
    rw [← first.memory offset above, ← first.rsp]
    exact second.memory offset above

theorem mono {more : Nat} (order : depth ≤ more) (balanced : Balanced depth m after) :
    Balanced more m after where
  rsp := balanced.rsp
  memory offset above := balanced.memory offset (by omega)

/-- If the bytes below the stack pointer are there, none of the others lies above the last address. -/
theorem memory_of_le (balanced : Balanced depth m after) (room : depth ≤ (m.regs .rsp).toNat)
    {address : Word} (above : m.regs .rsp ≤ address) : after.memory address = m.memory address := by
  have distance : (address - m.regs .rsp).toNat + depth < addressCount := by
    have order : (m.regs .rsp).toNat ≤ address.toNat := above
    have bound : address.toNat < addressCount := address.isLt
    rw [BitVec.toNat_sub_of_le above]
    omega
  have same := balanced.memory (address - m.regs .rsp) distance
  rwa [BitVec.add_comm, BitVec.sub_add_cancel] at same

section Saved

variable {r : GeneralReg} (balanced : Balanced depth (m.push r) after)
include balanced

theorem rsp_of_push : after.regs .rsp = m.regs .rsp - 8 :=
  balanced.rsp.trans (m.regs_set_self .rsp (m.regs .rsp - 8))

/-- What was pushed is found again. -/
theorem word_of_push (room : depth + 8 ≤ addressCount) :
    after.memory.word (after.regs .rsp) = m.regs r := by
  rw [← m.memory.word_writeWord (m.regs .rsp - 8) (m.regs r), balanced.rsp_of_push]
  refine Store.word_congr fun i low => ?_
  have above : (BitVec.ofNat 64 i).toNat + depth < addressCount := by
    rw [BitVec.toNat_ofNat]
    omega
  have kept := balanced.memory _ above
  rwa [← balanced.rsp, balanced.rsp_of_push] at kept

/-- The word that was pushed is one more of the words below the stack pointer. -/
theorem pop_of_push (other : r ≠ .rsp) : Balanced (depth + 8) m (after.pop r) where
  rsp := by
    have pointer : (after.pop r).regs .rsp = after.regs .rsp + 8 := by
      rw [pop, regs_set_of_ne _ _ other.symm, regs_set_self]
    rw [pointer, balanced.rsp_of_push, BitVec.sub_add_cancel]
  memory offset above := by
    -- what lies above lies eight bytes further above the pushed word
    have place : m.regs .rsp + offset = m.regs .rsp - 8 + (offset + 8) := by
      rw [BitVec.add_comm offset, ← BitVec.add_assoc, BitVec.sub_add_cancel]
    have further : (offset + 8).toNat = offset.toNat + 8 := by
      have bound : offset.toNat + 8 < addressCount := by omega
      exact BitVec.toNat_add_of_lt bound
    have kept := balanced.memory (offset + 8) (by omega)
    rw [← balanced.rsp, balanced.rsp_of_push, ← place] at kept
    refine kept.trans (m.memory.writeWord_of_outside _ ?_)
    rw [place, BitVec.add_comm, BitVec.add_sub_cancel, further]
    omega

end Saved

end Balanced

end Machine

open Machine (Carries Balanced)

/-- The code turns one set of registers into another, whatever the memory, and leaves the stack as it
was. -/
def Yields (code : List Instr) (depth : Nat) (x y : Registers) : Prop :=
  ∀ m : Machine, m.Carries x → ∃ after, m.run code = some after ∧ Balanced depth m after ∧ after.Carries y

namespace Yields

variable {code more : List Instr} {depth : Nat} {x y z : Registers}

theorem nil : Yields [] depth x x := fun m carries => ⟨m, rfl, .refl m, carries⟩

theorem append (first : Yields code depth x y) (second : Yields more depth y z) :
    Yields (code ++ more) depth x z := by
  intro m carries
  obtain ⟨next, ran, balanced, carried⟩ := first m carries
  obtain ⟨after, finished, balanced', carried'⟩ := second next carried
  refine ⟨after, ?_, balanced.trans balanced', carried'⟩
  rw [Machine.run_append, ran]
  exact finished

theorem mono {deeper : Nat} (order : depth ≤ deeper) (yields : Yields code depth x y) :
    Yields code deeper x y := by
  intro m carries
  obtain ⟨after, ran, balanced, carried⟩ := yields m carries
  exact ⟨after, ran, balanced.mono order, carried⟩

theorem single {i : Instr} (runs : ∀ m : Machine, m.Carries x →
    ∃ after, m.exec i = some after ∧ Balanced depth m after ∧ after.Carries y) :
    Yields [i] depth x y := by
  intro m carries
  obtain ⟨after, ran, done⟩ := runs m carries
  exact ⟨after, by rw [Machine.run, ran]; rfl, done⟩

/-- An instruction that assigns to a register. -/
theorem set {i : Instr} {r : GeneralReg} {value : Word} (other : r ≠ .rsp)
    (runs : ∀ m : Machine, m.Carries x → m.exec i = some (m.set r value)) :
    Yields [i] depth x (Function.update x r value) :=
  single fun m carries => ⟨_, runs m carries, .set m other value, carries.set r value⟩

/-- A register is saved around code that leaves the stack as it was. -/
theorem saved {r : GeneralReg} (other : r ≠ .rsp) (room : depth + 8 ≤ addressCount)
    (inner : Yields code depth x y) :
    Yields (.push r :: (code ++ [.pop r])) (depth + 8) x (Function.update y r (x r)) := by
  intro m carries
  obtain ⟨reached, ran, balanced, carried⟩ := inner (m.push r) (carries.set_rsp _)
  have popped : (reached.pop r).Carries (Function.update y r (x r)) := by
    rw [← carries r other, ← balanced.word_of_push room]
    exact (carried.set_rsp _).set r _
  refine ⟨reached.pop r, ?_, balanced.pop_of_push other, popped⟩
  change (m.push r).run (code ++ [.pop r]) = _
  rw [Machine.run_append, ran]
  rfl

/-- Registers are saved around such code, and restored in the opposite order. -/
theorem savedAll {rs : List GeneralReg} (others : .rsp ∉ rs) (room : depth + 8 * rs.length ≤ addressCount)
    (inner : Yields code depth x y) :
    Yields (rs.map .push ++ (code ++ rs.reverse.map .pop)) (depth + 8 * rs.length) x
      (fun r => if r ∈ rs then x r else y r) := by
  induction rs with
  | nil => simpa using inner
  | cons r rest ih =>
    rw [List.mem_cons, not_or] at others
    rw [List.length_cons] at room ⊢
    have within := (ih others.2 (by omega)).saved (Ne.symm others.1) (by omega)
    have all : Function.update (fun s => if s ∈ rest then x s else y s) r (x r) =
        fun s => if s ∈ r :: rest then x s else y s := by
      funext s
      by_cases same : s = r <;> simp [same]
    rw [all] at within
    simpa [Nat.mul_add, Nat.add_assoc] using within

end Yields

end CrossAsm.X64
