import CrossAsm.Proofs.Mcs51.Machine

/-!
Shifts on the 8051, which only rotates. A rotation takes each bit to the next place, so after as many of
them as a shift counts, the bits that the shift keeps stand where it puts them, and the mask clears the
others (`masked_turned`).
-/
namespace CrossAsm

/-- Logical shifts, by any count. -/
def Shift.onByte : Shift → UInt8 → Nat → UInt8
  | .left, x, count => UInt8.ofNat (x.toNat <<< count)
  | .right, x, count => UInt8.ofNat (x.toNat >>> count)

namespace Mcs51

/-- One place of a byte. -/
def bit (x : UInt8) (i : Nat) : Bool := x.toNat.testBit i

theorem bit_of_le {x : UInt8} {i : Nat} (high : 8 ≤ i) : bit x i = false :=
  Nat.testBit_lt_two_pow
    (Nat.lt_of_lt_of_le x.toNat_lt (Nat.pow_le_pow_right (by decide) high))

theorem eq_of_bits {x y : UInt8} (same : ∀ i < 8, bit x i = bit y i) : x = y := by
  apply UInt8.toNat_inj.mp
  apply Nat.eq_of_testBit_eq
  intro i
  change bit x i = bit y i
  by_cases small : i < 8
  · exact same i small
  · rw [bit_of_le (by omega), bit_of_le (by omega)]

section Bits

variable (x y : UInt8) {n : UInt8} {i : Nat}

theorem testBit_mod (number : Nat) (small : i < 8) : (number % 256).testBit i = number.testBit i := by
  have cut := Nat.testBit_mod_two_pow number 8 i
  simpa [small] using cut

theorem bit_ofNat (number : Nat) (small : i < 8) : bit (UInt8.ofNat number) i = number.testBit i := by
  rw [bit, UInt8.toNat_ofNat']
  exact testBit_mod number small

theorem bit_or : bit (x ||| y) i = (bit x i || bit y i) := by simp [bit]

theorem bit_and : bit (x &&& y) i = (bit x i && bit y i) := by simp [bit]

theorem bit_shiftLeft (count : n.toNat < 8) (small : i < 8) :
    bit (x <<< n) i = (decide (n.toNat ≤ i) && bit x (i - n.toNat)) := by
  have cut := testBit_mod (x.toNat <<< n.toNat) small
  rw [bit, UInt8.toNat_shiftLeft, Nat.mod_eq_of_lt count]
  simpa [bit] using cut

theorem bit_shiftRight (count : n.toNat < 8) : bit (x >>> n) i = bit x (n.toNat + i) := by
  rw [bit, UInt8.toNat_shiftRight, Nat.mod_eq_of_lt count]
  simp [bit]

theorem bit_full (small : i < 8) : bit 0xFF i = true := by
  have ones := Nat.testBit_two_pow_sub_one 8 i
  simpa [bit, small] using ones

end Bits

/-- A rotation to the left brings to each place what stood one place lower, which is seven higher. -/
theorem bit_rotateLeft (x : UInt8) {i : Nat} (small : i < 8) :
    bit (Machine.rotateLeft x) i = bit x ((i + 7) % 8) := by
  have one : (1 : UInt8).toNat = 1 := rfl
  have seven : (7 : UInt8).toNat = 7 := rfl
  rw [Machine.rotateLeft, bit_or, bit_shiftLeft x (by decide) small, bit_shiftRight x (by decide),
    one, seven]
  by_cases first : i = 0
  · subst first
    simp
  · have lower : (i + 7) % 8 = i - 1 := by omega
    have positive : 1 ≤ i := by omega
    rw [lower, bit_of_le (show 8 ≤ 7 + i by omega)]
    simp [positive]

theorem bit_rotateRight (x : UInt8) {i : Nat} (small : i < 8) :
    bit (Machine.rotateRight x) i = bit x ((i + 1) % 8) := by
  have one : (1 : UInt8).toNat = 1 := rfl
  have seven : (7 : UInt8).toNat = 7 := rfl
  rw [Machine.rotateRight, bit_or, bit_shiftLeft x (by decide) small, bit_shiftRight x (by decide),
    one, seven]
  by_cases last : i = 7
  · subst last
    simp [bit_of_le]
  · have higher : (i + 1) % 8 = 1 + i := by omega
    have low : ¬ 7 ≤ i := by omega
    simp [higher, low]

/-- So many rotations. -/
def turned (dir : Shift) : Nat → UInt8 → UInt8
  | 0, x => x
  | n + 1, x =>
    match dir with
    | .left => turned dir n (Machine.rotateLeft x)
    | .right => turned dir n (Machine.rotateRight x)

theorem bit_turned_left (n : Nat) (x : UInt8) {i : Nat} (small : i < 8) :
    bit (turned .left n x) i = bit x ((i + 7 * n) % 8) := by
  induction n generalizing x with
  | zero => rw [turned, Nat.mul_zero, Nat.add_zero, Nat.mod_eq_of_lt small]
  | succ n ih =>
    rw [turned, ih, bit_rotateLeft x (Nat.mod_lt _ (by decide))]
    congr 1
    omega

theorem bit_turned_right (n : Nat) (x : UInt8) {i : Nat} (small : i < 8) :
    bit (turned .right n x) i = bit x ((i + n) % 8) := by
  induction n generalizing x with
  | zero => rw [turned, Nat.add_zero, Nat.mod_eq_of_lt small]
  | succ n ih =>
    rw [turned, ih, bit_rotateRight x (Nat.mod_lt _ (by decide))]
    congr 1
    omega

/-- Rotating and masking is a logical shift. -/
theorem masked_turned (dir : Shift) {n : Nat} (few : n ≤ 7) (x : UInt8) :
    turned dir n x &&& shiftMask dir n = dir.onByte x n := by
  have count : (UInt8.ofNat n).toNat = n := Nat.mod_eq_of_lt (by omega)
  apply eq_of_bits
  intro i small
  rw [bit_and]
  cases dir with
  | left =>
    rw [bit_turned_left n x small, shiftMask, bit_shiftLeft _ (by omega) small, count, Shift.onByte,
      bit_ofNat _ small, Nat.testBit_shiftLeft, bit_full (by omega)]
    by_cases kept : n ≤ i
    · have place : (i + 7 * n) % 8 = i - n := by omega
      simp [kept, place, bit]
    · simp [kept]
  | right =>
    rw [bit_turned_right n x small, shiftMask, bit_shiftRight _ (by omega), count, Shift.onByte,
      bit_ofNat _ small, Nat.testBit_shiftRight]
    by_cases kept : n + i < 8
    · have place : (i + n) % 8 = n + i := by omega
      rw [place, bit_full kept, Bool.and_true]
      rfl
    · have gone : bit x (n + i) = false := bit_of_le (by omega)
      have cleared : bit 0xFF (n + i) = false := bit_of_le (by omega)
      rw [cleared, Bool.and_false]
      exact gone.symm

end Mcs51

end CrossAsm
