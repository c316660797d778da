import CrossAsm.Mcs51.Ram
import CrossAsm.Proofs.Declarations

/-!
Internal RAM of the 8051 while a program is laid out. A request succeeds exactly if its argument is in
range and there is room left, and one that fails leaves RAM as it was. What has been handed out so far
stands above zeros and below zeros (`Holds`), and a request that succeeds puts its bytes behind it, so
storage is handed out consecutively.
-/
namespace CrossAsm.Mcs51.Ram

variable {ram next left : Ram} {address : Nat} {fault : Fault}

/-- The byte that a variable holds at first; without an initial value it is zero. -/
def variableByte (init : Option Int64) : UInt8 := UInt8.ofInt ((init.map Int64.toInt).getD 0)

theorem getD_map_toInt (init : Option Int64) : (init.map Int64.toInt).getD 0 = (init.getD 0).toInt :=
  Option.getD_map Int64.toInt 0 init

theorem toNat_variableByte (init : Option Int64) :
    ((variableByte init).toNat : Int) = (init.getD 0).toInt % 256 := by
  rw [variableByte, getD_map_toInt, UInt8.ofInt, UInt8.toNat_ofNat']
  omega

section Requests

theorem reserve_eq_ok_iff {count : Nat} (some : 0 < count) :
    reserve count ram = .ok address next ↔
      ram.next + count ≤ size ∧ address = ram.next ∧ next = { ram with next := ram.next + count } := by
  have available : size - ram.next < count ↔ ¬ ram.next + count ≤ size := by omega
  unfold reserve
  dsimp only
  by_cases room : ram.next + count ≤ size
  · rw [if_neg (by rw [available]; exact not_not_intro room)]
    simp [room, eq_comm]
  · rw [if_pos (available.mpr room)]
    simp [room]

theorem reserve_eq_error {count : Nat} (failed : reserve count ram = .error fault left) :
    fault = .storageExhausted "internal RAM" count (size - ram.next) ∧ left = ram := by
  unfold reserve at failed
  dsimp only at failed
  split at failed
  next =>
    cases failed
    exact ⟨rfl, rfl⟩
  next => cases failed

theorem var_eq_ok_iff {init : Option Int64} :
    allocator.var init ram = .ok address next ↔
      (-128 ≤ (init.map Int64.toInt).getD 0 ∧ (init.map Int64.toInt).getD 0 ≤ 255) ∧
        ram.next + 1 ≤ size ∧ address = ram.next ∧
        next = ⟨ram.image.set ram.next (variableByte init), ram.next + 1⟩ := by
  change var init ram = _ ↔ _
  constructor
  · intro granted
    unfold var at granted
    split at granted
    next => cases granted
    next value checked =>
      obtain ⟨within, rfl⟩ := checkRange_eq_ok_iff.mp checked
      split at granted
      next => cases granted
      next reserved =>
        cases granted
        obtain ⟨room, rfl, rfl⟩ := (reserve_eq_ok_iff Nat.one_pos).mp reserved
        exact ⟨within, room, rfl, rfl⟩
  · rintro ⟨within, room, rfl, rfl⟩
    have checked := checkRange_eq_ok_iff.mpr ⟨within, rfl⟩
    have reserved := (reserve_eq_ok_iff Nat.one_pos).mpr ⟨room, rfl, rfl⟩
    simp only [var, checked, reserved, variableByte]

theorem buffer_eq_ok_iff {length : Int64} :
    allocator.buffer length ram = .ok address next ↔
      1 ≤ length.toInt ∧ ram.next + length.toInt.toNat ≤ size ∧ address = ram.next ∧
        next = { ram with next := ram.next + length.toInt.toNat } := by
  change buffer length ram = _ ↔ _
  constructor
  · intro granted
    unfold buffer at granted
    split at granted
    next => cases granted
    next value checked =>
      obtain ⟨within, rfl⟩ := checkRange_eq_ok_iff.mp checked
      exact ⟨within.1, (reserve_eq_ok_iff (by omega)).mp granted⟩
  · rintro ⟨positive, room, found⟩
    -- what fits into RAM is no longer than RAM
    have checked : checkRange length.toInt 1 size = .ok length.toInt :=
      checkRange_eq_ok_iff.mpr ⟨⟨positive, by omega⟩, rfl⟩
    simp only [buffer, checked]
    exact (reserve_eq_ok_iff (by omega)).mpr ⟨room, found⟩

theorem var_eq_error {init : Option Int64} (failed : allocator.var init ram = .error fault left) :
    (fault = .immediateOutOfRange ((init.map Int64.toInt).getD 0) (-128) 255 ∨
        fault = .storageExhausted "internal RAM" 1 (size - ram.next)) ∧
      left = ram := by
  change var init ram = _ at failed
  unfold var at failed
  split at failed
  next reason outside =>
    cases failed
    exact ⟨.inl (checkRange_eq_error_iff.mp outside).2, rfl⟩
  next =>
    split at failed
    next exhausted after reserved =>
      cases failed
      obtain ⟨full, same⟩ := reserve_eq_error reserved
      exact ⟨.inr full, same⟩
    next => cases failed

theorem buffer_eq_error {length : Int64} (failed : allocator.buffer length ram = .error fault left) :
    (fault = .immediateOutOfRange length.toInt 1 size ∨
        fault = .storageExhausted "internal RAM" length.toInt.toNat (size - ram.next)) ∧
      left = ram := by
  change buffer length ram = _ at failed
  unfold buffer at failed
  split at failed
  next reason outside =>
    cases failed
    exact ⟨.inl (checkRange_eq_error_iff.mp outside).2, rfl⟩
  next count checked =>
    obtain ⟨_, rfl⟩ := checkRange_eq_ok_iff.mp checked
    obtain ⟨full, same⟩ := reserve_eq_error failed
    exact ⟨.inr full, same⟩

end Requests

/-- The bytes that have been handed out stand from the first address on, and all others are zero. -/
structure Holds (ram : Ram) (bytes : List UInt8) : Prop where
  next_eq : ram.next = start + bytes.length
  next_le : ram.next ≤ size
  image_eq : ram.image = List.replicate start 0 ++ (bytes ++ List.replicate (size - ram.next) 0)

namespace Holds

variable {bytes : List UInt8}

theorem nil : Holds {} [] where
  next_eq := rfl
  next_le := by decide
  image_eq := by
    rw [List.nil_append, List.replicate_append_replicate]
    rfl

theorem length_le (holds : Holds ram bytes) : bytes.length ≤ size - start := by
  have stop := holds.next_eq
  have within := holds.next_le
  omega

theorem length_image (holds : Holds ram bytes) : ram.image.length = size := by
  have stop := holds.next_eq
  have within := holds.next_le
  simp only [holds.image_eq, List.length_append, List.length_replicate]
  omega

/-- A byte set at the next address is one more of those that are handed out. -/
theorem var (holds : Holds ram bytes) (room : ram.next + 1 ≤ size) (byte : UInt8) :
    Holds ⟨ram.image.set ram.next byte, ram.next + 1⟩ (bytes ++ [byte]) := by
  obtain ⟨stop, within, image⟩ := holds
  refine ⟨?_, room, ?_⟩
  · simp only [stop, List.length_append, List.length_singleton, Nat.add_assoc]
  · have free : size - ram.next = (size - (ram.next + 1)) + 1 := by omega
    dsimp only
    rw [image, stop, List.set_append_right _ _ (by simp), List.length_replicate, Nat.add_sub_cancel_left,
      List.set_append_right _ _ (Nat.le_refl _), Nat.sub_self, ← stop, free, List.replicate_succ,
      List.set_cons_zero, List.append_assoc, List.singleton_append]

/-- The zeros above the next address may be handed out as they are. -/
theorem buffer (holds : Holds ram bytes) {count : Nat} (room : ram.next + count ≤ size) :
    Holds { ram with next := ram.next + count } (bytes ++ List.replicate count 0) := by
  obtain ⟨stop, within, image⟩ := holds
  refine ⟨?_, room, ?_⟩
  · simp only [stop, List.length_append, List.length_replicate, Nat.add_assoc]
  · have free : count + (size - (ram.next + count)) = size - ram.next := by omega
    dsimp only
    rw [List.append_assoc, List.replicate_append_replicate, free, image]

end Holds

theorem allocator_consecutive :
    allocator.Consecutive start 1 Holds fun init => [variableByte init] where
  sized _ := rfl
  var holds reserved := by
    obtain ⟨_, room, rfl, rfl⟩ := var_eq_ok_iff.mp reserved
    exact ⟨holds.next_eq, holds.var room _⟩
  buffer holds reserved := by
    obtain ⟨_, room, rfl, rfl⟩ := buffer_eq_ok_iff.mp reserved
    exact ⟨holds.next_eq, holds.buffer room⟩

end CrossAsm.Mcs51.Ram
