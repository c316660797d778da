import CrossAsm.Proofs.Declarations
import CrossAsm.X64.Data

/-!
The data region while a program is laid out. It only grows, and every variable and buffer is placed at
what was its end, so storage is handed out consecutively and all addresses lie inside the region
(`address_le_size`).
-/
namespace CrossAsm.X64

namespace Data

variable {memory : Memory} {d next left : Data} {address : Nat} {fault : Fault}

/-- The bytes that a variable holds at first; without an initial value they are zero. -/
def variableBytes (init : Option Int64) : List UInt8 :=
  LittleEndian.bytes 8 (init.getD 0).toUInt64.toNat

@[simp] theorem length_variableBytes (init : Option Int64) : (variableBytes init).length = 8 :=
  LittleEndian.length_bytes ..

theorem value_variableBytes (init : Option Int64) :
    (LittleEndian.value (variableBytes init) : Int) = (init.getD 0).toInt % 0x10000000000000000 := by
  have fits : (init.getD 0).toUInt64.toNat < Nat.pow 256 8 := (init.getD 0).toUInt64.toNat_lt
  have signed : (init.getD 0).toInt = Int.bmod (init.getD 0).toUInt64.toNat 0x10000000000000000 :=
    BitVec.toInt_eq_toNat_bmod _
  rw [variableBytes, LittleEndian.value_bytes, Nat.mod_eq_of_lt fits, signed]
  change _ = Int.bmod _ 0x10000000000000000 % ((0x10000000000000000 : Nat) : Int)
  rw [Int.bmod_emod, Int.emod_eq_of_lt (Int.natCast_nonneg _) (Int.ofNat_lt.mpr fits)]

section Requests

theorem append_eq_ok_iff {bytes : List UInt8} :
    append memory bytes d = .ok address next ↔ d.size + bytes.length < memory.limit ∧
      address = d.size ∧ next = ⟨d.bytes ++ bytes⟩ := by
  unfold append
  split
  next room => simp [room, eq_comm]
  next full => simp [full]

theorem append_eq_error {bytes : List UInt8} (failed : append memory bytes d = .error fault left) :
    fault = .outOfMemory ∧ memory.limit ≤ d.size + bytes.length ∧ left = d := by
  unfold append at failed
  split at failed
  next => cases failed
  next full =>
    cases failed
    exact ⟨rfl, Nat.le_of_not_lt full, rfl⟩

theorem var_eq_ok_iff {init : Option Int64} :
    (allocator memory).var init d = .ok address next ↔ d.size + 8 < memory.limit ∧
      address = d.size ∧ next = ⟨d.bytes ++ variableBytes init⟩ := by
  rw [← length_variableBytes init]
  exact append_eq_ok_iff

theorem buffer_eq_ok_iff {length : Int64} :
    (allocator memory).buffer length d = .ok address next ↔
      (1 ≤ length.toInt ∧ length.toInt ≤ longestBuffer) ∧
        d.size + length.toInt.toNat < memory.limit ∧
        address = d.size ∧ next = ⟨d.bytes ++ List.replicate length.toInt.toNat 0⟩ := by
  have appended : append memory (List.replicate length.toInt.toNat 0) d = .ok address next ↔ _ :=
    append_eq_ok_iff
  rw [List.length_replicate] at appended
  rw [← appended]
  change buffer memory length d = _ ↔ _
  constructor
  · intro granted
    unfold buffer at granted
    split at granted
    next => cases granted
    next count checked =>
      obtain ⟨within, rfl⟩ := checkRange_eq_ok_iff.mp checked
      exact ⟨within, granted⟩
  · rintro ⟨within, granted⟩
    have checked := checkRange_eq_ok_iff.mpr ⟨within, rfl⟩
    simpa only [buffer, checked] using granted

theorem var_eq_error {init : Option Int64} (failed : (allocator memory).var init d = .error fault left) :
    fault = .outOfMemory ∧ memory.limit ≤ d.size + 8 ∧ left = d := by
  rw [← length_variableBytes init]
  exact append_eq_error failed

/-- A buffer is refused because of its length or for want of memory. -/
theorem buffer_eq_error {length : Int64}
    (failed : (allocator memory).buffer length d = .error fault left) :
    (fault = .immediateOutOfRange length.toInt 1 longestBuffer ∧
          ¬ (1 ≤ length.toInt ∧ length.toInt ≤ longestBuffer) ∨
        fault = .outOfMemory ∧ memory.limit ≤ d.size + length.toInt.toNat) ∧
      left = d := by
  change buffer memory length d = _ at failed
  unfold buffer at failed
  split at failed
  next reason checked =>
    cases failed
    obtain ⟨outside, named⟩ := checkRange_eq_error_iff.mp checked
    exact ⟨.inl ⟨named, outside⟩, rfl⟩
  next count checked =>
    obtain ⟨_, rfl⟩ := checkRange_eq_ok_iff.mp checked
    obtain ⟨memory, full, same⟩ := append_eq_error failed
    rw [List.length_replicate] at full
    exact ⟨.inr ⟨memory, full⟩, same⟩

end Requests

/-- The region holds what has been handed out, and nothing else. -/
theorem allocator_consecutive :
    (allocator memory).Consecutive 0 8 (fun d bytes => d.bytes = bytes) variableBytes where
  sized := length_variableBytes
  var := by
    rintro d _ init address next rfl reserved
    obtain ⟨_, rfl, rfl⟩ := var_eq_ok_iff.mp reserved
    exact ⟨(Nat.zero_add _).symm, rfl⟩
  buffer := by
    rintro d _ length address next rfl reserved
    obtain ⟨_, _, rfl, rfl⟩ := buffer_eq_ok_iff.mp reserved
    exact ⟨(Nat.zero_add _).symm, rfl⟩

theorem size_le_of_var {init : Option Int64}
    (reserved : (allocator memory).var init d = .ok address next) :
    address = d.size ∧ d.size ≤ next.size := by
  obtain ⟨_, rfl, rfl⟩ := var_eq_ok_iff.mp reserved
  simp [size]

theorem size_le_of_buffer {length : Int64}
    (reserved : (allocator memory).buffer length d = .ok address next) :
    address = d.size ∧ d.size ≤ next.size := by
  obtain ⟨_, _, rfl, rfl⟩ := buffer_eq_ok_iff.mp reserved
  simp [size]

end Data

section Layout

variable {memory : Memory} {sizer : Sizer} {l : Layout Data} {program : List Instruction}

theorem size_le_of_placed {next : Layout Data} {op : Operation}
    (placed : Layout.Placed sizer (Data.allocator memory) l op next) :
    l.storage.size ≤ next.storage.size := by
  cases placed with
  | label | org | code => exact Nat.le_refl _
  | var _ reserved => exact (Data.size_le_of_var reserved).2
  | buffer _ reserved => exact (Data.size_le_of_buffer reserved).2

/-- The addresses of data, before they are moved behind the code, lie inside the region. -/
theorem address_le_size (laid : (Layout.run sizer (Data.allocator memory) l program).2 = none)
    (start : l.symbols = .empty) {name : String} {symbol : Symbol}
    (known : (Layout.run sizer (Data.allocator memory) l program).1.symbols.get? name = some symbol)
    (data : symbol.kind.isData) :
    symbol.address ≤ (Layout.run sizer (Data.allocator memory) l program).1.storage.size := by
  obtain ⟨index, i, present, declares⟩ := (Layout.get?_run_iff laid start).mp known
  have within : index ≤ program.length := Nat.le_of_lt (List.getElem?_eq_some_iff.mp present).1
  have grown : (Layout.before sizer (Data.allocator memory) l program index).storage.size ≤
      (Layout.before sizer (Data.allocator memory) l program program.length).storage.size :=
    Layout.before_related (R := fun a b => a.storage.size ≤ b.storage.size)
      (fun _ => Nat.le_refl _) (fun _ _ _ => Nat.le_trans) laid
      (fun _ _ _ stepped => size_le_of_placed (Layout.step_eq_ok_iff.mp stepped).1) within
  rw [Layout.before_length] at grown
  obtain ⟨op, pos⟩ := i
  cases declares with
  | label => cases data
  | var reserved => exact (Data.size_le_of_var reserved).1 ▸ grown
  | buffer reserved => exact (Data.size_le_of_buffer reserved).1 ▸ grown

end Layout

end CrossAsm.X64
