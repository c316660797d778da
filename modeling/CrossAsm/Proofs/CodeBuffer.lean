import CrossAsm.Code.Emission

/-!
Code buffers as lists of bytes. A buffer grows by `append`; overwriting bytes changes those bytes and no
others, and never the size. `Holds` says that given bytes stand at an offset. What is done to the code
inside a larger state is what is done to a buffer (`CodeView.lift_eq_ok_iff`).
-/
namespace CrossAsm

/-- The bytes stand in the code, from `offset` on. -/
def Holds (code : Array UInt8) (offset : Nat) (bytes : List UInt8) : Prop :=
  ∀ index < bytes.length, code[offset + index]? = bytes[index]?

namespace Holds

variable {code : Array UInt8} {offset : Nat} {first second : List UInt8}

theorem left (holds : Holds code offset (first ++ second)) : Holds code offset first := by
  intro index inside
  rw [holds index (by rw [List.length_append]; omega), List.getElem?_append_left inside]

theorem right (holds : Holds code offset (first ++ second)) :
    Holds code (offset + first.length) second := by
  intro index inside
  rw [Nat.add_assoc, holds _ (by rw [List.length_append]; omega),
    List.getElem?_append_right (Nat.le_add_right _ _), Nat.add_sub_cancel_left]

theorem append (front : Holds code offset first) (back : Holds code (offset + first.length) second) :
    Holds code offset (first ++ second) := by
  intro index inside
  rw [List.length_append] at inside
  by_cases early : index < first.length
  · rw [front index early, List.getElem?_append_left early]
  · have later := back (index - first.length) (by omega)
    rw [show offset + first.length + (index - first.length) = offset + index by omega] at later
    rw [later, List.getElem?_append_right (by omega)]

theorem take_eq (holds : Holds code offset first) :
    code.toList.take (offset + first.length) = code.toList.take offset ++ first := by
  rw [List.take_add]
  congr 1
  apply List.ext_getElem?
  intro index
  by_cases early : index < first.length
  · rw [List.getElem?_take_of_lt early, List.getElem?_drop, Array.getElem?_toList, holds index early]
  · rw [List.getElem?_eq_none (by rw [List.length_take]; omega), List.getElem?_eq_none (by omega)]

theorem drop_eq (holds : Holds code offset first) :
    code.toList.drop offset = first ++ code.toList.drop (offset + first.length) := by
  have front := holds.take_eq
  rw [List.take_add] at front
  have taken := List.append_cancel_left front
  rw [← List.take_append_drop first.length (code.toList.drop offset), taken, List.drop_drop]

/-- Bytes that stand in the code lie inside it. -/
theorem stop_le (holds : Holds code offset first) : first ≠ [] → offset + first.length ≤ code.size := by
  intro some
  have last : first.length - 1 < first.length := by
    have := List.length_pos_iff.mpr some
    omega
  apply Nat.le_of_not_lt
  intro outside
  have absent := holds _ last
  rw [Array.getElem?_eq_none (by omega), eq_comm, List.getElem?_eq_none_iff] at absent
  omega

/-- Bytes that stand in the code can be cut out of it. -/
theorem extract_eq (holds : Holds code offset first) (some : first ≠ []) :
    (code.extract offset (offset + first.length)).toList = first := by
  have room := holds.stop_le some
  apply List.ext_getElem?
  intro index
  by_cases inside : index < first.length
  · rw [← holds index inside, Array.getElem?_toList, Array.getElem?_extract, if_pos (by omega)]
  · rw [List.getElem?_eq_none (by rw [Array.length_toList, Array.size_extract]; omega),
      List.getElem?_eq_none (by omega)]

end Holds

namespace CodeBuffer

/-- The buffer with more bytes at its end. -/
def append (b : CodeBuffer) (bytes : List UInt8) : CodeBuffer := ⟨b.bytes ++ bytes⟩

theorem eq_of_toList {a b : CodeBuffer} (same : a.bytes.toList = b.bytes.toList) : a = b := by
  obtain ⟨first⟩ := a
  obtain ⟨second⟩ := b
  exact congrArg CodeBuffer.mk (Array.toList_inj.mp same)

@[simp] theorem size_empty : empty.size = 0 := rfl

@[simp] theorem toList_append (b : CodeBuffer) (bytes : List UInt8) :
    (b.append bytes).bytes.toList = b.bytes.toList ++ bytes := by
  simp [append]

@[simp] theorem size_append (b : CodeBuffer) (bytes : List UInt8) :
    (b.append bytes).size = b.size + bytes.length := by
  rw [size, ← Array.length_toList, toList_append, List.length_append, Array.length_toList, size]

@[simp] theorem append_nil (b : CodeBuffer) : b.append [] = b := by
  simp [append]

theorem append_append (b : CodeBuffer) (first second : List UInt8) :
    (b.append first).append second = b.append (first ++ second) := by
  apply eq_of_toList
  simp only [toList_append, List.append_assoc]

theorem getElem?_append_of_lt {b : CodeBuffer} {index : Nat} (inside : index < b.size)
    (bytes : List UInt8) : (b.append bytes).bytes[index]? = b.bytes[index]? := by
  rw [← Array.getElem?_toList, toList_append, List.getElem?_append_left, Array.getElem?_toList]
  rw [Array.length_toList]
  exact inside

/-- Bytes that stand in a buffer still stand there when it has grown. -/
theorem holds_append {b : CodeBuffer} {offset : Nat} {bytes : List UInt8}
    (holds : Holds b.bytes offset bytes) (more : List UInt8) :
    Holds (b.append more).bytes offset bytes := by
  intro index inside
  have known := holds index inside
  have room : offset + index < b.size := by
    apply Nat.lt_of_not_le
    intro outside
    rw [Array.getElem?_eq_none outside, eq_comm, List.getElem?_eq_none_iff] at known
    omega
  rw [getElem?_append_of_lt room, known]

/-- What has been added to a buffer stands at its former end, however the code goes on. -/
theorem holds_of_goesOn {b whole : CodeBuffer} {bytes : List UInt8}
    (goesOn : (b.append bytes).bytes.toList <+: whole.bytes.toList) :
    Holds whole.bytes b.size bytes := by
  obtain ⟨rest, all⟩ := goesOn
  intro index inside
  rw [toList_append] at all
  rw [← Array.getElem?_toList, ← all, size, ← Array.length_toList, List.append_assoc,
    List.getElem?_append_right (Nat.le_add_right _ _), Nat.add_sub_cancel_left,
    List.getElem?_append_left inside]

section Growth

variable {memory : Memory}

theorem withCapacity_eq_ok_iff {capacity : Nat} {b : CodeBuffer} :
    withCapacity memory capacity = .ok b ↔ capacity < memory.limit ∧ b = empty := by
  unfold withCapacity fits
  rw [size_empty, Nat.zero_add]
  by_cases room : capacity < memory.limit
  · simp [room, eq_comm]
  · simp [room]

theorem extend_eq_ok_iff {bytes : List UInt8} {b after : CodeBuffer} :
    extend memory bytes b = .ok () after ↔ b.fits memory bytes.length ∧ after = b.append bytes := by
  unfold extend append
  by_cases room : b.fits memory bytes.length
  · simp [room, eq_comm]
  · simp [room]

theorem fill_eq_ok_iff {byte : UInt8} {count : Nat} {b after : CodeBuffer} :
    fill memory byte count b = .ok () after ↔
      b.fits memory count ∧ after = b.append (List.replicate count byte) := by
  have filled : b.append (List.replicate count byte) =
      ⟨b.bytes ++ Array.replicate count byte⟩ := by
    apply eq_of_toList
    simp
  rw [filled, fill]
  by_cases room : b.fits memory count
  · simp [room, eq_comm]
  · simp [room]

theorem extend_eq_error {bytes : List UInt8} {b after : CodeBuffer} {fault : Fault}
    (failed : extend memory bytes b = .error fault after) : fault = .outOfMemory := by
  unfold extend at failed
  split at failed
  · cases failed
  · cases failed
    rfl

theorem fill_eq_error {byte : UInt8} {count : Nat} {b after : CodeBuffer} {fault : Fault}
    (failed : fill memory byte count b = .error fault after) : fault = .outOfMemory := by
  unfold fill at failed
  split at failed
  · cases failed
  · cases failed
    rfl

end Growth

section Write

variable {code : Array UInt8} {offset : Nat} {bytes : List UInt8}

@[simp] theorem size_write : (write code offset bytes).size = code.size := by
  induction bytes generalizing code offset with
  | nil => rfl
  | cons byte bytes ih => rw [write, ih, Array.size_setIfInBounds]

/-- Bytes outside the window stay. -/
theorem getElem?_write_of_outside {index : Nat}
    (outside : index < offset ∨ offset + bytes.length ≤ index) :
    (write code offset bytes)[index]? = code[index]? := by
  induction bytes generalizing code offset with
  | nil => rfl
  | cons byte bytes ih =>
    rw [List.length_cons] at outside
    rw [write, ih (by omega), Array.getElem?_setIfInBounds_ne (by omega)]

/-- Bytes inside the window are those written. -/
theorem holds_write (room : offset + bytes.length ≤ code.size) :
    Holds (write code offset bytes) offset bytes := by
  induction bytes generalizing code offset with
  | nil =>
    intro index inside
    cases inside
  | cons byte bytes ih =>
    intro index inside
    rw [List.length_cons] at room inside
    cases index with
    | zero =>
      rw [write, getElem?_write_of_outside (by omega), Nat.add_zero, List.getElem?_cons_zero]
      exact Array.getElem?_setIfInBounds_self_of_lt (by omega)
    | succ index =>
      rw [write, List.getElem?_cons_succ, show offset + (index + 1) = offset + 1 + index by omega]
      apply ih
      · rw [Array.size_setIfInBounds]
        omega
      · omega

end Write

theorem patch?_eq_some_iff {b after : CodeBuffer} {offset : Nat} {bytes : List UInt8} :
    b.patch? offset bytes = some after ↔
      offset + bytes.length ≤ b.size ∧ after = b.overwrite offset bytes := by
  unfold patch? covers
  by_cases room : offset + bytes.length ≤ b.size
  · simp [room, eq_comm]
  · simp [room]

end CodeBuffer

namespace CodeView

variable {σ : Type} {v : CodeView σ} {act : EStateM Fault CodeBuffer Unit} {s after : σ} {fault : Fault}

/-- The code can be exchanged, and nothing else is. -/
structure Lawful (v : CodeView σ) : Prop where
  code_withCode : ∀ s code, v.code (v.withCode s code) = code
  withCode_code : ∀ s, v.withCode s (v.code s) = s
  withCode_withCode : ∀ s first second, v.withCode (v.withCode s first) second = v.withCode s second

theorem lift_eq_ok_iff :
    v.lift act s = .ok () after ↔ ∃ code, act (v.code s) = .ok () code ∧ after = v.withCode s code := by
  unfold lift
  cases act (v.code s) with
  | ok _ code => simp [eq_comm]
  | error reason code => simp

theorem exists_of_lift_eq_error (failed : v.lift act s = .error fault after) :
    ∃ code, act (v.code s) = .error fault code := by
  unfold lift at failed
  cases done : act (v.code s) with
  | ok _ code => simp [done] at failed
  | error reason code =>
    simp only [done] at failed
    cases failed
    exact ⟨code, rfl⟩

theorem lift_extend_eq_ok_iff {memory : Memory} {bytes : List UInt8} :
    v.lift (CodeBuffer.extend memory bytes) s = .ok () after ↔
      (v.code s).fits memory bytes.length ∧ after = v.withCode s ((v.code s).append bytes) := by
  rw [lift_eq_ok_iff]
  constructor
  · rintro ⟨code, extended, rfl⟩
    obtain ⟨room, rfl⟩ := CodeBuffer.extend_eq_ok_iff.mp extended
    exact ⟨room, rfl⟩
  · rintro ⟨room, rfl⟩
    exact ⟨_, CodeBuffer.extend_eq_ok_iff.mpr ⟨room, rfl⟩, rfl⟩

end CodeView

end CrossAsm
