import CrossAsm.Code.Relocation
import CrossAsm.Proofs.Checked
import CrossAsm.Proofs.CodeBuffer
import CrossAsm.Proofs.SymbolTable

/-!
Filling in relocations. Each one writes its displacement into a window of four bytes. Once all have been
filled in, every window holds its displacement if the windows are apart, and all bytes outside the
windows are as before.
-/
namespace CrossAsm

/-- The signed 32-bit word at an offset of the code, the low byte first. -/
def signedWordAt (code : Array UInt8) (offset : Nat) : Int :=
  (Int32.ofNat (LittleEndian.value (code.extract offset (offset + 4)).toList)).toInt

/-- A word is read back from its four bytes. -/
theorem word_of_bytes (word : Int32) :
    Int32.ofNat (LittleEndian.value (LittleEndian.bytes 4 word.toUInt32.toNat)) = word := by
  have fits : word.toUInt32.toNat < Nat.pow 256 4 := word.toUInt32.toNat_lt
  rw [LittleEndian.value_bytes, Nat.mod_eq_of_lt fits]
  calc Int32.ofNat word.toUInt32.toNat
    _ = (UInt32.ofNat word.toUInt32.toNat).toInt32 := rfl
    _ = word := by rw [UInt32.ofNat_toNat, Int32.toInt32_toUInt32]

namespace Relocation

variable {symbols : SymbolTable} {code final : CodeBuffer} {relocations : List Relocation}
  {r : Relocation}

/-- The windows of two relocations do not meet. -/
def Apart (a b : Relocation) : Prop := a.patch + 4 ≤ b.patch ∨ b.patch + 4 ≤ a.patch

@[simp] theorem length_displacementBytes (d : Int32) : (displacementBytes d).length = 4 :=
  LittleEndian.length_bytes ..

theorem signedWordAt_of_holds {bytes : Array UInt8} {offset : Nat} {d : Int32}
    (holds : Holds bytes offset (displacementBytes d)) : signedWordAt bytes offset = d.toInt := by
  have window : (bytes.extract offset (offset + 4)).toList = displacementBytes d := by
    have cut := holds.extract_eq (List.ne_nil_of_length_eq_add_one (length_displacementBytes d))
    rwa [length_displacementBytes] at cut
  rw [signedWordAt, window, displacementBytes, word_of_bytes]

/-- A relocation that can be resolved reaches its symbol from the end of its instruction. -/
theorem displacement_eq_ok_iff {d : Int32} :
    r.displacement symbols = .ok d ↔ ∃ target, r.target symbols = .ok target ∧
      (-0x80000000 ≤ signedDistance target r.stop ∧ signedDistance target r.stop ≤ 0x7FFFFFFF) ∧
      d = Int32.ofInt (signedDistance target r.stop) := by
  rw [displacement, bind_eq_ok_iff]
  constructor
  · rintro ⟨target, found, made⟩
    dsimp only at made
    split at made
    next within => exact ⟨target, found, within, (Except.ok.inj made).symm⟩
    next => cases made
  · rintro ⟨target, found, within, rfl⟩
    refine ⟨target, found, ?_⟩
    simp only [within, and_self, if_true]
    rfl

theorem toInt_of_displacement {d : Int32} (found : r.displacement symbols = .ok d) :
    ∃ target, r.target symbols = .ok target ∧ d.toInt = signedDistance target r.stop := by
  obtain ⟨target, known, ⟨low, high⟩, rfl⟩ := displacement_eq_ok_iff.mp found
  refine ⟨target, known, Int32.toInt_ofInt_of_le low ?_⟩
  omega

/-- The first relocation is filled in, and then the others. -/
theorem resolveAll_cons_eq_resolved :
    resolveAll symbols code (r :: relocations) = .resolved final ↔
      ∃ d, r.displacement symbols = .ok d ∧ r.patch + 4 ≤ code.size ∧
        resolveAll symbols (code.overwrite r.patch (displacementBytes d)) relocations =
          .resolved final := by
  rw [resolveAll]
  cases r.displacement symbols with
  | error fault => simp
  | ok d =>
    by_cases room : r.patch + 4 ≤ code.size
    · have patched := CodeBuffer.patch?_eq_some_iff.mpr
        ⟨(length_displacementBytes d).symm ▸ room, rfl⟩
      simp [patched, room]
    · have refused : code.patch? r.patch (displacementBytes d) = none := by
        simp [CodeBuffer.patch?, CodeBuffer.covers, room]
      simp [refused, room]

/-- Once some relocations have been filled in, the others are left. -/
theorem resolveAll_append {others : List Relocation}
    (resolved : resolveAll symbols code relocations = .resolved final) :
    resolveAll symbols code (relocations ++ others) = resolveAll symbols final others := by
  induction relocations generalizing code with
  | nil =>
    cases resolved
    rfl
  | cons r rest ih =>
    obtain ⟨d, found, room, resolved⟩ := resolveAll_cons_eq_resolved.mp resolved
    have patched := CodeBuffer.patch?_eq_some_iff.mpr
      ⟨(length_displacementBytes d).symm ▸ room, rfl⟩
    rw [List.cons_append, resolveAll, found]
    simp only [patched]
    exact ih resolved

/-- Relocations are filled in up to the first one that cannot be resolved. -/
theorem exists_append_of_resolveAll_rejected {stopped : CodeBuffer} {report : FaultAt}
    (failed : resolveAll symbols code relocations = .rejected stopped report) :
    ∃ earlier r later, relocations = earlier ++ r :: later ∧
      (∀ other ∈ earlier, ∃ d, other.displacement symbols = .ok d) ∧
      r.pos = report.pos ∧ r.displacement symbols = .error report.fault := by
  induction relocations generalizing code with
  | nil => cases failed
  | cons r rest ih =>
    rw [resolveAll] at failed
    cases made : r.displacement symbols with
    | error fault =>
      rw [made] at failed
      cases failed
      exact ⟨[], r, rest, rfl, by simp, rfl, made⟩
    | ok d =>
      rw [made] at failed
      cases patched : code.patch? r.patch (displacementBytes d) with
      | none =>
        simp only [patched] at failed
        cases failed
      | some next =>
        simp only [patched] at failed
        obtain ⟨earlier, other, later, rfl, resolved, found⟩ := ih failed
        refine ⟨r :: earlier, other, later, rfl, ?_, found⟩
        rw [List.forall_mem_cons]
        exact ⟨⟨d, made⟩, resolved⟩

theorem exists_of_resolveAll_rejected {stopped : CodeBuffer} {report : FaultAt}
    (failed : resolveAll symbols code relocations = .rejected stopped report) :
    ∃ r ∈ relocations, r.pos = report.pos ∧ r.displacement symbols = .error report.fault := by
  obtain ⟨earlier, r, later, rfl, _, found⟩ := exists_append_of_resolveAll_rejected failed
  exact ⟨r, by simp, found⟩

theorem resolveAll_ne_outside (inside : ∀ r ∈ relocations, r.patch + 4 ≤ code.size) :
    resolveAll symbols code relocations ≠ .outside := by
  induction relocations generalizing code with
  | nil => simp [resolveAll]
  | cons r rest ih =>
    rw [resolveAll]
    cases r.displacement symbols with
    | error fault => simp
    | ok d =>
      have room := inside r List.mem_cons_self
      have patched := CodeBuffer.patch?_eq_some_iff.mpr
        ⟨(length_displacementBytes d).symm ▸ room, rfl⟩
      simp only [patched]
      apply ih
      intro other member
      rw [CodeBuffer.overwrite, CodeBuffer.size, CodeBuffer.size_write]
      exact inside other (List.mem_cons_of_mem _ member)

theorem size_of_resolveAll (resolved : resolveAll symbols code relocations = .resolved final) :
    final.size = code.size := by
  induction relocations generalizing code with
  | nil =>
    cases resolved
    rfl
  | cons r rest ih =>
    obtain ⟨d, _, _, resolved⟩ := resolveAll_cons_eq_resolved.mp resolved
    rw [ih resolved, CodeBuffer.overwrite, CodeBuffer.size, CodeBuffer.size_write, CodeBuffer.size]

/-- Bytes outside all windows stay. -/
theorem getElem?_of_resolveAll (resolved : resolveAll symbols code relocations = .resolved final)
    {index : Nat} (outside : ∀ r ∈ relocations, index < r.patch ∨ r.patch + 4 ≤ index) :
    final.bytes[index]? = code.bytes[index]? := by
  induction relocations generalizing code with
  | nil =>
    cases resolved
    rfl
  | cons r rest ih =>
    obtain ⟨d, _, _, resolved⟩ := resolveAll_cons_eq_resolved.mp resolved
    rw [ih resolved fun other member => outside other (List.mem_cons_of_mem _ member)]
    apply CodeBuffer.getElem?_write_of_outside
    rw [length_displacementBytes]
    exact outside r List.mem_cons_self

/-- If the windows are apart, each of them holds its displacement. -/
theorem holds_of_resolveAll (resolved : resolveAll symbols code relocations = .resolved final)
    (apart : relocations.Pairwise Apart) (member : r ∈ relocations) :
    ∃ d, r.displacement symbols = .ok d ∧ Holds final.bytes r.patch (displacementBytes d) := by
  induction relocations generalizing code with
  | nil => cases member
  | cons first rest ih =>
    obtain ⟨d, found, room, resolved⟩ := resolveAll_cons_eq_resolved.mp resolved
    obtain ⟨fromFirst, apart⟩ := List.pairwise_cons.mp apart
    obtain rfl | later := List.mem_cons.mp member
    · have written : Holds (code.overwrite r.patch (displacementBytes d)).bytes r.patch
          (displacementBytes d) := by
        apply CodeBuffer.holds_write
        rw [length_displacementBytes]
        exact room
      refine ⟨d, found, fun index inside => ?_⟩
      -- the later windows are apart from this one, so they leave it as it has been filled in
      rw [getElem?_of_resolveAll resolved, written index inside]
      intro other member
      have away := fromFirst other member
      unfold Apart at away
      rw [length_displacementBytes] at inside
      omega
    · exact ih resolved apart later

end Relocation

end CrossAsm
