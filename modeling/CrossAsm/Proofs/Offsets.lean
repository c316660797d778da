import CrossAsm.Proofs.Position

/-!
Offsets and positions. Lines are told by the characters alone: one starts at the beginning of the text and
after every newline (`LineStart`), and ends before the next newline or at the end of the text (`lineEnd`).
The position of an offset counts the newlines before it and the characters since the last start of a line
(`position_of_offset`). The way back leads to the same offset, and from any position at all into the text, on
the line it is clamped to (`positions_lead_back_to_offsets`).
-/
namespace CrossAsm.LineMap

/-- A line of the text starts at this offset. -/
def LineStart (source : List Char) (start : Nat) : Prop :=
  start = 0 ∨ 0 < start ∧ source[start - 1]? = some '\n'

/-- The line of an offset starts here: no line starts after that, up to the offset. -/
structure LastStart (source : List Char) (offset start : Nat) : Prop where
  starts : LineStart source start
  reached : start ≤ offset
  last : ∀ other, LineStart source other → other ≤ offset → other ≤ start

/-- Where the line of an offset ends: at the next newline, or where the text does. -/
def lineEnd (source : List Char) (offset : Nat) : Nat :=
  offset + ((source.drop offset).takeWhile (· ≠ '\n')).length

variable {source front part rest : List Char} {offset : Nat}

theorem lineStart_length (whole : front = [] ∨ front.getLast? = some '\n') (rest : List Char) :
    LineStart (front ++ rest) front.length := by
  obtain rfl | last := whole
  · exact .inl rfl
  · obtain ⟨earlier, rfl⟩ := List.getLast?_eq_some_iff.mp last
    refine .inr ⟨by simp, ?_⟩
    simp

theorem eq_append_drop (divided : source.take offset = front ++ part) :
    source = front ++ (part ++ source.drop offset) := by
  rw [← List.append_assoc, ← divided, List.take_append_drop]

/-- Whole lines and a part of a line: the last start is between the two. -/
theorem lastStart_length (whole : front = [] ∨ front.getLast? = some '\n') (single : '\n' ∉ part)
    (divided : source.take offset = front ++ part) : LastStart source offset front.length := by
  have parts := eq_append_drop divided
  have length : front.length + part.length = min offset source.length := by
    rw [← List.length_append, ← divided, List.length_take]
  refine ⟨parts ▸ lineStart_length whole _, by omega, ?_⟩
  intro other start reached
  apply Nat.le_of_not_lt
  intro later
  obtain rfl | ⟨_, newline⟩ := start
  · omega
  · -- the newline before that start would belong to the part
    have inside : other - 1 < source.length := (List.getElem?_eq_some_iff.mp newline).1
    rw [parts, List.getElem?_append_right (by omega), List.getElem?_append_left (by omega)] at newline
    exact single (List.mem_of_getElem? newline)

/-- The position of any offset, also behind the end of the text. -/
theorem position_of_offset (source : List Char) (offset : Nat) :
    ∃ start, LastStart source offset start ∧ (ofChars source).position offset =
      ⟨UInt32.ofNat ((source.take offset).count '\n' + 1), UInt32.ofNat (offset - start + 1)⟩ := by
  obtain ⟨front, part, divided, whole, single, _⟩ := exists_lines_append (source.take offset)
  have start := lastStart_length whole single divided
  refine ⟨front.length, start, ?_⟩
  have parts := eq_append_drop divided
  have beyond : ∀ s ∈ startsAfter front.length (part ++ source.drop offset), offset < s := by
    intro s member
    rw [startsAfter_of_line single] at member
    have bounds := bounds_of_mem_startsAfter member
    rw [List.length_drop, ← List.length_append, ← divided, List.length_take] at bounds
    omega
  have count : (source.take offset).count '\n' = front.count '\n' := by
    rw [divided, List.count_append, List.count_eq_zero.mpr single, Nat.add_zero]
  have found := position_of_front whole start.reached beyond
  rw [← parts] at found
  rw [found, count]

/-- From the position of an offset in the text back to it, and on to the end of its line. -/
theorem range_of_position (short : source.length < 0xFFFFFFFF) (inside : offset ≤ source.length) :
    (ofChars source).range ((ofChars source).position offset) =
      ⟨offset, max (lineEnd source offset) (offset + 1)⟩ := by
  obtain ⟨front, part, divided, whole, single, _⟩ := exists_lines_append (source.take offset)
  have parts := eq_append_drop divided
  have reached : front.length + part.length = offset := by
    rw [← List.length_append, ← divided, List.length_take, Nat.min_eq_left inside]
  have lines : front.count '\n' ≤ front.length := List.count_le_length
  have words : UInt32.size = 0x100000000 := rfl
  have place := position_of_line whole single (source.drop offset)
  have back := range_of_line (p := ⟨UInt32.ofNat (front.count '\n' + 1), UInt32.ofNat (part.length + 1)⟩)
    whole single (source.drop offset) (UInt32.toNat_ofNat_of_lt (by omega))
    (UInt32.toNat_ofNat_of_lt (by omega))
  rw [← parts, reached] at place back
  rw [place, back, lineEnd]

/-- Every line of a text follows some whole lines. -/
theorem exists_front {line : Nat} (present : line ≤ source.count '\n') :
    ∃ front rest, source = front ++ rest ∧ (front = [] ∨ front.getLast? = some '\n') ∧
      front.count '\n' = line := by
  induction source generalizing line with
  | nil => exact ⟨[], [], rfl, .inl rfl, (Nat.le_zero.mp present).symm⟩
  | cons c cs ih =>
    cases line with
    | zero => exact ⟨[], c :: cs, rfl, .inl rfl, rfl⟩
    | succ line =>
      by_cases newline : c = '\n'
      · rw [newline, List.count_cons_self] at present
        obtain ⟨front, rest, rfl, whole, count⟩ := ih (Nat.le_of_succ_le_succ present)
        refine ⟨c :: front, rest, rfl, .inr ?_, by rw [newline, List.count_cons_self, count]⟩
        obtain rfl | last := whole
        · rw [newline]
          rfl
        · rw [List.getLast?_cons, last, Option.getD_some]
      · rw [List.count_cons_of_ne newline] at present
        obtain ⟨front, rest, rfl, whole, count⟩ := ih present
        refine ⟨c :: front, rest, rfl, .inr ?_, by rw [List.count_cons_of_ne newline, count]⟩
        obtain rfl | last := whole
        · cases count
        · rw [List.getLast?_cons, last, Option.getD_some]

/-- Any position leads to a span in the text that is not empty and starts on the line it is clamped to. -/
theorem range_of_any (source : List Char) (p : Position) :
    ∃ first, LineStart source first ∧
      (source.take first).count '\n' + 1 = min (max p.line.toNat 1) (source.count '\n' + 1) ∧
      first ≤ ((ofChars source).range p).start ∧
      ((ofChars source).range p).start ≤ lineEnd source first ∧
      lineEnd source first ≤ source.length ∧
      ((ofChars source).range p).start < ((ofChars source).range p).stop := by
  have present : min (max p.line.toNat 1) (source.count '\n' + 1) - 1 ≤ source.count '\n' := by omega
  obtain ⟨front, rest, parts, whole, count⟩ := exists_front present
  have line : min (max p.line.toNat 1) (source.count '\n' + 1) = front.count '\n' + 1 := by omega
  have stop : lineEnd source front.length = front.length + (rest.takeWhile (· ≠ '\n')).length := by
    rw [lineEnd, parts, List.drop_left]
  have short : (rest.takeWhile (· ≠ '\n')).length ≤ rest.length := (List.takeWhile_sublist _).length_le
  have span := range_of_front whole (parts ▸ line)
  rw [← parts] at span
  refine ⟨front.length, parts ▸ lineStart_length whole rest, ?_, ?_⟩
  · rw [line, parts, List.take_left]
  · have length : source.length = front.length + rest.length := by rw [parts, List.length_append]
    rw [span, stop, length]
    dsimp only
    omega

/-- Positions are counted by newlines and characters, for every offset a position can show. They lead back
to every offset of the text, up to its end, and on to the end of its line or at least by one. Any other
position, on no line or behind the end, still leads into the text and no further than the end of the line it
is clamped to. -/
theorem positions_lead_back_to_offsets (source : List Char) (short : source.length < 0xFFFFFFFF) :
    (∀ offset < 0xFFFFFFFF, ∃ start, LastStart source offset start ∧
      ((ofChars source).position offset).line.toNat = 1 + (source.take offset).count '\n' ∧
      ((ofChars source).position offset).column.toNat = 1 + (offset - start)) ∧
    (∀ offset ≤ source.length, (ofChars source).range ((ofChars source).position offset) =
      ⟨offset, max (lineEnd source offset) (offset + 1)⟩) ∧
    ∀ p : Position, let span := (ofChars source).range p
      span.start < span.stop ∧ span.start ≤ source.length ∧
      ∃ first, LineStart source first ∧
        1 + (source.take first).count '\n' = min (max p.line.toNat 1) (1 + source.count '\n') ∧
        first ≤ span.start ∧ span.start ≤ lineEnd source first := by
  refine ⟨?_, ?_, ?_⟩
  · intro offset low
    obtain ⟨start, last, found⟩ := position_of_offset source offset
    refine ⟨start, last, ?_⟩
    have lines : (source.take offset).count '\n' ≤ source.length :=
      Nat.le_trans List.count_le_length (List.length_take_le' ..)
    have words : UInt32.size = 0x100000000 := rfl
    rw [found, Nat.add_comm 1, Nat.add_comm 1]
    exact ⟨UInt32.toNat_ofNat_of_lt (by omega), UInt32.toNat_ofNat_of_lt (by omega)⟩
  · intro offset inside
    exact range_of_position short inside
  · intro p span
    obtain ⟨first, starts, line, low, high, inside, order⟩ := range_of_any source p
    refine ⟨order, Nat.le_trans high inside, first, starts, ?_, low, high⟩
    rw [Nat.add_comm, line, Nat.add_comm 1]

/-- A newline belongs to the line that it ends, and a span on it covers it alone. Behind the last line comes
its end, and before the first line its start. -/
theorem positions_lead_back_to_offsets_around_newlines :
    (∃ start, LastStart ['a', '\n', '\n', 'b'] 1 start ∧
      ((ofChars ['a', '\n', '\n', 'b']).position 1).line.toNat = 1 ∧
      ((ofChars ['a', '\n', '\n', 'b']).position 1).column.toNat = 1 + (1 - start)) ∧
    (ofChars ['a', '\n', '\n', 'b']).range ⟨1, 2⟩ = ⟨1, 2⟩ ∧
    (ofChars ['a', '\n', '\n', 'b']).range ⟨2, 1⟩ = ⟨2, 3⟩ ∧
    (ofChars ['a', '\n', '\n', 'b']).range ⟨3, 2⟩ = ⟨4, 5⟩ ∧
    ((ofChars ['a', '\n', '\n', 'b']).range ⟨9, 9⟩).start ≤ 4 ∧
    ((ofChars ['a', '\n', '\n', 'b']).range ⟨0, 0⟩).start ≤ 4 := by
  obtain ⟨places, back, spans⟩ :=
    positions_lead_back_to_offsets ['a', '\n', '\n', 'b'] (by decide)
  exact ⟨places 1 (by decide), back 1 (by decide), back 2 (by decide), back 4 (by decide),
    (spans ⟨9, 9⟩).2.1, (spans ⟨0, 0⟩).2.1⟩

end CrossAsm.LineMap
