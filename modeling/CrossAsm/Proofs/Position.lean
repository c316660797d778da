import CrossAsm.Text.Position

/-!
Positions in a text of which the lines before are known: the line is counted by the newlines before it,
and the column by the characters since (`position_of_front`, `position_of_line`). The way back leads from
the position to the end of its line (`range_of_front`, `range_of_line`).
-/
namespace CrossAsm.LineMap

theorem startsAfter_append (offset : Nat) (first second : List Char) :
    startsAfter offset (first ++ second) =
      startsAfter offset first ++ startsAfter (offset + first.length) second := by
  induction first generalizing offset with
  | nil => rfl
  | cons c cs ih =>
    have shift : offset + (c :: cs).length = offset + 1 + cs.length := by
      rw [List.length_cons]
      omega
    rw [List.cons_append, startsAfter, startsAfter, ih, shift]
    split <;> rfl

theorem length_startsAfter (offset : Nat) (cs : List Char) :
    (startsAfter offset cs).length = cs.count '\n' := by
  induction cs generalizing offset with
  | nil => rfl
  | cons c cs ih =>
    rw [startsAfter, List.count_cons]
    split
    next newline => simp [ih, newline]
    next other => simp [ih, other]

/-- Lines start after their newline, and no later than the text ends. -/
theorem bounds_of_mem_startsAfter {offset start : Nat} {cs : List Char}
    (member : start ∈ startsAfter offset cs) : offset < start ∧ start ≤ offset + cs.length := by
  induction cs generalizing offset with
  | nil => cases member
  | cons c cs ih =>
    rw [startsAfter] at member
    rw [List.length_cons]
    split at member
    next =>
      obtain rfl | later := List.mem_cons.mp member
      · omega
      · have bound := ih later
        omega
    next =>
      have bound := ih member
      omega

/-- In a text without newlines no line starts. -/
theorem startsAfter_eq_nil {cs : List Char} (single : '\n' ∉ cs) (offset : Nat) :
    startsAfter offset cs = [] := by
  apply List.eq_nil_of_length_eq_zero
  rw [length_startsAfter, List.count_eq_zero]
  exact single

/-- After a whole number of lines, the last one starts at the end. -/
theorem getLastD_startsAfter {cs : List Char} (whole : cs = [] ∨ cs.getLast? = some '\n') :
    (startsAfter 0 cs).getLastD 0 = cs.length := by
  obtain rfl | last := whole
  · rfl
  · obtain ⟨front, rfl⟩ := List.getLast?_eq_some_iff.mp last
    rw [startsAfter_append, List.length_append]
    simp [startsAfter]

theorem lineAt_append {offset : Nat} {passed : List Nat} (reached : ∀ s ∈ passed, s ≤ offset)
    (line start : Nat) (later : List Nat) :
    lineAt offset line start (passed ++ later) =
      lineAt offset (line + passed.length) (passed.getLastD start) later := by
  induction passed generalizing line start with
  | nil => rfl
  | cons s rest ih =>
    obtain ⟨here, further⟩ := List.forall_mem_cons.mp reached
    have count : line + (s :: rest).length = line + 1 + rest.length := by
      rw [List.length_cons]
      omega
    rw [List.cons_append, lineAt, if_pos here, ih further, count, List.getLastD_cons]

theorem lineAt_of_lt {offset : Nat} {later : List Nat} (beyond : ∀ s ∈ later, offset < s)
    (line start : Nat) : lineAt offset line start later = (line, start) := by
  cases later with
  | nil => rfl
  | cons s rest =>
    have past := beyond s List.mem_cons_self
    rw [lineAt, if_neg (by omega)]

/-- The starts of lines, those of some lines and those after them. -/
theorem starts_append (front rest : List Char) :
    (ofChars (front ++ rest)).starts = (0 :: startsAfter 0 front) ++ startsAfter front.length rest := by
  rw [ofChars, startsAfter_append, Nat.zero_add]
  rfl

/-- The position of an offset that lies behind some whole lines and before any further one starts. -/
theorem position_of_front {front rest : List Char} (whole : front = [] ∨ front.getLast? = some '\n')
    {offset : Nat} (low : front.length ≤ offset)
    (beyond : ∀ s ∈ startsAfter front.length rest, offset < s) :
    (ofChars (front ++ rest)).position offset =
      ⟨UInt32.ofNat (front.count '\n' + 1), UInt32.ofNat (offset - front.length + 1)⟩ := by
  have reached : ∀ s ∈ 0 :: startsAfter 0 front, s ≤ offset := by
    intro s member
    obtain rfl | member := List.mem_cons.mp member
    · omega
    · have bound := bounds_of_mem_startsAfter member
      omega
  have found : lineAt offset 0 0 (ofChars (front ++ rest)).starts =
      (front.count '\n' + 1, front.length) := by
    rw [starts_append, lineAt_append reached, lineAt_of_lt beyond, List.getLastD_cons,
      getLastD_startsAfter whole, List.length_cons, length_startsAfter, Nat.zero_add]
  rw [position, found, UInt32.ofNat_add (offset - front.length)]
  rfl

/-- A part of a line puts off the lines that start after it. -/
theorem startsAfter_of_line {part : List Char} (single : '\n' ∉ part) (offset : Nat)
    (rest : List Char) :
    startsAfter offset (part ++ rest) = startsAfter (offset + part.length) rest := by
  rw [startsAfter_append, startsAfter_eq_nil single, List.nil_append]

/-- The position of what follows some whole lines and a part of a line. -/
theorem position_of_line {front part : List Char}
    (whole : front = [] ∨ front.getLast? = some '\n') (single : '\n' ∉ part) (rest : List Char) :
    (ofChars (front ++ (part ++ rest))).position (front.length + part.length) =
      ⟨UInt32.ofNat (front.count '\n' + 1), UInt32.ofNat (part.length + 1)⟩ := by
  have beyond : ∀ s ∈ startsAfter front.length (part ++ rest), front.length + part.length < s := by
    intro s member
    rw [startsAfter_of_line single] at member
    exact (bounds_of_mem_startsAfter member).1
  rw [position_of_front whole (Nat.le_add_right _ _) beyond, Nat.add_sub_cancel_left]

/-- A line ends before the next one starts, or where the text ends. -/
theorem stop_of_startsAfter (offset : Nat) (cs : List Char) :
    ((startsAfter offset cs).head?.map (· - 1)).getD (offset + cs.length) =
      offset + (cs.takeWhile (· ≠ '\n')).length := by
  induction cs generalizing offset with
  | nil => rfl
  | cons c cs ih =>
    rw [startsAfter, List.length_cons]
    by_cases newline : c = '\n'
    · simp [newline]
    · have shift : offset + (cs.length + 1) = offset + 1 + cs.length := by omega
      rw [if_neg newline, shift, ih (offset + 1), List.takeWhile_cons_of_pos (by simp [newline]),
        List.length_cons]
      omega

theorem length_starts (source : List Char) : (ofChars source).starts.length = source.count '\n' + 1 := by
  rw [ofChars, List.length_cons, length_startsAfter]

/-- The span from a position that stands for the line after some whole lines. -/
theorem range_of_front {front rest : List Char} (whole : front = [] ∨ front.getLast? = some '\n')
    {p : Position}
    (line : min (max p.line.toNat 1) ((front ++ rest).count '\n' + 1) = front.count '\n' + 1) :
    (ofChars (front ++ rest)).range p =
      ⟨min (front.length + (p.column.toNat - 1)) (front.length + (rest.takeWhile (· ≠ '\n')).length),
        max (front.length + (rest.takeWhile (· ≠ '\n')).length)
          (min (front.length + (p.column.toNat - 1))
            (front.length + (rest.takeWhile (· ≠ '\n')).length) + 1)⟩ := by
  have starts : (ofChars (front ++ rest)).starts = _ := starts_append front rest
  have count : (0 :: startsAfter 0 front).length = front.count '\n' + 1 := by
    rw [List.length_cons, length_startsAfter]
  have lineStart : (ofChars (front ++ rest)).starts[front.count '\n']? = some front.length := by
    have last : (0 :: startsAfter 0 front).getLast? = some front.length := by
      rw [List.getLast?_cons, ← List.getLastD_eq_getLast?, getLastD_startsAfter whole]
    rw [List.getLast?_eq_getElem?, count] at last
    rw [starts, List.getElem?_append_left (by omega)]
    exact last
  have lineEnd : ((ofChars (front ++ rest)).starts[front.count '\n' + 1]?.map (· - 1)).getD
      (ofChars (front ++ rest)).length = front.length + (rest.takeWhile (· ≠ '\n')).length := by
    have length : (ofChars (front ++ rest)).length = front.length + rest.length := by
      rw [ofChars, List.length_append]
    rw [starts, List.getElem?_append_right (by omega), count, Nat.sub_self, ← List.head?_eq_getElem?,
      length, stop_of_startsAfter]
  rw [range, length_starts, line, Nat.add_sub_cancel, lineStart, Option.getD_some, lineEnd]

/-- The span from what follows some whole lines and a part of a line. -/
theorem range_of_line {front part : List Char}
    (whole : front = [] ∨ front.getLast? = some '\n') (single : '\n' ∉ part) (rest : List Char)
    {p : Position} (line : p.line.toNat = front.count '\n' + 1)
    (column : p.column.toNat = part.length + 1) :
    (ofChars (front ++ (part ++ rest))).range p =
      ⟨front.length + part.length, max (front.length + part.length +
        (rest.takeWhile (· ≠ '\n')).length) (front.length + part.length + 1)⟩ := by
  have others : ∀ c ∈ part, decide (c ≠ '\n') = true := by
    intro c member
    rw [decide_eq_true_iff]
    rintro rfl
    exact single member
  have length : ((part ++ rest).takeWhile (· ≠ '\n')).length =
      part.length + (rest.takeWhile (· ≠ '\n')).length := by
    rw [List.takeWhile_append_of_pos others, List.length_append]
  have here : min (max p.line.toNat 1) ((front ++ (part ++ rest)).count '\n' + 1) =
      front.count '\n' + 1 := by
    rw [List.count_append]
    omega
  rw [range_of_front whole here, column, length, Nat.add_sub_cancel, ← Nat.add_assoc,
    Nat.min_eq_left (Nat.le_add_right _ _)]

/-- What stands before an offset: some whole lines, and the part of a line since. -/
theorem exists_lines_append (before : List Char) :
    ∃ front part, before = front ++ part ∧ (front = [] ∨ front.getLast? = some '\n') ∧ '\n' ∉ part ∧
      (before.reverse.takeWhile (· ≠ '\n')).length = part.length := by
  let part := before.reverse.takeWhile (· ≠ '\n')
  let front := before.reverse.dropWhile (· ≠ '\n')
  refine ⟨front.reverse, part.reverse, ?_, ?_, ?_, (List.length_reverse).symm⟩
  · rw [← List.reverse_append, List.takeWhile_append_dropWhile, List.reverse_reverse]
  · rw [List.getLast?_reverse, List.reverse_eq_nil_iff]
    by_cases none : front = []
    · exact .inl none
    · have stopped := List.head_dropWhile_not (· ≠ '\n') none
      refine .inr ?_
      rw [List.head?_eq_some_head none]
      simpa [front] using stopped
  · rw [List.mem_reverse]
    intro member
    have other := List.all_eq_true.mp List.all_takeWhile '\n' member
    simp at other

end CrossAsm.LineMap
