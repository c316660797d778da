import CrossAsm.Proofs.Scanning

/-!
What a scan makes of a text, and where. From every offset on, a text is a gap without newlines and then a
lexeme, a character that starts none, or its end; the stream `Traces` the text if it has an item for each
lexeme, at the offset of the lexeme. Every scan traces its text (`traces_ofChars`), so each token stands in
the text where its span says, and on the line that the newlines before it tell.
-/
namespace CrossAsm

/-- How many lines end before an offset. -/
def newlinesBefore (source : List Char) (offset : Nat) : Nat := (source.take offset).count '\n'

section Newlines

variable {source : List Char} {offset : Nat}

theorem newlinesBefore_le {first last : Nat} (order : first ≤ last) :
    newlinesBefore source first ≤ newlinesBefore source last := by
  apply List.Sublist.count_le
  exact (List.take_prefix_take_left order).sublist

theorem newlinesBefore_add {part : List Char} (stands : part <+: source.drop offset) :
    newlinesBefore source (offset + part.length) = newlinesBefore source offset + part.count '\n' := by
  obtain ⟨rest, same⟩ := stands
  unfold newlinesBefore
  rw [List.take_add, ← same, List.take_left, List.count_append]

theorem newlinesBefore_of_gap {gap : List Char} (stands : gap <+: source.drop offset)
    (single : '\n' ∉ gap) : newlinesBefore source (offset + gap.length) = newlinesBefore source offset := by
  rw [newlinesBefore_add stands, List.count_eq_zero.mpr single, Nat.add_zero]

end Newlines

namespace Lexeme

/-- The lexeme can be read in the text at the offset. -/
structure StandsAt (source : List Char) (offset : Nat) (l : Lexeme) : Prop where
  valid : l.Valid
  visible : l ≠ blank
  spelled : l.chars <+: source.drop offset

variable {source : List Char} {offset : Nat} {l : Lexeme}

theorem length_pos (valid : l.Valid) : 0 < l.chars.length := by
  cases l with
  | blank | punct | newline => simp [chars]
  | word name =>
    obtain ⟨c, cs, spelled, _⟩ := exists_cons_of_isIdentifier valid
    simp [chars, spelled]
  | number literal =>
    obtain ⟨c, cs, rfl, _⟩ := valid
    simp [chars]

theorem StandsAt.stop_le (stands : l.StandsAt source offset) :
    offset + l.chars.length ≤ source.length := by
  have short := stands.spelled.length_le
  have some := length_pos stands.valid
  rw [List.length_drop] at short
  omega

theorem StandsAt.newlinesBefore_stop (stands : l.StandsAt source offset) :
    newlinesBefore source (offset + l.chars.length) =
      newlinesBefore source offset + if l = newline then 1 else 0 := by
  rw [newlinesBefore_add stands.spelled]
  by_cases ends : l = newline
  · simp [ends, chars]
  · rw [if_neg ends, List.count_eq_zero.mpr (newline_not_mem_chars stands.valid ends)]

/-- The token of a lexeme has its place, and ends a line just if the lexeme does. -/
theorem token_of_item? {t : Token} (made : l.item? offset = some (.ok t)) :
    t.span = ⟨offset, offset + l.chars.length⟩ ∧ (t.kind = .newline ↔ l = newline) ∧
      ∀ name, t.kind = .word name → l = word name := by
  cases l with
  | blank => cases made
  | word | punct | newline =>
    cases made
    simp
  | number literal =>
    cases read : Numeral.parse? literal with
    | none => simp [item?, read] at made
    | some n =>
      simp only [item?, read, Option.some.injEq, Except.ok.injEq] at made
      rw [← made]
      simp

/-- A lexeme that makes no token is a number out of range. -/
theorem fault_of_item? {fault : ScanFault} (made : l.item? offset = some (.error fault)) :
    fault = .invalidNumber ⟨offset, offset + l.chars.length⟩ ∧ l ≠ newline := by
  cases l with
  | blank | word | punct | newline => cases made
  | number literal =>
    cases read : Numeral.parse? literal with
    | some n => simp [item?, read] at made
    | none =>
      simp only [item?, read, Option.some.injEq, Except.error.injEq] at made
      exact ⟨made.symm, by simp⟩

end Lexeme

namespace Token

variable {offset : Nat} {c : Char} {cs : List Char}

/-- Blanks and comments are passed over up to the end of the line. -/
theorem exists_gap_of_skipBlank (inComment : Bool) (offset : Nat) (cs : List Char) :
    ∃ gap, '\n' ∉ gap ∧ cs = gap ++ (skipBlank inComment offset cs).2 ∧
      (skipBlank inComment offset cs).1 = offset + gap.length := by
  induction cs generalizing inComment offset with
  | nil => exact ⟨[], by simp, rfl, rfl⟩
  | cons c cs ih =>
    have passed (inComment : Bool) (other : c ≠ '\n') :
        ∃ gap, '\n' ∉ gap ∧ c :: cs = gap ++ (skipBlank inComment (offset + 1) cs).2 ∧
          (skipBlank inComment (offset + 1) cs).1 = offset + gap.length := by
      obtain ⟨gap, single, divided, reached⟩ := ih inComment (offset + 1)
      refine ⟨c :: gap, ?_, ?_, ?_⟩
      · simpa [eq_comm] using ⟨other, single⟩
      · rw [List.cons_append, ← divided]
      · rw [reached, List.length_cons]
        omega
    rw [skipBlank]
    split
    next => exact ⟨[], by simp, rfl, rfl⟩
    next other =>
      split
      next => exact passed true other
      next =>
        split
        next => exact passed false other
        next => exact ⟨[], by simp, rfl, rfl⟩

theorem valid_word (starts : startsWord c) (cs : List Char) :
    (Lexeme.word (String.ofList (c :: cs.takeWhile continuesWord))).Valid := by
  have all : (cs.takeWhile continuesWord).all continuesWord := List.all_takeWhile
  simp only [Lexeme.Valid, isIdentifier, String.toList_ofList]
  exact Bool.and_eq_true_iff.mpr ⟨starts, all⟩

theorem valid_number (starts : startsNumber c cs) :
    (Lexeme.number (c :: cs.takeWhile Char.isAlphanum)).Valid := by
  refine ⟨c, _, rfl, ?_, List.all_eq_true.mp List.all_takeWhile⟩
  unfold startsNumber at starts ⊢
  cases cs with
  | nil => exact starts
  | cons d cs =>
    -- a digit after a sign belongs to the literal
    by_cases digit : d.isDigit
    · simpa [isAlphanum_of_isDigit digit, digit] using starts
    · simp only [List.head?_cons, Option.any_some, digit, Bool.and_false, Bool.or_false] at starts
      simp [starts]

/-- What is read at a character is a lexeme, and the same one wherever the character stands. -/
theorem lexeme?_eq_map_item? {item : Except ScanFault Token} {stop : Nat} {rest : List Char}
    (lexed : lexeme? offset c cs = some (item, stop, rest)) :
    ∃ l : Lexeme, l.Valid ∧ l ≠ .blank ∧ c :: cs = l.chars ++ rest ∧ ∀ place,
      lexeme? place c cs = (l.item? place).map fun made => (made, place + l.chars.length, rest) := by
  unfold lexeme? at lexed ⊢
  split at lexed
  next newline =>
    cases lexed
    refine ⟨.newline, trivial, by simp, by rw [newline]; rfl, ?_⟩
    intro place
    rw [if_pos newline]
    rfl
  next other =>
    simp only [other, if_false]
    split at lexed
    next p punct =>
      cases lexed
      have same : c = p.toChar := by
        unfold Punct.ofChar? at punct
        split at punct <;> cases punct <;> rfl
      refine ⟨.punct p, trivial, by simp, by rw [same]; rfl, ?_⟩
      intro place
      rfl
    next =>
      split at lexed
      next starts =>
        cases lexed
        have chars : (Lexeme.word (String.ofList (c :: cs.takeWhile continuesWord))).chars =
            c :: cs.takeWhile continuesWord := String.toList_ofList
        refine ⟨_, valid_word starts cs, by simp, ?_, ?_⟩
        · rw [chars, List.cons_append, List.takeWhile_append_dropWhile]
        · intro place
          rw [if_pos starts, Lexeme.item?, chars]
          rfl
      next notWord =>
        simp only [notWord]
        split at lexed
        next starts =>
          cases lexed
          refine ⟨_, valid_number starts, by simp, ?_, ?_⟩
          · rw [Lexeme.chars, List.cons_append, List.takeWhile_append_dropWhile]
          · intro place
            rw [if_pos starts, Lexeme.item?, Lexeme.chars]
            cases Numeral.parse? (c :: cs.takeWhile Char.isAlphanum) <;> rfl
        next => cases lexed

theorem exists_lexeme_of_lexeme? {item : Except ScanFault Token} {stop : Nat} {rest : List Char}
    (lexed : lexeme? offset c cs = some (item, stop, rest)) :
    ∃ l : Lexeme, l.Valid ∧ l ≠ .blank ∧ l.item? offset = some item ∧ c :: cs = l.chars ++ rest ∧
      stop = offset + l.chars.length := by
  obtain ⟨l, valid, visible, spelled, everywhere⟩ := lexeme?_eq_map_item? lexed
  obtain ⟨made, given, same⟩ := Option.map_eq_some_iff.mp ((everywhere offset).symm.trans lexed)
  cases same
  exact ⟨l, valid, visible, given, spelled, rfl⟩

namespace Stream

/-- From the offset on, the stream has an item for each lexeme of the text, and ends where there is none. -/
inductive Traces (source : List Char) : Nat → Stream → Prop
  | ends {offset : Nat} (inside : offset ≤ source.length)
    (last : newlinesBefore source source.length = newlinesBefore source offset) :
    Traces source offset ⟨[], none⟩
  | stuck {offset place : Nat} (order : offset ≤ place) (inside : place < source.length)
    (line : newlinesBefore source place = newlinesBefore source offset) :
    Traces source offset ⟨[], some place⟩
  | item {offset start : Nat} {l : Lexeme} {item : Except ScanFault Token} {rest : Stream}
    (order : offset ≤ start) (line : newlinesBefore source start = newlinesBefore source offset)
    (stands : l.StandsAt source start) (made : l.item? start = some item)
    (later : Traces source (start + l.chars.length) rest) : Traces source offset (rest.cons item)

theorem traces_of_drop {source : List Char} {offset : Nat} {cs : List Char}
    (inside : offset ≤ source.length) (left : source.drop offset = cs) :
    Traces source offset (scan offset cs) := by
  fun_induction scan offset cs with
  | case1 offset cs _ skipped =>
    obtain ⟨gap, single, divided, reached⟩ := exists_gap_of_skipBlank false offset cs
    rw [skipped, List.append_nil] at divided
    have stands : gap <+: source.drop offset := ⟨[], by rw [left, divided, List.append_nil]⟩
    have length : offset + gap.length = source.length := by
      rw [← divided, ← left, List.length_drop]
      omega
    refine .ends inside ?_
    rw [← length]
    exact newlinesBefore_of_gap stands single
  | case2 offset cs start c rest skipped _ =>
    obtain ⟨gap, single, divided, reached⟩ := exists_gap_of_skipBlank false offset cs
    rw [skipped] at divided reached
    have stands : gap <+: source.drop offset := ⟨_, by rw [left, divided]⟩
    have length : offset + cs.length = source.length := by
      rw [← left, List.length_drop]
      omega
    simp only [divided, List.length_append, List.length_cons] at length
    dsimp only at reached
    refine .stuck (by omega) (by omega) ?_
    rw [reached]
    exact newlinesBefore_of_gap stands single
  | case3 offset cs start c tail skipped item stop rest lexed ih =>
    obtain ⟨gap, single, divided, reached⟩ := exists_gap_of_skipBlank false offset cs
    obtain ⟨l, valid, visible, made, spelled, stops⟩ := exists_lexeme_of_lexeme? lexed
    rw [skipped] at divided reached
    dsimp only at divided reached
    have stands : gap <+: source.drop offset := ⟨_, by rw [left, divided]⟩
    have there : source.drop start = l.chars ++ rest := by
      rw [reached, ← List.drop_drop, left, divided, List.drop_left, spelled]
    have standsAt : l.StandsAt source start := ⟨valid, visible, rest, there.symm⟩
    have after : source.drop stop = rest := by
      rw [stops, ← List.drop_drop, there, List.drop_left]
    have line : newlinesBefore source start = newlinesBefore source offset := by
      rw [reached]
      exact newlinesBefore_of_gap stands single
    have bound := standsAt.stop_le
    rw [← stops] at bound
    refine .item (by omega) line standsAt made ?_
    rw [← stops]
    exact ih bound after

/-- The scan of a text traces it. -/
theorem traces_ofChars (source : List Char) : Traces source 0 (ofChars source) :=
  traces_of_drop (Nat.zero_le _) rfl

/-- A token of a text is made of a lexeme that stands there. -/
theorem Traces.exists_lexeme {source : List Char} {offset : Nat} {s : Stream} {t : Token}
    (traces : Traces source offset s) (member : .ok t ∈ s.items) :
    ∃ l : Lexeme, l.StandsAt source t.span.start ∧ l.item? t.span.start = some (.ok t) := by
  induction traces with
  | ends | stuck => cases member
  | @item offset start l item rest order line stands made later ih =>
    obtain same | further := List.mem_cons.mp member
    · rw [← same] at made
      rw [(Lexeme.token_of_item? made).1]
      exact ⟨l, stands, made⟩
    · exact ih further

end Stream

end Token

end CrossAsm
