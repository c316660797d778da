import CrossAsm.Program.Source
import CrossAsm.Proofs.Numeral

/-!
Reading tokens that are all there. A window `Shows` the tokens from the current one on, and a step of
reading `Reads` tokens of certain kinds if, wherever they stand, it takes just these. What a whole line
reads is then put together from what its steps read.
-/
namespace CrossAsm

/-- The kind of token that an operand is written as. -/
def Operand.kind : Operand → Token.Kind
  | reg r => .word r.text
  | imm n => .number n

/-- The window shows these tokens, and then the end of the source. -/
structure Window.Shows (w : Window) (tokens : List Token) : Prop where
  current : w.current = tokens[0]?
  ahead : w.ahead = tokens[1]?
  rest : w.rest = ⟨(tokens.drop 2).map .ok, none⟩

namespace Window

theorem Shows.advance {w : Window} {t : Token} {tokens : List Token} (shows : w.Shows (t :: tokens)) :
    ∃ after, advance { w with current := none } = .ok () after ∧ after.Shows tokens := by
  obtain ⟨length, index, current, ahead, rest⟩ := w
  obtain ⟨rfl, rfl, rfl⟩ := shows
  cases tokens with
  | nil => exact ⟨_, rfl, rfl, rfl, rfl⟩
  | cons u tokens =>
    cases tokens with
    | nil => exact ⟨_, rfl, rfl, rfl, rfl⟩
    | cons v tokens => exact ⟨_, rfl, rfl, rfl, rfl⟩

theorem shows_of_ofChars {source : List Char} {tokens : List Token}
    (scanned : Token.Stream.ofChars source = ⟨tokens.map .ok, none⟩) :
    ∃ w, ofChars source = .ok w ∧ w.Shows tokens := by
  unfold ofChars
  rw [scanned]
  cases tokens with
  | nil => exact ⟨_, rfl, rfl, rfl, rfl⟩
  | cons t tokens =>
    cases tokens with
    | nil => exact ⟨_, rfl, rfl, rfl, rfl⟩
    | cons u tokens => exact ⟨_, rfl, rfl, rfl, rfl⟩

end Window

namespace Reading

variable {α β : Type}

/-- The step takes tokens of these kinds, whatever follows, and gives `a`. -/
def Reads (step : Reading α) (kinds : List Token.Kind) (a : α) : Prop :=
  ∀ w tokens rest, tokens.map Token.kind = kinds → Window.Shows w (tokens ++ rest) →
    ∃ after, step w = .ok a after ∧ after.Shows rest

/-- The step takes tokens of these kinds at the end of a line and gives `a`. -/
def Ends (step : Reading α) (kinds : List Token.Kind) (a : α) : Prop :=
  ∀ w tokens last rest, tokens.map Token.kind = kinds → last.kind = .newline →
    Window.Shows w (tokens ++ last :: rest) → ∃ after, step w = .ok a after ∧ after.Shows (last :: rest)

theorem Reads.ends {step : Reading α} {kinds : List Token.Kind} {a : α} (reads : Reads step kinds a) :
    Ends step kinds a := by
  intro w tokens last rest same _ shows
  exact reads w tokens (last :: rest) same shows

theorem Reads.pure (a : α) : Reads (Pure.pure a) [] a := by
  intro w tokens rest same shows
  rw [List.map_eq_nil_iff.mp same] at shows
  exact ⟨w, rfl, shows⟩

theorem Reads.bind {step : Reading α} {next : α → Reading β} {first second : List Token.Kind} {a : α}
    {b : β} (reads : Reads step first a) (further : Reads (next a) second b) :
    Reads (step >>= next) (first ++ second) b := by
  intro w tokens rest same shows
  obtain ⟨front, back, rfl, rfl, rfl⟩ := List.map_eq_append_iff.mp same
  rw [List.append_assoc] at shows
  obtain ⟨middle, ran, shows⟩ := reads w front (back ++ rest) rfl shows
  obtain ⟨after, again, shows⟩ := further middle back rest rfl shows
  refine ⟨after, ?_, shows⟩
  change EStateM.bind step next w = _
  simp only [EStateM.bind, ran, again]

/-- The last step, of which something is made. -/
theorem Reads.map {step : Reading α} {kinds : List Token.Kind} {a : α} (reads : Reads step kinds a)
    (f : α → β) : Reads (step >>= fun a => Pure.pure (f a)) kinds (f a) := by
  have mapped : Reads (step >>= fun a => Pure.pure (f a)) (kinds ++ []) (f a) :=
    reads.bind (Reads.pure (f a))
  rwa [List.append_nil] at mapped

/-- The last step of a line, of which something is made. -/
theorem Ends.bind_pure {step : Reading α} {next : α → Reading β} {kinds : List Token.Kind} {a : α}
    {b : β} (ends : Ends step kinds a) (given : next a = Pure.pure b) : Ends (step >>= next) kinds b := by
  intro w tokens last rest same newline shows
  obtain ⟨after, ran, shown⟩ := ends w tokens last rest same newline shows
  refine ⟨after, ?_, shown⟩
  change EStateM.bind step next w = _
  simp only [EStateM.bind, ran, given]
  rfl

section Steps

/-- A step may look at the window first. -/
theorem get_bind (next : Window → Reading α) (w : Window) : (get >>= next) w = next w w := rfl

theorem take_of_shows {w : Window} {t : Token} {tokens : List Token}
    (shows : w.Shows (t :: tokens)) : ∃ after, take w = .ok (some t) after ∧ after.Shows tokens := by
  obtain ⟨after, moved, shown⟩ := shows.advance
  have current : w.current = some t := shows.current
  refine ⟨after, ?_, shown⟩
  unfold take Window.take
  simp only [moved, current]

theorem reads_endOfLine : Reads endOfLine [.newline] true := by
  intro w tokens rest same shows
  obtain ⟨t, rfl, newline⟩ := List.map_eq_singleton_iff.mp same
  obtain ⟨after, taken, shown⟩ := take_of_shows shows
  refine ⟨after, ?_, shown⟩
  unfold endOfLine
  simp only [bind, EStateM.bind, taken, newline, if_true]
  rfl

end Steps

section Lines

variable {places : LineMap} {w : Window} {span : Span} {rest : List Token}

theorem line_eq_instruction {word : String} {token : Option Token} {afterWord : Window}
    (current : w.current = some ⟨.word word, span⟩) (taken : take w = .ok token afterWord)
    (unlabelled : ∀ place, afterWord.current ≠ some ⟨.punct .colon, place⟩) :
    line places w = instruction (places.position span.start) word span afterWord := by
  rw [line]
  split
  next absent => cases current.symm.trans absent
  next present => cases current.symm.trans present
  next present =>
    cases current.symm.trans present
    split
    next failed => cases taken.symm.trans failed
    next again =>
      cases taken.symm.trans again
      split
      next colon => exact absurd colon (unlabelled _)
      next => rfl
  next _ notWord present =>
    cases current.symm.trans present
    exact absurd rfl (notWord word)

/-- After a label the line goes on if a word follows, and else it has to end. -/
theorem line_eq_label (places : LineMap) {word : String} {token colon : Option Token}
    {afterWord afterColon : Window} {place : Span} (current : w.current = some ⟨.word word, span⟩)
    (taken : take w = .ok token afterWord)
    (labelled : afterWord.current = some ⟨.punct .colon, place⟩)
    (passed : take afterWord = .ok colon afterColon) :
    (∀ other further, afterColon.current = some ⟨.word other, further⟩ →
      line places w = (line places >>= fun result =>
        pure (⟨.label word, places.position span.start⟩ :: result.1, result.2)) afterColon) ∧
    ((∀ other further, afterColon.current ≠ some ⟨.word other, further⟩) →
      line places w = (endOfLine >>= fun more =>
        pure ([⟨.label word, places.position span.start⟩], more)) afterColon) := by
  rw [line]
  split
  next absent => cases current.symm.trans absent
  next present => cases current.symm.trans present
  next present =>
    cases current.symm.trans present
    split
    next failed => cases taken.symm.trans failed
    next again =>
      cases taken.symm.trans again
      split
      next =>
        split
        next failed => cases passed.symm.trans failed
        next again =>
          cases passed.symm.trans again
          constructor
          · intro other further goesOn
            split
            next =>
              change _ = EStateM.bind (line places) _ afterColon
              unfold EStateM.bind
              cases line places afterColon <;> rfl
            next notWord => exact absurd goesOn (notWord other further)
          · intro last
            split
            next other place word => exact absurd word (last other place)
            next =>
              change _ = EStateM.bind endOfLine _ afterColon
              unfold EStateM.bind
              cases endOfLine afterColon <;> rfl
      next other => exact absurd labelled (other place)
  next _ notWord present =>
    cases current.symm.trans present
    exact absurd rfl (notWord word)

theorem line_of_none (absent : w.current = none) : line places w = .ok ([], false) w := by
  rw [line]
  split
  next => rfl
  next present => cases absent.symm.trans present
  next present => cases absent.symm.trans present
  next present => cases absent.symm.trans present

theorem line_of_newline {newline : Span} (current : w.current = some ⟨.newline, newline⟩)
    {token : Option Token} {after : Window} (taken : take w = .ok token after) :
    line places w = .ok ([], true) after := by
  rw [line]
  split
  next absent => cases current.symm.trans absent
  next => rw [taken]
  next present => cases current.symm.trans present
  next notNewline _ present =>
    cases current.symm.trans present
    exact absurd rfl notNewline

/-- A line has to start with a word. -/
theorem line_of_other {kind : Token.Kind} (current : w.current = some ⟨kind, span⟩)
    (notNewline : kind ≠ .newline) (notWord : ∀ word, kind ≠ .word word) :
    line places w = .error (.unexpectedToken span .labelOrInstruction) w := by
  rw [line]
  split
  next absent => cases current.symm.trans absent
  next present =>
    cases current.symm.trans present
    exact absurd rfl notNewline
  next present =>
    cases current.symm.trans present
    exact absurd rfl (notWord _)
  next present =>
    cases current.symm.trans present
    rfl

/-- A line with a label alone. -/
theorem line_of_label {name : String} {tokens : List Token}
    (same : tokens.map Token.kind = [.punct .colon, .newline])
    (shows : w.Shows (⟨.word name, span⟩ :: (tokens ++ rest))) :
    ∃ after, line places w = .ok ([⟨.label name, places.position span.start⟩], true) after ∧
      after.Shows rest := by
  obtain ⟨⟨_, place⟩, last, rfl, rfl, newline⟩ := List.map_eq_cons_iff.mp same
  obtain ⟨⟨_, stop⟩, rfl, rfl⟩ := List.map_eq_singleton_iff.mp newline
  obtain ⟨afterWord, taken, shown⟩ := take_of_shows shows
  obtain ⟨afterColon, passed, shown'⟩ := take_of_shows shown
  obtain ⟨after, ended, last⟩ := reads_endOfLine afterColon [_] rest newline shown'
  refine ⟨after, ?_, last⟩
  rw [(line_eq_label places shows.current taken shown.current passed).2]
  · simp only [bind, EStateM.bind, ended]
    rfl
  · intro other place word
    cases shown'.current.symm.trans word

theorem lines_of_line {instructions : List Instruction} {after : Window}
    (read : line places w = .ok (instructions, true) after) :
    lines places w = (instructions ++ (lines places after).1, (lines places after).2) := by
  rw [lines]
  split
  next again => cases read.symm.trans again
  next again =>
    cases read.symm.trans again
    rfl
  next failed => cases read.symm.trans failed

theorem lines_of_last_line {instructions : List Instruction} {after : Window}
    (read : line places w = .ok (instructions, false) after) : lines places w = (instructions, []) := by
  rw [lines]
  split
  next again =>
    cases read.symm.trans again
    rfl
  next again => cases read.symm.trans again
  next failed => cases read.symm.trans failed

section Fault

variable {fault : ParseFault} {after : Window} (failed : line places w = .error fault after)
include failed

theorem lines_of_last_fault (skipped : skipLine after = .finished) :
    lines places w = ([], [fault]) := by
  rw [lines]
  split
  next read => cases failed.symm.trans read
  next read => cases failed.symm.trans read
  next again =>
    cases failed.symm.trans again
    split
    next => rfl
    next other => cases skipped.symm.trans other
    next other => cases skipped.symm.trans other

theorem lines_of_second_fault {second : ParseFault} (skipped : skipLine after = .failed second) :
    lines places w = ([], [fault, second]) := by
  rw [lines]
  split
  next read => cases failed.symm.trans read
  next read => cases failed.symm.trans read
  next again =>
    cases failed.symm.trans again
    split
    next other => cases skipped.symm.trans other
    next same =>
      cases skipped.symm.trans same
      rfl
    next other => cases skipped.symm.trans other

theorem lines_of_fault {next : Window} (skipped : skipLine after = .resumed next) :
    lines places w = ((lines places next).1, fault :: (lines places next).2) := by
  rw [lines]
  split
  next read => cases failed.symm.trans read
  next read => cases failed.symm.trans read
  next again =>
    cases failed.symm.trans again
    split
    next other => cases skipped.symm.trans other
    next other => cases skipped.symm.trans other
    next same =>
      cases skipped.symm.trans same
      rfl

end Fault

end Lines

end Reading

end CrossAsm
