import CrossAsm.Proofs.ReportLines

/-!
Reading ends, and how soon. Each loop of reading has a twin here that is given a number of rounds and may
run out of them: passing over a line, the labels of a line, and the lines of a text. What a loop uses up is
in the window: a round of the first two takes a token, and a line that another one follows takes a newline
(`newlines_course`), also where the tokens before it were lost to a fault. So a text needs no more lines
than it has newlines, and one.
-/
namespace CrossAsm

open Token (Stream)

namespace Token.Stream

/-- The number of newlines among the tokens of the stream. -/
def newlines (s : Stream) : Nat :=
  s.items.countP fun
    | .ok t => t.kind = .newline
    | .error _ => false

theorem newlines_cons_ok (s : Stream) (t : Token) :
    (s.cons (.ok t)).newlines = s.newlines + if t.kind = .newline then 1 else 0 := by
  simp [newlines, cons, List.countP_cons]

theorem newlines_cons_error (s : Stream) (fault : ScanFault) :
    (s.cons (.error fault)).newlines = s.newlines := by
  simp [newlines, cons]

namespace Traces

variable {source : List Char} {offset : Nat} {s : Stream}

/-- Every newline of the stream is one of the text. -/
theorem newlines_le (traces : Traces source offset s) :
    newlinesBefore source offset + s.newlines ≤ source.count '\n' := by
  have whole : newlinesBefore source source.length = source.count '\n' := by
    rw [newlinesBefore, List.take_length]
  induction traces with
  | ends inside => exact whole ▸ newlinesBefore_le inside
  | stuck order inside => exact whole ▸ newlinesBefore_le (by omega)
  | @item offset start l item rest order line stands made later ih =>
    have stop := stands.newlinesBefore_stop
    cases item with
    | ok t =>
      have same := (Lexeme.token_of_item? made).2.1
      rw [newlines_cons_ok]
      simp only [same]
      omega
    | error fault =>
      rw [newlines_cons_error]
      omega

/-- Every item of the stream has a character of its own. -/
theorem length_le (traces : Traces source offset s) : offset + s.items.length ≤ source.length := by
  induction traces with
  | ends inside => exact inside
  | stuck order inside => exact Nat.le_of_lt (Nat.lt_of_le_of_lt order inside)
  | @item offset start l item rest order line stands made later ih =>
    have some := l.length_pos stands.valid
    simp only [cons, List.length_cons]
    omega

end Traces

end Token.Stream

namespace Window

/-- The number of newlines still to be read. -/
def newlines (w : Window) : Nat := w.upcoming.newlines

theorem pending_eq (w : Window) : w.pending = w.upcoming.items.length := by
  simp only [pending, upcoming, List.length_append, List.length_map]
  omega

theorem newlines_of_take {w after : Window} {token : Option Token} (taken : take w = .ok token after) :
    w.newlines = after.newlines + token.toList.countP (·.kind = .newline) := by
  have same : after.upcoming = _ := upcoming_of_advance (Takes.advance ⟨token, taken⟩) rfl
  rw [newlines, newlines, same, take_eq_current taken]
  cases present : w.current with
  | none => simp [upcoming, present]
  | some t =>
    have split : w.upcoming = ({ w with current := none } : Window).upcoming.cons (.ok t) := by
      simp [upcoming, present, Stream.cons]
    rw [split, Stream.newlines_cons_ok]
    simp [List.countP_singleton]

theorem newlines_of_lost {w after : Window} {fault : ScanFault} (failed : take w = .error fault after) :
    after.newlines ≤ w.newlines := by
  obtain ⟨length, index, current, ahead, items, stuck⟩ := w
  cases items with
  | nil =>
    cases stuck with
    | none => cases failed
    | some offset =>
      cases failed
      simp [newlines, upcoming, Stream.newlines]
  | cons item items =>
    cases item with
    | ok t => cases failed
    | error reason =>
      cases failed
      simp [newlines, upcoming, Stream.newlines]

end Window

namespace Reading

/-- Reading never makes more newlines. -/
theorem newlines_course : Course (fun w after => after.newlines ≤ w.newlines)
    (fun w after => after.newlines ≤ w.newlines) where
  kept_refl _ := Nat.le_refl _
  lost_refl _ := Nat.le_refl _
  kept_trans first second := Nat.le_trans second first
  lost_trans first second := Nat.le_trans second first
  take := by
    constructor
    · intro w token after taken
      rw [Window.newlines_of_take (take_eq_ok taken)]
      exact Nat.le_add_right _ _
    · intro w fault after failed
      obtain ⟨reason, _, failed⟩ := take_eq_error failed
      exact Window.newlines_of_lost failed

theorem newlines_lt_of_take {w after : Window} {t : Token} (taken : take w = .ok (some t) after)
    (ends : t.kind = .newline) : after.newlines < w.newlines := by
  rw [Window.newlines_of_take (take_eq_ok taken)]
  simp [ends]

theorem newlines_lt_of_line {places : LineMap} {w after : Window} {instructions : List Instruction}
    (read : line places w = .ok (instructions, true) after) : after.newlines < w.newlines := by
  have course := newlines_course.line places w
  rw [read] at course
  cases course with
  | ok reached ends =>
    cases ends with
    | newline present taken =>
      have given := take_eq_current taken
      rw [given, present] at taken
      exact Nat.lt_of_lt_of_le (newlines_lt_of_take taken rfl) reached

theorem newlines_le_of_line {places : LineMap} {w after : Window} {fault : ParseFault}
    (failed : line places w = .error fault after) : after.newlines ≤ w.newlines := by
  have course := newlines_course.line places w
  rw [failed] at course
  cases course with
  | error left => exact left

theorem newlines_lt_of_skipLine {w next : Window} (skipped : skipLine w = .resumed next) :
    next.newlines < w.newlines := by
  fun_induction skipLine w with
  | case1 => cases skipped
  | case2 => cases skipped
  | case3 w token after taken ends =>
    cases skipped
    exact newlines_lt_of_take taken ends
  | case4 w token after taken _ ih =>
    exact Nat.lt_of_lt_of_le (ih skipped) (newlines_course.take.ok taken)

/-- Passes over the rest of a line, trying to take at most so many tokens. -/
def skipLineWithin : Nat → Window → Option Skipped
  | 0, _ => none
  | limit + 1, w =>
    match take w with
    | .error fault _ => some (.failed fault)
    | .ok none _ => some .finished
    | .ok (some token) after =>
      if token.kind = .newline then some (.resumed after) else skipLineWithin limit after

theorem skipLineWithin_eq {limit : Nat} {w : Window} (enough : w.pending < limit) :
    skipLineWithin limit w = some (skipLine w) := by
  induction limit generalizing w with
  | zero => exact absurd enough (Nat.not_lt_zero _)
  | succ limit ih =>
    fun_cases skipLine w with
    | case1 fault after failed => simp [skipLineWithin, failed]
    | case2 after taken => simp [skipLineWithin, taken]
    | case3 token after taken ends => simp [skipLineWithin, taken, ends]
    | case4 token after taken inner =>
      have less := take_pending_lt (by simp [← take_eq_current taken]) taken
      have rest : skipLineWithin limit after = some (skipLine after) := ih (by omega)
      simp [skipLineWithin, taken, inner, rest]

/-- Reads a line with at most so many calls of itself, one more for each label that a word follows. -/
def lineWithin (places : LineMap) :
    Nat → Window → Option (EStateM.Result ParseFault Window (List Instruction × Bool))
  | 0, _ => none
  | limit + 1, w =>
    match w.current with
    | none => some (.ok ([], false) w)
    | some ⟨.newline, _⟩ =>
      match take w with
      | .ok _ after => some (.ok ([], true) after)
      | .error fault after => some (.error fault after)
    | some ⟨.word word, span⟩ =>
      let pos := places.position span.start
      match take w with
      | .error fault after => some (.error fault after)
      | .ok _ afterWord =>
        match afterWord.current with
        | some ⟨.punct .colon, _⟩ =>
          match take afterWord with
          | .error fault after => some (.error fault after)
          | .ok _ afterColon =>
            match afterColon.current with
            | some ⟨.word _, _⟩ =>
              match lineWithin places limit afterColon with
              | none => none
              | some (.ok (instructions, more) after) =>
                some (.ok (⟨.label word, pos⟩ :: instructions, more) after)
              | some (.error fault after) => some (.error fault after)
            | _ =>
              match endOfLine afterColon with
              | .ok more after => some (.ok ([⟨.label word, pos⟩], more) after)
              | .error fault after => some (.error fault after)
        | _ => some (instruction pos word span afterWord)
    | some ⟨_, span⟩ => some (.error (.unexpectedToken span .labelOrInstruction) w)

theorem lineWithin_eq {places : LineMap} {limit : Nat} {w : Window} (enough : w.pending < limit) :
    lineWithin places limit w = some (line places w) := by
  induction limit generalizing w with
  | zero => exact absurd enough (Nat.not_lt_zero _)
  | succ limit ih =>
    fun_cases line places w with
    | case1 absent => simp [lineWithin, absent]
    | case2 span present token after taken => simp [lineWithin, present, taken]
    | case3 span present fault after taken => simp [lineWithin, present, taken]
    | case4 word span present fault after taken => simp [lineWithin, present, taken]
    | case5 word span present token afterWord taken _ colon fault after passed =>
      simp [lineWithin, present, taken, colon, passed]
    | case6 word span present pos token afterWord taken _ colon _ afterColon passed _ _ further _ more
        after rest =>
      have first := take_pending_lt (by simp [present]) taken
      have second := take_pending_lt (by simp [colon]) passed
      have nested := ih (w := afterColon) (by omega)
      rw [rest] at nested
      simp [lineWithin, present, taken, colon, passed, further, nested, pos]
    | case7 word span present token afterWord taken _ colon _ afterColon passed _ _ further fault after
        rest =>
      have first := take_pending_lt (by simp [present]) taken
      have second := take_pending_lt (by simp [colon]) passed
      have nested := ih (w := afterColon) (by omega)
      rw [rest] at nested
      simp [lineWithin, present, taken, colon, passed, further, nested]
    | case8 word span present pos token afterWord taken _ colon _ afterColon passed more after ended =>
      simp [lineWithin, present, taken, colon, passed, ended, pos]
    | case9 word span present token afterWord taken _ colon _ afterColon passed fault after ended =>
      simp [lineWithin, present, taken, colon, passed, ended]
    | case10 word span present pos token afterWord taken => simp [lineWithin, present, taken, pos]
    | case11 kind span _ _ present => simp [lineWithin, present]

/-- Reads lines with at most so many calls, each of them and each line passed over within the limit. -/
def linesWithin (places : LineMap) (limit : Nat) :
    Nat → Window → Option (List Instruction × List ParseFault)
  | 0, _ => none
  | calls + 1, w =>
    match lineWithin places limit w with
    | none => none
    | some (.ok (instructions, false) _) => some (instructions, [])
    | some (.ok (instructions, true) after) =>
      (linesWithin places limit calls after).map fun rest => (instructions ++ rest.1, rest.2)
    | some (.error fault after) =>
      match skipLineWithin limit after with
      | none => none
      | some .finished => some ([], [fault])
      | some (.failed second) => some ([], [fault, second])
      | some (.resumed next) =>
        (linesWithin places limit calls next).map fun rest => (rest.1, fault :: rest.2)

/-- A window needs no more calls than it has newlines, and one. -/
theorem linesWithin_eq {places : LineMap} {limit calls : Nat} {w : Window} (counted : w.newlines < calls)
    (enough : w.pending < limit) : linesWithin places limit calls w = some (lines places w) := by
  induction calls generalizing w with
  | zero => exact absurd counted (Nat.not_lt_zero _)
  | succ calls ih =>
    have here : lineWithin places limit w = some (line places w) := lineWithin_eq enough
    have bound := line_pending places w
    fun_cases lines places w with
    | case1 instructions after read =>
      rw [read] at here
      simp [linesWithin, here]
    | case2 instructions after read rest =>
      rw [read] at here bound
      have fewer := newlines_lt_of_line read
      have less := bound rfl
      rw [linesWithin]
      simp [here, ih (w := after) (by omega) (by omega), rest]
    | case3 fault after failed skipped =>
      rw [failed] at here bound
      have passed := skipLineWithin_eq (Nat.lt_of_le_of_lt bound enough)
      rw [skipped] at passed
      simp [linesWithin, here, passed]
    | case4 fault after failed second skipped =>
      rw [failed] at here bound
      have passed := skipLineWithin_eq (Nat.lt_of_le_of_lt bound enough)
      rw [skipped] at passed
      simp [linesWithin, here, passed]
    | case5 fault after failed next skipped rest =>
      rw [failed] at here bound
      have passed := skipLineWithin_eq (Nat.lt_of_le_of_lt bound enough)
      rw [skipped] at passed
      have less := skipLine_pending skipped
      -- a fault takes no newline away from the line, so it is the one passed over that is missing now
      have fewer := Nat.lt_of_lt_of_le (newlines_lt_of_skipLine skipped) (newlines_le_of_line failed)
      dsimp only at bound
      simp [linesWithin, here, passed, ih (w := next) (by omega) (by omega), rest]

/-- After a fault of the scan at most one more fault follows. -/
theorem Ordered.length_after {source : List Char} {line : Nat} {faults before after : List ParseFault}
    {fault : ParseFault} (ordered : Ordered source line faults) (met : faults = before ++ fault :: after)
    (lexical : fault.isLexical) : after.length ≤ 1 := by
  induction ordered generalizing before with
  | nil => simp at met
  | inLine _ own _ _ ih =>
    cases before with
    | nil =>
      cases met
      cases own.symm.trans lexical
    | cons first before =>
      cases met
      exact ih rfl
  | scan | twice =>
    have count := congrArg List.length met
    simp only [List.length_append, List.length_cons, List.length_nil] at count
    omega

end Reading

namespace Program

/-- Reads a source text with at most so many calls for lines, each of them and each line passed over
within the limit. -/
def ofSourceWithin (calls limit : Nat) (name source : String) :
    Option (Except (List Report) (List Instruction)) :=
  match Window.ofChars source.toList with
  | .error fault => some (.error [fault.report name])
  | .ok w =>
    (Reading.linesWithin (.ofChars source.toList) limit calls w).map fun
      | (instructions, []) => .ok instructions
      | (_, faults) => .error (faults.map (ParseFault.report name))

theorem ofSourceWithin_eq (name source : String) :
    ofSourceWithin (source.toList.count '\n' + 1) (source.toList.length + 1) name source =
      some (ofSource name source) := by
  cases opened : Window.ofChars source.toList with
  | error fault =>
    simp only [ofSourceWithin, ofSource_eq, parse, opened]
    rfl
  | ok w =>
    have stands := Window.ofChars_at opened
    have newlines : w.newlines < source.toList.count '\n' + 1 := by
      have bound := stands.traces.newlines_le
      unfold Window.newlines
      omega
    have pending : w.pending < source.toList.length + 1 := by
      have bound := stands.traces.length_le
      rw [w.pending_eq]
      omega
    simp only [ofSourceWithin, ofSource_eq, parse, opened]
    rw [Reading.linesWithin_eq newlines pending]
    generalize Reading.lines (.ofChars source.toList) w = result
    obtain ⟨instructions, faults⟩ := result
    cases faults with
    | nil => rfl
    | cons => rfl

/-- A source text is read to the end with one call for a line more than it has newlines, where no line and
no passing over one takes more rounds than the text has characters, and one. After a report on a part that
makes no token at most one more follows. -/
theorem reading_ends_by_newlines (name source : String) :
    ofSourceWithin (source.toList.count '\n' + 1) (source.toList.length + 1) name source =
      some (ofSource name source) ∧
    ∀ reports, ofSource name source = .error reports →
      ∀ before r after, reports = before ++ r :: after → r.isLexical → after.length ≤ 1 := by
  refine ⟨ofSourceWithin_eq name source, ?_⟩
  intro reports failed before r after met lexical
  obtain ⟨faults, parsed, rfl⟩ := ofSource_eq_error failed
  obtain ⟨first, others, rfl, rfl, rest⟩ := List.map_eq_append_iff.mp met
  obtain ⟨fault, last, rfl, rfl, rfl⟩ := List.map_eq_cons_iff.mp rest
  rw [ParseFault.isLexical_report] at lexical
  rw [List.length_map]
  exact (ordered_of_parse parsed).length_after rfl lexical

/-- The text has no newline, so one call reads it. Its character `$` is reported twice: the second report
is the one that may follow. -/
theorem reading_ends_by_newlines_of_dollar :
    let r := (ScanFault.unexpectedCharacter 8).report "main.ir"
    ofSourceWithin 1 11 "main.ir" "mov r0, $1" = some (.error [r, r]) ∧ r.isLexical ∧ [r].length ≤ 1 := by
  obtain ⟨ended, followed⟩ := reading_ends_by_newlines "main.ir" "mov r0, $1"
  refine ⟨?_, rfl, ?_⟩
  · exact ended.trans (congrArg some ofSource_of_dollar)
  · exact followed _ ofSource_of_dollar [] _ _ rfl rfl

end Program

end CrossAsm
