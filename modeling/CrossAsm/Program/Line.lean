import CrossAsm.Program.Course

/-!
The parser on one line of a source text: it reads the line, or passes over it. A line is read up to its
end or is lost, and on the way there it keeps what every step keeps (`Course.line`). So it leaves at most
what was pending before it, and a line that another one follows leaves less: `line_pending`.
-/
namespace CrossAsm.Reading

/-- Reading never makes more pending. -/
theorem pending_course : Course (fun w after => after.pending ≤ w.pending)
    (fun w after => after.pending ≤ w.pending) where
  kept_refl _ := Nat.le_refl _
  lost_refl _ := Nat.le_refl _
  kept_trans first second := Nat.le_trans second first
  lost_trans first second := Nat.le_trans second first
  take := by
    constructor
    · intro w token after taken
      exact Nat.le_of_add_right_le (Window.take_pending (take_eq_ok taken))
    · intro w fault after failed
      obtain ⟨reason, _, failed⟩ := take_eq_error failed
      exact Nat.le_of_add_right_le (Window.take_error_pending failed)

/-- Taking a token makes less pending. -/
theorem take_pending_lt {w after : Window} {token : Option Token}
    (present : w.current.isSome) (h : take w = .ok token after) : after.pending < w.pending := by
  obtain ⟨now, found⟩ := Option.isSome_iff_exists.mp present
  have bound := Window.take_pending (take_eq_ok h)
  rw [found] at bound
  exact bound

theorem take_eq_current {w after : Window} {token : Option Token} (h : take w = .ok token after) :
    token = w.current :=
  Window.take_eq_current (take_eq_ok h)

/-- The instructions of a line, labels included, and whether another line follows. -/
def line (places : LineMap) : Reading (List Instruction × Bool) := fun w =>
  match _present : w.current with
  | none => .ok ([], false) w
  | some ⟨.newline, _⟩ =>
    match take w with
    | .ok _ after => .ok ([], true) after
    | .error fault after => .error fault after
  | some ⟨.word word, span⟩ =>
    let pos := places.position span.start
    match _taken : take w with
    | .error fault after => .error fault after
    | .ok _ afterWord =>
      match _colon : afterWord.current with
      | some ⟨.punct .colon, _⟩ =>
        match _passed : take afterWord with
        | .error fault after => .error fault after
        | .ok _ afterColon =>
          match afterColon.current with
          | some ⟨.word _, _⟩ =>
            match line places afterColon with
            | .ok (instructions, more) after => .ok (⟨.label word, pos⟩ :: instructions, more) after
            | .error fault after => .error fault after
          | _ =>
            match endOfLine afterColon with
            | .ok more after => .ok ([⟨.label word, pos⟩], more) after
            | .error fault after => .error fault after
      | _ => instruction pos word span afterWord
  | some ⟨_, span⟩ => .error (.unexpectedToken span .labelOrInstruction) w
termination_by w => w.pending
decreasing_by
  have first := take_pending_lt (by simp [_present]) _taken
  have second := take_pending_lt (by simp [_colon]) _passed
  exact Nat.lt_trans second first

/-- The line ends at the window: with a newline, which is taken, or with the text. -/
inductive LineEnd (w : Window) : Bool → Window → Prop
  | newline {span : Span} {token : Option Token} {after : Window}
    (present : w.current = some ⟨.newline, span⟩) (taken : take w = .ok token after) :
    LineEnd w true after
  | text {after : Window} (absent : w.current = none) : LineEnd w false after

theorem lineEnd_of_endOfLine {w after : Window} {more : Bool} (ended : endOfLine w = .ok more after) :
    LineEnd w more after := by
  obtain ⟨token, middle, taken, rest⟩ := bind_eq_ok ended
  have current := take_eq_current taken
  cases token with
  | none =>
    cases rest
    exact .text current.symm
  | some token =>
    obtain ⟨kind, span⟩ := token
    by_cases newline : kind = .newline
    · simp only [newline, if_true] at rest
      cases rest
      exact .newline (current.symm.trans (by rw [newline])) taken
    · simp only [newline, if_false] at rest
      cases rest

/-- What reading a line comes to on a course: it is read up to its end, or it is lost. -/
inductive LineRead (kept lost : Window → Window → Prop) (w : Window) :
    EStateM.Result ParseFault Window (List Instruction × Bool) → Prop
  | ok {last after : Window} {instructions : List Instruction} {more : Bool} (reached : kept w last)
    (ends : LineEnd last more after) : LineRead kept lost w (.ok (instructions, more) after)
  | error {fault : ParseFault} {after : Window} (left : lost w after) :
    LineRead kept lost w (.error fault after)

namespace Course

variable {kept lost : Window → Window → Prop} (course : Course kept lost)
include course

theorem lineRead_of_kept {w middle : Window}
    {result : EStateM.Result ParseFault Window (List Instruction × Bool)} (first : kept w middle)
    (read : LineRead kept lost middle result) : LineRead kept lost w result := by
  cases read with
  | ok reached ends => exact .ok (course.kept_trans first reached) ends
  | error left => exact .error (course.lost_trans first left)

theorem lineRead_instruction (pos : Position) (word : String) (span : Span) (w : Window) :
    LineRead kept lost w (Reading.instruction pos word span w) := by
  cases ran : Reading.instruction pos word span w with
  | error fault after => exact .error ((course.instruction pos word span).error ran)
  | ok result after =>
    unfold Reading.instruction at ran
    cases named : Mnemonic.ofWord? word with
    | none =>
      simp only [named] at ran
      cases ran
    | some m =>
      simp only [named] at ran
      obtain ⟨op, middle, first, rest⟩ := bind_eq_ok ran
      obtain ⟨more, last, ended, given⟩ := bind_eq_ok rest
      cases given
      exact .ok ((course.operation m).ok first) (lineEnd_of_endOfLine ended)

/-- A line goes on as its steps do. -/
theorem line (places : LineMap) (w : Window) : LineRead kept lost w (Reading.line places w) := by
  fun_induction Reading.line places w with
  | case1 w absent => exact .ok (course.kept_refl w) (.text absent)
  | case2 w span present token after taken => exact .ok (course.kept_refl w) (.newline present taken)
  | case3 w span present fault after taken => exact .error (course.take.error taken)
  | case4 w word span present fault after taken => exact .error (course.take.error taken)
  | case5 w word span present token afterWord taken _ colon fault after passed =>
    exact .error (course.lost_trans (course.take.ok taken) (course.take.error passed))
  | case6 w word span present pos token afterWord taken _ colon _ afterColon passed _ _ _ _ more
      after rest ih =>
    rw [rest] at ih
    cases ih with
    | ok reached ends =>
      exact .ok (course.kept_trans (course.take.ok taken)
        (course.kept_trans (course.take.ok passed) reached)) ends
  | case7 w word span present token afterWord taken _ colon _ afterColon passed _ _ _ fault after
      rest ih =>
    rw [rest] at ih
    exact course.lineRead_of_kept (course.take.ok taken)
      (course.lineRead_of_kept (course.take.ok passed) ih)
  | case8 w word span present pos token afterWord taken _ colon _ afterColon passed more after ended =>
    exact .ok (course.kept_trans (course.take.ok taken) (course.take.ok passed))
      (lineEnd_of_endOfLine ended)
  | case9 w word span present token afterWord taken _ colon _ afterColon passed fault after ended =>
    exact .error (course.lost_trans (course.take.ok taken)
      (course.lost_trans (course.take.ok passed) (course.endOfLine.error ended)))
  | case10 w word span present pos token afterWord taken =>
    exact course.lineRead_of_kept (course.take.ok taken) (course.lineRead_instruction pos word span _)
  | case11 w => exact .error (course.lost_refl w)

end Course

/-- A line that another one follows leaves less pending, and one that cannot be read no more. -/
theorem line_pending (places : LineMap) (w : Window) :
    match line places w with
    | .ok (_, more) after => more = true → after.pending < w.pending
    | .error _ after => after.pending ≤ w.pending := by
  have read := pending_course.line places w
  generalize line places w = result at read
  cases read with
  | error left => exact left
  | ok reached ends =>
    intro follows
    cases ends with
    | newline present taken =>
      exact Nat.lt_of_lt_of_le (take_pending_lt (by simp [present]) taken) reached
    | text => cases follows

/-- What passing over the rest of a line comes to. -/
inductive Skipped where
  /-- Another line follows. -/
  | resumed (w : Window)
  | finished
  | failed (fault : ParseFault)
  deriving Repr

/-- Passes over the rest of a line and its end. -/
def skipLine (w : Window) : Skipped :=
  match _taken : take w with
  | .error fault _ => .failed fault
  | .ok none _ => .finished
  | .ok (some token) after => if token.kind = .newline then .resumed after else skipLine after
termination_by w.pending
decreasing_by exact take_pending_lt (by simp [← take_eq_current _taken]) _taken

theorem skipLine_pending {w after : Window} (h : skipLine w = .resumed after) :
    after.pending < w.pending := by
  fun_induction skipLine w with
  | case1 => cases h
  | case2 => cases h
  | case3 w token rest taken ends =>
    cases h
    exact take_pending_lt (by simp [← take_eq_current taken]) taken
  | case4 w token rest taken _ ih =>
    have first := take_pending_lt (by simp [← take_eq_current taken]) taken
    exact Nat.lt_trans (ih h) first

end CrossAsm.Reading
