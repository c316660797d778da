import CrossAsm.Proofs.Faultless
import CrossAsm.Proofs.Harmony
import CrossAsm.Proofs.Lexing
import CrossAsm.Proofs.SourceGrammar

/-!
Where reading fails. As long as no fault is met in the scan, the window stands in the text: what it shows
traces the text from some offset on (`Window.At`). So every fault of a line covers characters of the line
itself, and a fault of the scan lies on this line or on a later one. A fault of the scan leaves a window
that is no longer sound, from which at most one more fault is met.
-/
namespace CrossAsm

open Token (Stream)

namespace ParseFault

/-- The characters that a report of the fault covers. -/
def span : ParseFault → Span
  | scan (.unexpectedCharacter offset) => ⟨offset, offset + 1⟩
  | scan (.invalidNumber span) => span
  | unexpectedToken span _ | unknownMnemonic span _ | invalidOperand span _ => span
  | missingOperand offset => ⟨offset - 1, offset⟩

def isLexical : ParseFault → Bool
  | scan _ => true
  | _ => false

/-- Every report is about one part of the text. -/
theorem report_span (name : String) (fault : ParseFault) :
    (fault.report name).span = fault.span ∧ ∀ l ∈ (fault.report name).labels, l.span = fault.span := by
  cases fault with
  | scan fault => cases fault <;> exact ⟨rfl, by simp [report, ScanFault.report, Report.single, span]⟩
  | missingOperand | unexpectedToken | unknownMnemonic | invalidOperand =>
    exact ⟨rfl, by simp [report, Report.unexpectedToken, Report.unexpectedEnd, Report.single, span]⟩

/-- The fault covers some characters of the text, and starts after so many newlines. -/
structure Marks (source : List Char) (line : Nat) (fault : ParseFault) : Prop where
  order : fault.span.start < fault.span.stop
  inside : fault.span.stop ≤ source.length
  line : newlinesBefore source fault.span.start = line

end ParseFault

/-- The token stands in the text at its span, with no newline between an offset and its start. -/
structure Token.StandsAfter (source : List Char) (offset : Nat) (t : Token) : Prop where
  after : offset ≤ t.span.start
  order : t.span.start < t.span.stop
  inside : t.span.stop ≤ source.length
  line : newlinesBefore source t.span.start = newlinesBefore source offset
  stop : newlinesBefore source t.span.stop =
    newlinesBefore source offset + if t.kind = .newline then 1 else 0

namespace Token.Stream.Traces

variable {source : List Char} {offset : Nat} {s rest : Stream}

theorem exists_of_cons {item : Except ScanFault Token} (traces : Traces source offset (s.cons item)) :
    ∃ (start : Nat) (l : Lexeme), offset ≤ start ∧
      newlinesBefore source start = newlinesBefore source offset ∧ l.StandsAt source start ∧
      l.item? start = some item ∧ Traces source (start + l.chars.length) s := by
  obtain ⟨items, stuck⟩ := s
  generalize whole : cons item ⟨items, stuck⟩ = t at traces
  cases traces with
  | ends | stuck => cases whole
  | @item _ _ _ _ later order line stands made traces =>
    cases later
    cases whole
    exact ⟨_, _, order, line, stands, made, traces⟩

theorem token {t : Token} (traces : Traces source offset (s.cons (.ok t))) :
    t.StandsAfter source offset ∧ Traces source t.span.stop s := by
  obtain ⟨start, l, order, line, stands, made, later⟩ := traces.exists_of_cons
  obtain ⟨span, newline, _⟩ := Lexeme.token_of_item? made
  have some := l.length_pos stands.valid
  have stop := stands.newlinesBefore_stop
  simp only [← newline] at stop
  refine ⟨⟨?_, ?_, ?_, ?_, ?_⟩, ?_⟩
  · rw [span]
    exact order
  · rw [span]
    exact Nat.lt_add_of_pos_right some
  · rw [span]
    exact stands.stop_le
  · rw [span]
    exact line
  · rw [span, stop, line]
  · rw [span]
    exact later

/-- A fault is met where the text goes on, and the scan does not leave its line with it. -/
theorem pull_error {fault : ScanFault} (traces : Traces source offset s)
    (pulled : s.pull = (.error fault, rest)) :
    (ParseFault.scan fault).Marks source (newlinesBefore source offset) ∧
      ∃ further, Traces source further rest ∧
        newlinesBefore source further = newlinesBefore source offset := by
  cases traces with
  | ends => cases pulled
  | stuck order inside line =>
    cases pulled
    exact ⟨⟨Nat.lt_succ_self _, inside, line⟩, offset, .stuck order inside line, rfl⟩
  | @item _ start l item later order line stands made traces =>
    cases item with
    | ok t => cases pulled
    | error reason =>
      cases pulled
      obtain ⟨rfl, inner⟩ := Lexeme.fault_of_item? made
      have some := l.length_pos stands.valid
      have stop := stands.newlinesBefore_stop
      rw [if_neg inner, Nat.add_zero, line] at stop
      exact ⟨⟨Nat.lt_add_of_pos_right some, stands.stop_le, line⟩, _, traces, stop⟩

end Token.Stream.Traces

namespace Window

/-- What is still to be read. -/
def upcoming (w : Window) : Stream :=
  ⟨(w.current.toList ++ w.ahead.toList).map .ok ++ w.rest.items, w.rest.stuck⟩

/-- The window stands in the text at an offset. -/
structure At (source : List Char) (offset : Nat) (w : Window) : Prop where
  length : w.length = source.length
  traces : Stream.Traces source offset w.upcoming
  settled : w.Settled

/-- A fault has been met; what is left of the text starts after so many newlines, or more. -/
structure Broken (source : List Char) (line : Nat) (w : Window) : Prop where
  ahead : w.ahead = none
  rest : ∃ offset, Stream.Traces source offset w.rest ∧ line ≤ newlinesBefore source offset

section Advance

variable {w after : Window}

theorem upcoming_of_advance (moved : advance w = .ok () after) (absent : w.current = none) :
    after.upcoming = w.upcoming := by
  obtain ⟨next, ⟨t, ahead, rest⟩ | ⟨ahead, ended, rest⟩⟩ := advance_eq_ok moved
  · unfold upcoming
    rw [next, ahead, rest, absent]
    simp [Stream.cons]
  · unfold upcoming
    rw [next, ahead, ended, rest, absent]
    simp

theorem advance_eq_error {fault : ScanFault} (failed : advance w = .error fault after) :
    w.rest.pull = (.error fault, after.rest) ∧ after.ahead = none := by
  unfold advance at failed
  split at failed
  next outcome rest pulled =>
    cases outcome with
    | ok token => cases failed
    | error reason =>
      cases failed
      exact ⟨pulled, rfl⟩

theorem take_eq_error {fault : ScanFault} (failed : take w = .error fault after) :
    w.rest.pull = (.error fault, after.rest) ∧ after.ahead = none := by
  unfold take at failed
  split at failed
  next => cases failed
  next lost =>
    cases failed
    exact advance_eq_error lost

/-- A fault that is met when a token is taken. -/
theorem lost_of_traces {source : List Char} {offset : Nat} {fault : ParseFault}
    (traces : Stream.Traces source offset w.rest) (failed : Reading.take w = .error fault after) :
    fault.isLexical ∧ fault.Marks source (newlinesBefore source offset) ∧
      after.Broken source (newlinesBefore source offset) := by
  obtain ⟨reason, rfl, lost⟩ := Reading.take_eq_error failed
  obtain ⟨pulled, ahead⟩ := take_eq_error lost
  obtain ⟨marks, further, left, line⟩ := traces.pull_error pulled
  exact ⟨rfl, marks, ahead, further, left, Nat.le_of_eq line.symm⟩

end Advance

namespace At

variable {source : List Char} {offset : Nat} {w after : Window} (here : w.At source offset)
include here

theorem current {t : Token} (present : w.current = some t) : t.StandsAfter source offset := by
  have traces := here.traces
  unfold upcoming at traces
  rw [present] at traces
  exact (Stream.Traces.token (s := ⟨_, _⟩) traces).1

/-- The current token starts on the line of the offset; if there is none, the text ends there. -/
theorem start : offset ≤ w.start ∧ w.start ≤ source.length ∧
    newlinesBefore source w.start = newlinesBefore source offset := by
  unfold Window.start
  cases present : w.current with
  | some t =>
    have token := here.current present
    exact ⟨token.after, Nat.le_of_lt (Nat.lt_of_lt_of_le token.order token.inside), token.line⟩
  | none =>
    have traces := here.traces
    have ahead := here.settled.current present
    unfold upcoming at traces
    rw [present, ahead, here.settled.ahead ahead] at traces
    cases traces with
    | ends inside last =>
      simp only [Option.map_none, Option.getD_none, here.length]
      exact ⟨inside, Nat.le_refl _, last⟩

theorem rest : ∃ further, offset ≤ further ∧ Stream.Traces source further w.rest := by
  have traces := here.traces
  unfold upcoming at traces
  cases present : w.current with
  | none =>
    rw [present, here.settled.current present] at traces
    exact ⟨offset, Nat.le_refl _, traces⟩
  | some t =>
    rw [present] at traces
    have first := Stream.Traces.token (s := ⟨_, _⟩) traces
    have order := first.1.order
    have after := first.1.after
    cases next : w.ahead with
    | none =>
      rw [next] at first
      exact ⟨t.span.stop, by omega, first.2⟩
    | some u =>
      rw [next] at first
      have second := Stream.Traces.token (s := ⟨_, _⟩) first.2
      have order' := second.1.order
      have after' := second.1.after
      exact ⟨u.span.stop, by omega, second.2⟩

theorem take {t : Token} {token : Option Token} (present : w.current = some t)
    (taken : Reading.take w = .ok token after) : after.At source t.span.stop := by
  have taken := Reading.take_eq_ok taken
  have moved := Takes.advance ⟨token, taken⟩
  have kept := upcoming_of_advance moved rfl
  have traces := here.traces
  have split : w.upcoming = ({ w with current := none } : Window).upcoming.cons (.ok t) := by
    unfold upcoming
    rw [present]
    rfl
  rw [split, ← kept] at traces
  exact ⟨(length_take taken).trans here.length, traces.token.2, settled_of_advance here.settled.ahead moved⟩

theorem take_error {fault : ParseFault} (failed : Reading.take w = .error fault after) :
    ∃ line, newlinesBefore source offset ≤ line ∧ fault.Marks source line ∧ fault.isLexical ∧
      after.Broken source line := by
  obtain ⟨further, order, traces⟩ := here.rest
  obtain ⟨lexical, marks, broken⟩ := lost_of_traces traces failed
  exact ⟨_, newlinesBefore_le order, marks, lexical, broken⟩

end At

theorem ofChars_at {source : List Char} {w : Window} (opened : ofChars source = .ok w) :
    w.At source 0 := by
  have settled := (ofChars_eq_ok opened).1
  have length := length_of_ofChars opened
  unfold ofChars at opened
  split at opened
  next moved =>
    cases opened
    obtain ⟨middle, first, second⟩ := advanceTwice_eq_ok moved
    have absent := (advance_eq_ok first).1
    have traces := Stream.traces_ofChars source
    refine ⟨length, ?_, settled⟩
    rw [upcoming_of_advance second absent, upcoming_of_advance first rfl]
    exact traces
  next => cases opened

theorem ofChars_error {source : List Char} {fault : ScanFault} (failed : ofChars source = .error fault) :
    ∃ line, (ParseFault.scan fault).Marks source line := by
  have traces := Stream.traces_ofChars source
  unfold ofChars advanceTwice at failed
  split at failed
  next => cases failed
  next after lost =>
    cases failed
    change EStateM.bind advance (fun _ => advance) _ = _ at lost
    unfold EStateM.bind at lost
    split at lost
    next middle first =>
      obtain ⟨pulled, _⟩ := advance_eq_error lost
      obtain ⟨_, ⟨t, _, rest⟩ | ⟨_, ended, _⟩⟩ := advance_eq_ok first
      · dsimp only at rest
        rw [rest] at traces
        exact ⟨_, (traces.token.2.pull_error pulled).1⟩
      · rw [ended] at pulled
        cases pulled
    next first =>
      cases lost
      exact ⟨_, (traces.pull_error (advance_eq_error first).1).1⟩

end Window

namespace Reading

open Window (At Broken)

variable {source : List Char} {offset : Nat} {places : LineMap}

/-- The window stands in the line after so many newlines. If it stands there after something that has been
read, then the character before it belongs to the line. -/
def InLine (source : List Char) (line : Nat) (begun : Bool) (w : Window) : Prop :=
  ∃ offset, w.At source offset ∧ newlinesBefore source offset = line ∧
    (begun = true → 0 < offset ∧ newlinesBefore source (offset - 1) = line)

/-- What a line leaves when it cannot be read: a fault of its own, and the window somewhere in the line, or
a fault of the scan on this line or a later one. -/
inductive Lost (source : List Char) (line : Nat) : ParseFault → Window → Prop
  | inLine {fault : ParseFault} {after : Window} (own : fault.isLexical = false)
    (marks : fault.Marks source line) (left : InLine source line false after) :
    Lost source line fault after
  | scan {fault : ParseFault} {after : Window} {later : Nat} (lexical : fault.isLexical)
    (order : line ≤ later) (marks : fault.Marks source later) (broken : after.Broken source later) :
    Lost source line fault after

namespace InLine

variable {line : Nat} {begun : Bool} {w after : Window} {t : Token}

theorem marks (here : InLine source line begun w) (present : w.current = some t) :
    t.span.start < t.span.stop ∧ t.span.stop ≤ source.length ∧
      newlinesBefore source t.span.start = line := by
  obtain ⟨offset, stands, same, _⟩ := here
  have token := stands.current present
  exact ⟨token.order, token.inside, token.line.trans same⟩

/-- The window after a token of the line. -/
theorem take {token : Option Token} (here : InLine source line begun w) (present : w.current = some t)
    (inner : t.kind ≠ .newline) (taken : Reading.take w = .ok token after) :
    InLine source line true after := by
  obtain ⟨offset, stands, same, _⟩ := here
  obtain ⟨before, order, inside, first, last⟩ := stands.current present
  rw [if_neg inner, Nat.add_zero, same] at last
  rw [same] at first
  -- the last character of the token lies between its start and its end
  have low : newlinesBefore source t.span.start ≤ newlinesBefore source (t.span.stop - 1) :=
    newlinesBefore_le (by omega)
  have high : newlinesBefore source (t.span.stop - 1) ≤ newlinesBefore source t.span.stop :=
    newlinesBefore_le (by omega)
  exact ⟨t.span.stop, stands.take present taken, last, fun _ => ⟨by omega, by omega⟩⟩

theorem weaken (here : InLine source line begun w) : InLine source line false w := by
  obtain ⟨offset, stands, same, _⟩ := here
  exact ⟨offset, stands, same, by simp⟩

theorem refused {fault fault' : ParseFault} {further : Bool} (here : InLine source line begun w)
    (present : w.current = some t) (refuses : Refuses t.span t.span fault fault')
    (left : InLine source line further after) : Lost source line fault after := by
  obtain ⟨order, inside, same⟩ := here.marks present
  cases refuses with
  | unexpectedToken | unknownMnemonic | invalidOperand =>
    exact .inLine rfl ⟨order, inside, same⟩ left.weaken

/-- An operand is missing at the end of the line. -/
theorem missing (here : InLine source line true w) : Lost source line (.missingOperand w.start) w := by
  obtain ⟨offset, stands, same, begun⟩ := id here
  obtain ⟨some, before⟩ := begun rfl
  obtain ⟨order, inside, line⟩ := stands.start
  have low : newlinesBefore source (offset - 1) ≤ newlinesBefore source (w.start - 1) :=
    newlinesBefore_le (by omega)
  have high : newlinesBefore source (w.start - 1) ≤ newlinesBefore source w.start :=
    newlinesBefore_le (by omega)
  exact .inLine rfl ⟨by simp only [ParseFault.span]; omega, inside, by simp only [ParseFault.span]; omega⟩
    here.weaken

theorem lost {fault : ParseFault} (here : InLine source line begun w)
    (failed : Reading.take w = .error fault after) : Lost source line fault after := by
  obtain ⟨offset, stands, same, _⟩ := here
  obtain ⟨later, order, marks, lexical, broken⟩ := stands.take_error failed
  exact .scan lexical (same ▸ order) marks broken

/-- The window after the end of the line. -/
theorem next {token : Option Token} (here : InLine source line begun w) (present : w.current = some t)
    (newline : t.kind = .newline) (taken : Reading.take w = .ok token after) :
    InLine source (line + 1) false after := by
  obtain ⟨offset, stands, same, _⟩ := here
  have last := (stands.current present).stop
  rw [if_pos newline, same] at last
  exact ⟨t.span.stop, stands.take present taken, last, by simp⟩

end InLine

theorem endOfLine_places {line : Nat} {begun : Bool} {w : Window} (here : InLine source line begun w)
    (ends : w.AtEnd) :
    Alike (fun more after _ _ => more = true → InLine source (line + 1) false after)
      (fun fault after _ _ => Lost source line fault after) (endOfLine w) (endOfLine w) := by
  cases taken : take w with
  | error fault after =>
    have failed : endOfLine w = .error fault after := by
      unfold endOfLine
      simp only [bind, EStateM.bind, taken]
    rw [failed]
    exact .error (here.lost taken)
  | ok token after =>
    cases present : w.current with
    | none =>
      have ended : endOfLine w = .ok false after := by
        unfold endOfLine
        simp only [bind, EStateM.bind, taken, take_eq_current taken, present]
        rfl
      rw [ended]
      exact .ok (by simp)
    | some t =>
      have newline := ends t present
      have ended : endOfLine w = .ok true after := by
        unfold endOfLine
        simp only [bind, EStateM.bind, taken, take_eq_current taken, present, newline, if_true]
        rfl
      rw [ended]
      exact .ok fun _ => here.next present newline taken

theorem line_of_lost_newline {w after : Window} {span : Span} {fault : ParseFault}
    (current : w.current = some ⟨.newline, span⟩) (failed : take w = .error fault after) :
    line places w = .error fault after := by
  rw [line]
  split
  next absent => cases current.symm.trans absent
  next => rw [failed]
  next present => cases current.symm.trans present
  next notNewline _ present =>
    cases current.symm.trans present
    exact absurd rfl notNewline

theorem blank_places {line : Nat} {begun : Bool} {w : Window} (here : InLine source line begun w)
    (ends : w.AtEnd) :
    Alike (fun r after r' _ => r.1 = [] ∧ r'.1 = [] ∧ (r.2 = true → InLine source (line + 1) false after))
      (fun fault after _ _ => Lost source line fault after) (Reading.line places w)
      (Reading.line places w) := by
  cases present : w.current with
  | none =>
    rw [line_of_none present]
    exact .ok ⟨rfl, rfl, by simp⟩
  | some t =>
    obtain ⟨kind, span⟩ := t
    cases ends _ present
    cases taken : take w with
    | error fault after =>
      rw [line_of_lost_newline present taken]
      exact .error (here.lost taken)
    | ok token after =>
      rw [line_of_newline present taken]
      exact .ok ⟨rfl, rfl, fun _ => here.next present rfl taken⟩

/-- A window in a line, taken with itself. -/
theorem inLine_harmony (source : List Char) (places : LineMap) (line : Nat) :
    Harmony places places id (fun begun w w' => w' = w ∧ InLine source line begun w)
      (fun after _ => InLine source (line + 1) false after)
      (fun fault after _ _ => Lost source line fault after) where
  weaken := by
    intro w w' here
    exact ⟨here.1, here.2.weaken⟩
  view := by
    intro begun w w' here
    obtain ⟨rfl, _⟩ := here
    by_cases ends : w'.AtEnd
    · exact .inl ⟨ends, ends⟩
    · obtain ⟨t, inner⟩ := Classical.not_forall.mp ends
      obtain ⟨present, inner⟩ := Classical.not_imp.mp inner
      exact .inr ⟨t, t, present, present, rfl, inner⟩
  placed := by
    intro begun w w' t t' here present present' _
    obtain ⟨rfl, _⟩ := here
    cases present.symm.trans present'
    rfl
  refuse := by
    intro begun w w' t t' fault fault' here present present' inner refuses
    obtain ⟨rfl, stands⟩ := here
    cases present.symm.trans present'
    exact stands.refused present refuses stands
  take := by
    intro begun w w' t t' here present present' inner
    obtain ⟨rfl, stands⟩ := here
    cases present.symm.trans present'
    cases taken : take w' with
    | error fault after => exact .error (stands.lost taken)
    | ok token after =>
      have left := stands.take present inner taken
      exact .ok ⟨⟨rfl, left⟩, fun fault fault' refuses => stands.refused present refuses left⟩
  missing := by
    intro w w' here ends
    exact here.2.missing
  finish := by
    intro w w' here ends
    obtain ⟨rfl, stands⟩ := here
    exact endOfLine_places stands ends
  blank := by
    intro begun w w' here ends
    obtain ⟨rfl, stands⟩ := here
    exact blank_places stands ends

section Lines

variable {line : Nat} {w : Window}

/-- A line that is read leads to the next one, and a line that is not leaves a fault in its place. -/
theorem line_places (here : InLine source line false w) :
    (∀ instructions after, Reading.line places w = .ok (instructions, true) after →
      InLine source (line + 1) false after) ∧
    ∀ fault after, Reading.line places w = .error fault after → Lost source line fault after := by
  have read := (inLine_harmony source places line).line ⟨rfl, here⟩
  generalize Reading.line places w = result at read
  cases read with
  | ok related =>
    refine ⟨?_, by simp⟩
    intro instructions after same
    cases same
    exact related.2 rfl
  | error related =>
    refine ⟨by simp, ?_⟩
    intro fault after same
    cases same
    exact related

/-- Passing over a line leads to the next one, or to a fault of the scan on this line or a later one. -/
theorem skipLine_places (here : InLine source line false w) :
    (∀ next, skipLine w = .resumed next → InLine source (line + 1) false next) ∧
    ∀ fault, skipLine w = .failed fault →
      ∃ later, line ≤ later ∧ fault.Marks source later ∧ fault.isLexical := by
  fun_induction skipLine w with
  | case1 w fault after failed =>
    refine ⟨by simp, ?_⟩
    intro other same
    cases same
    obtain ⟨offset, stands, rfl, _⟩ := here
    obtain ⟨later, order, marks, lexical, _⟩ := stands.take_error failed
    exact ⟨later, order, marks, lexical⟩
  | case2 => exact ⟨by simp, by simp⟩
  | case3 w token after taken ends =>
    refine ⟨?_, by simp⟩
    intro next same
    cases same
    exact here.next (take_eq_current taken).symm ends taken
  | case4 w token after taken inner ih =>
    exact ih (here.take (take_eq_current taken).symm inner taken).weaken

/-- Where nothing is shown, passing over the line meets at most a fault of the scan. -/
theorem skipLine_of_none (absent : w.current = none) {offset : Nat}
    (traces : Stream.Traces source offset w.rest) :
    (∀ next, skipLine w ≠ .resumed next) ∧
    ∀ fault, skipLine w = .failed fault →
      fault.Marks source (newlinesBefore source offset) ∧ fault.isLexical := by
  rw [skipLine]
  split
  next fault after failed =>
    obtain ⟨lexical, marks, _⟩ := Window.lost_of_traces traces failed
    refine ⟨by simp, ?_⟩
    intro other same
    cases same
    exact ⟨marks, lexical⟩
  next => exact ⟨by simp, by simp⟩
  next taken => cases (take_eq_current taken).trans absent

/-- After a fault of the scan, passing over the line meets at most one more, not on an earlier line, and
nothing is read any more. -/
theorem skipLine_broken (broken : w.Broken source line) :
    (∀ next, skipLine w = .resumed next → next.current = none) ∧
    ∀ fault, skipLine w = .failed fault →
      ∃ later, line ≤ later ∧ fault.Marks source later ∧ fault.isLexical := by
  obtain ⟨ahead, offset, traces, order⟩ := broken
  rw [skipLine]
  split
  next fault after failed =>
    obtain ⟨lexical, marks, _⟩ := Window.lost_of_traces traces failed
    refine ⟨by simp, ?_⟩
    intro other same
    cases same
    exact ⟨_, order, marks, lexical⟩
  next => exact ⟨by simp, by simp⟩
  next token after taken =>
    have moved := Window.Takes.advance ⟨_, take_eq_ok taken⟩
    have absent : after.current = none := (Window.advance_eq_ok moved).1.trans ahead
    obtain ⟨further, left, later⟩ : ∃ further, Stream.Traces source further after.rest ∧
        newlinesBefore source offset ≤ newlinesBefore source further := by
      obtain ⟨_, ⟨t, _, rest⟩ | ⟨_, ended, rest⟩⟩ := Window.advance_eq_ok moved
      · dsimp only at rest
        rw [rest] at traces
        have reached := traces.token.1
        have stop := reached.order
        have start := reached.after
        exact ⟨t.span.stop, traces.token.2, newlinesBefore_le (by omega)⟩
      · dsimp only at rest
        rw [ended, ← rest]
        exact ⟨offset, traces, Nat.le_refl _⟩
    obtain ⟨unresumed, failed⟩ := skipLine_of_none absent left
    split
    next =>
      refine ⟨?_, by simp⟩
      intro next same
      cases same
      exact absent
    next =>
      refine ⟨?_, ?_⟩
      · intro next same
        exact absurd same (unresumed next)
      · intro fault same
        obtain ⟨marks, lexical⟩ := failed fault same
        exact ⟨_, Nat.le_trans order later, marks, lexical⟩

/-- The faults of a text from some line on: one for each line that cannot be read, in order, up to a fault of
the scan. That one may be met twice, or after a fault of its own line. -/
inductive Ordered (source : List Char) : Nat → List ParseFault → Prop
  | nil {line : Nat} : Ordered source line []
  | inLine {line here : Nat} {fault : ParseFault} {faults : List ParseFault} (order : line ≤ here)
    (own : fault.isLexical = false) (marks : fault.Marks source here)
    (later : Ordered source (here + 1) faults) : Ordered source line (fault :: faults)
  | scan {line here : Nat} {fault : ParseFault} (order : line ≤ here) (lexical : fault.isLexical)
    (marks : fault.Marks source here) : Ordered source line [fault]
  | twice {line here further : Nat} {fault second : ParseFault} (order : line ≤ here)
    (marks : fault.Marks source here) (later : here ≤ further) (again : second.Marks source further)
    (lexical : second.isLexical) : Ordered source line [fault, second]

theorem Ordered.weaken {earlier : Nat} {faults : List ParseFault} (before : earlier ≤ line)
    (ordered : Ordered source line faults) : Ordered source earlier faults := by
  cases ordered with
  | nil => exact .nil
  | inLine order own marks later => exact .inLine (Nat.le_trans before order) own marks later
  | scan order lexical marks => exact .scan (Nat.le_trans before order) lexical marks
  | twice order marks later again lexical =>
    exact .twice (Nat.le_trans before order) marks later again lexical

/-- The faults of all lines from a window on. -/
theorem ordered_lines (source : List Char) (places : LineMap) (w : Window) :
    ∀ line, InLine source line false w → Ordered source line (lines places w).2 := by
  fun_induction lines places w with
  | case1 =>
    intro line here
    exact .nil
  | case2 w instructions after read _ ih =>
    intro line here
    have further := ih (line + 1) ((line_places here).1 instructions after read)
    exact further.weaken (Nat.le_succ line)
  | case3 w fault after failed =>
    intro line here
    cases (line_places here).2 fault after failed with
    | inLine own marks => exact .inLine (Nat.le_refl line) own marks .nil
    | scan lexical order marks => exact .scan order lexical marks
  | case4 w fault after failed second skipped =>
    intro line here
    cases (line_places here).2 fault after failed with
    | inLine _ marks left =>
      obtain ⟨later, order, again, lexical⟩ := (skipLine_places left).2 second skipped
      exact .twice (Nat.le_refl line) marks order again lexical
    | scan _ order marks broken =>
      obtain ⟨later, further, again, lexical⟩ := (skipLine_broken broken).2 second skipped
      exact .twice order marks further again lexical
  | case5 w fault after failed next skipped rest ih =>
    intro line here
    cases (line_places here).2 fault after failed with
    | inLine own marks left =>
      have resumed := (skipLine_places left).1 next skipped
      exact .inLine (Nat.le_refl line) own marks (ih (line + 1) resumed)
    | scan lexical order marks broken =>
      have absent := (skipLine_broken broken).1 next skipped
      have ended : rest = ([], []) := lines_of_last_line (line_of_none absent)
      rw [ended]
      exact .scan order lexical marks

end Lines

end Reading

namespace Program

variable {source : List Char} {faults : List ParseFault}

/-- The faults of a source text are in order. -/
theorem ordered_of_parse (failed : parse source = .error faults) : Reading.Ordered source 0 faults := by
  unfold parse at failed
  split at failed
  next fault unopened =>
    cases failed
    obtain ⟨line, marks⟩ := Window.ofChars_error unopened
    exact .scan (Nat.zero_le line) rfl marks
  next w opened =>
    have here : Reading.InLine source 0 false w :=
      ⟨0, Window.ofChars_at opened, by simp [newlinesBefore], by simp⟩
    have ordered : Reading.Ordered source 0 (Reading.lines (.ofChars source) w).2 :=
      Reading.ordered_lines source _ w 0 here
    split at failed
    next => cases failed
    next result some read =>
      cases failed
      rw [read] at ordered
      exact ordered

end Program

end CrossAsm
