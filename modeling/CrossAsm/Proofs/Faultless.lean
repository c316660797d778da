import CrossAsm.Proofs.Reading
import Mathlib.Logic.Relation

/-!
A source text is read as a whole or not at all. A step of reading that succeeds has only taken tokens
(`reaching_course`), and the last line ends where no token is left; so whoever reads a program has met
every token of its text. The main statement is `faultless_of_parse`: the text was scanned without fault.
-/
namespace CrossAsm

/-- The scan got to the end of the text and met no fault. -/
def Token.Stream.Faultless (s : Token.Stream) : Prop := ∃ tokens : List Token, s = ⟨tokens.map .ok, none⟩

theorem Token.Stream.Faultless.cons {s : Token.Stream} (faultless : s.Faultless) (t : Token) :
    (s.cons (.ok t)).Faultless := by
  obtain ⟨tokens, rfl⟩ := faultless
  exact ⟨t :: tokens, rfl⟩

namespace Window

def Takes (w after : Window) : Prop := ∃ token, take w = .ok token after

/-- The second window is what the first one becomes when tokens are taken. -/
def Reaches : Window → Window → Prop := Relation.ReflTransGen Takes

/-- Where no token stands in the window, there is none left to read. -/
structure Settled (w : Window) : Prop where
  current : w.current = none → w.ahead = none
  ahead : w.ahead = none → w.rest = ⟨[], none⟩

theorem Settled.faultless {w : Window} (settled : w.Settled) (absent : w.current = none) :
    w.rest.Faultless :=
  ⟨[], settled.ahead (settled.current absent)⟩

/-- Moving on brings the next token into the window, unless the end was reached before. -/
theorem advance_eq_ok {w after : Window} (moved : advance w = .ok () after) :
    after.current = w.ahead ∧
      ((∃ t, after.ahead = some t ∧ w.rest = after.rest.cons (.ok t)) ∨
        after.ahead = none ∧ after.rest = ⟨[], none⟩ ∧ w.rest = ⟨[], none⟩) := by
  obtain ⟨length, index, current, ahead, items, stuck⟩ := w
  cases items with
  | nil =>
    cases stuck with
    | none =>
      cases moved
      exact ⟨rfl, .inr ⟨rfl, rfl, rfl⟩⟩
    | some offset => cases moved
  | cons item items =>
    cases item with
    | error fault => cases moved
    | ok t =>
      cases moved
      exact ⟨rfl, .inl ⟨t, rfl, rfl⟩⟩

theorem faultless_of_advance {w after : Window} (moved : advance w = .ok () after)
    (faultless : after.rest.Faultless) : w.rest.Faultless := by
  obtain ⟨_, ⟨t, _, pulled⟩ | ⟨_, _, ended⟩⟩ := advance_eq_ok moved
  · rw [pulled]
    exact faultless.cons t
  · exact ⟨[], ended⟩

theorem ahead_of_advance {w after : Window} (moved : advance w = .ok () after)
    (absent : after.ahead = none) : w.rest = ⟨[], none⟩ ∧ after.rest = ⟨[], none⟩ := by
  obtain ⟨_, ⟨t, present, _⟩ | ⟨_, there, before⟩⟩ := advance_eq_ok moved
  · cases absent.symm.trans present
  · exact ⟨before, there⟩

/-- Moving on from where nothing is missing ahead. -/
theorem settled_of_advance {w after : Window} (ready : w.ahead = none → w.rest = ⟨[], none⟩)
    (moved : advance w = .ok () after) : after.Settled where
  ahead absent := (ahead_of_advance moved absent).2
  current absent := by
    obtain ⟨next, ⟨t, _, pulled⟩ | ⟨none, _⟩⟩ := advance_eq_ok moved
    · rw [ready (next ▸ absent)] at pulled
      cases pulled
    · exact none

theorem Takes.advance {w after : Window} (takes : w.Takes after) :
    advance { w with current := none } = .ok () after := by
  obtain ⟨token, taken⟩ := takes
  unfold take at taken
  split at taken
  next moved =>
    cases taken
    exact moved
  next => cases taken

theorem Reaches.settled {w after : Window} (reaches : w.Reaches after) (settled : w.Settled) :
    after.Settled := by
  induction reaches with
  | refl => exact settled
  | tail _ takes ih => exact settled_of_advance ih.ahead takes.advance

theorem Reaches.faultless {w after : Window} (reaches : w.Reaches after)
    (faultless : after.rest.Faultless) : w.rest.Faultless := by
  induction reaches with
  | refl => exact faultless
  | tail _ takes ih => exact ih (faultless_of_advance takes.advance faultless)

theorem advanceTwice_eq_ok {w after : Window} (moved : advanceTwice w = .ok () after) :
    ∃ middle, advance w = .ok () middle ∧ advance middle = .ok () after := by
  change EStateM.bind advance (fun _ => advance) w = .ok () after at moved
  unfold EStateM.bind at moved
  split at moved
  next middle first => exact ⟨middle, first, moved⟩
  next => cases moved

theorem ofChars_eq_ok {source : List Char} {w : Window} (opened : ofChars source = .ok w) :
    w.Settled ∧ (w.rest.Faultless → (Token.Stream.ofChars source).Faultless) := by
  unfold ofChars at opened
  split at opened
  next moved =>
    cases opened
    obtain ⟨middle, first, second⟩ := advanceTwice_eq_ok moved
    refine ⟨settled_of_advance (fun absent => (ahead_of_advance first absent).2) second, ?_⟩
    intro faultless
    exact faultless_of_advance first (faultless_of_advance second faultless)
  next => cases opened

end Window

namespace Reading

open Window (Reaches)

/-- A step that succeeds has done nothing but take tokens. -/
theorem reaching_course : Course Reaches fun _ _ => True where
  kept_refl _ := .refl
  lost_refl _ := trivial
  kept_trans first second := first.trans second
  lost_trans _ _ := trivial
  take := by
    constructor
    · intro w token after taken
      exact .single ⟨token, take_eq_ok taken⟩
    · intros
      trivial

/-- Without a fault, reading goes on until no token is left. -/
theorem exists_reaches_of_lines {places : LineMap} {w : Window} (read : (lines places w).2 = []) :
    ∃ last, Reaches w last ∧ last.current = none := by
  fun_induction lines places w with
  | case1 w _ after here =>
    have ended := reaching_course.line places w
    rw [here] at ended
    cases ended with
    | ok reached ends =>
      cases ends with
      | text absent => exact ⟨_, reached, absent⟩
  | case2 w _ after here _ ih =>
    have ended := reaching_course.line places w
    obtain ⟨last, reaches, absent⟩ := ih read
    rw [here] at ended
    cases ended with
    | ok reached ends =>
      cases ends with
      | newline _ taken =>
        exact ⟨last, reached.trans (.head ⟨_, take_eq_ok taken⟩ reaches), absent⟩
  | case3 => cases read
  | case4 => cases read
  | case5 => cases read

end Reading

/-- A source text that holds a program is scanned without fault. -/
theorem Program.faultless_of_parse {source : List Char} {program : List Instruction}
    (parsed : parse source = .ok program) : (Token.Stream.ofChars source).Faultless := by
  unfold parse at parsed
  split at parsed
  next => cases parsed
  next w opened =>
    split at parsed
    next read =>
      obtain ⟨settled, before⟩ := Window.ofChars_eq_ok opened
      obtain ⟨last, reaches, absent⟩ := Reading.exists_reaches_of_lines (congrArg Prod.snd read)
      exact before (reaches.faultless ((reaches.settled settled).faultless absent))
    next => cases parsed

end CrossAsm
