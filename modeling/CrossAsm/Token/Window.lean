import CrossAsm.Token.Stream

/-!
The lexer as the parser uses it: the current token and the one after it. Reading on may fail, and then the
window keeps what was read before the failure. `Window.pending` counts what is still to be read; taking a
token makes it smaller.
-/
namespace CrossAsm

open Token (Stream)

structure Window where
  /-- The number of characters of the source. -/
  length : Nat
  /-- How many characters have been read. -/
  index : Nat
  current : Option Token
  ahead : Option Token
  rest : Stream
  deriving Repr

namespace Window

/-- The offset up to which the source is read once a pull has given `outcome`. -/
def indexAfter (length : Nat) : Except ScanFault (Option Token) → Nat
  | .ok none => length
  | .ok (some token) => token.span.stop
  | .error (.invalidNumber span) => span.stop
  | .error (.unexpectedCharacter offset) => offset

/-- Moves on by one token. If the token after the next one cannot be read, none stands ahead. -/
def advance : EStateM ScanFault Window Unit := fun w =>
  match w.rest.pull with
  | (outcome, rest) =>
    let moved : Window :=
      { w with index := indexAfter w.length outcome, current := w.ahead, ahead := none, rest }
    match outcome with
    | .ok token => .ok () { moved with ahead := token }
    | .error fault => .error fault moved

/-- Moves on by two tokens, or up to the first failure. -/
def advanceTwice : EStateM ScanFault Window Unit := do
  advance
  advance

/-- Gives the current token and moves on. If moving on fails, the token is lost. -/
def take : EStateM ScanFault Window (Option Token) := fun w =>
  match advance { w with current := none } with
  | .ok _ after => .ok w.current after
  | .error fault after => .error fault after

/-- The window at the start of a source text. -/
def ofChars (source : List Char) : Except ScanFault Window :=
  match advanceTwice ⟨source.length, 0, none, none, .ofChars source⟩ with
  | .ok _ w => .ok w
  | .error fault _ => .error fault

/-- Where the current token starts; at the end, the length of the source. -/
def start (w : Window) : Nat := (w.current.map (·.span.start)).getD w.length

/-- The number of tokens and faults still to be read. -/
def pending (w : Window) : Nat :=
  w.rest.items.length + w.current.toList.length + w.ahead.toList.length

/-- Moving on drops the current token and reads at most as many as were pending. -/
theorem advance_pending (w : Window) :
    match advance w with
    | .ok _ after | .error _ after => after.pending + w.current.toList.length ≤ w.pending := by
  obtain ⟨length, index, current, ahead, items, stuck⟩ := w
  cases items with
  | nil => cases stuck <;> simp [advance, Token.Stream.pull, pending] <;> omega
  | cons item items =>
    cases item with
    | error fault => simp [advance, Token.Stream.pull, pending, Except.map]; omega
    | ok token => simp [advance, Token.Stream.pull, pending, Except.map]; omega

theorem take_eq_current {w after : Window} {token : Option Token} (h : take w = .ok token after) :
    token = w.current := by
  unfold take at h
  split at h
  · cases h; rfl
  · cases h

/-- A token that is taken is no longer pending. -/
theorem take_pending {w after : Window} {token : Option Token} (h : take w = .ok token after) :
    after.pending + w.current.toList.length ≤ w.pending := by
  have moved := advance_pending { w with current := none }
  unfold take at h
  split at h
  · rename_i heq
    cases h
    rw [heq] at moved
    simp only [pending, Option.toList_none, List.length_nil] at moved ⊢
    omega
  · cases h

theorem take_error_pending {w after : Window} {fault : ScanFault}
    (h : take w = .error fault after) : after.pending + w.current.toList.length ≤ w.pending := by
  have moved := advance_pending { w with current := none }
  unfold take at h
  split at h
  · cases h
  · rename_i heq
    cases h
    rw [heq] at moved
    simp only [pending, Option.toList_none, List.length_nil] at moved ⊢
    omega

end Window

end CrossAsm
