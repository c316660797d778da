import CrossAsm.Proofs.Decision

/-!
Reading keeps to the grammar of lines. On every line it gives the instructions that the grammar makes of
it, and if the grammar makes none, it gives a fault of the line (`decides_line`). The line is then passed
over up to its end (`skipLine_within`).
-/
namespace CrossAsm

open Grammar

theorem Grammar.spells_iff {word : String} {m : Mnemonic} :
    Spells word m ↔ Mnemonic.ofWord? word = some m := by
  unfold Spells Mnemonic.ofWord?
  dsimp only
  constructor
  · intro spelled
    cases found : Mnemonic.all.find? fun m => m.name.toList == word.toList.map Char.toLower with
    | none =>
      have refused := List.find?_eq_none.mp found m m.mem_all
      exact absurd (beq_iff_eq.mpr spelled.symm) refused
    | some other =>
      have kept := List.find?_some found
      have same : other.name = m.name := by
        apply String.toList_inj.mp
        rw [← spelled]
        exact beq_iff_eq.mp kept
      have named := other.ofWord?_name
      rw [same, m.ofWord?_name] at named
      exact named.symm
  · intro found
    have kept := List.find?_some found
    exact (beq_iff_eq.mp kept).symm

/-- No operand starts with a colon, so a word before one is a label. -/
theorem Grammar.Form.Admits.head_ne_colon {f : Form} {c : Token} {rest : List Token} {op : Operation}
    (admits : f.Admits (c :: rest) op) : ¬ Is .colon c := by
  intro colon
  cases admits with
  | registerAndOperand first | registerAndPointer first | registerAndSymbol first | register first =>
    obtain ⟨word, same, _⟩ := first
    cases colon.symm.trans same
  | pointerAndOperand opened => cases colon.symm.trans opened
  | symbol first | symbolAlone first | symbolAndNumber? first | symbolAndNumber first
  | symbolAndOperand first => cases colon.symm.trans first.1
  | number first | numberAndSymbol first => cases colon.symm.trans first

namespace SourceLine

/-- The lines after a line. -/
def following (tail : Remainder) : List SourceLine :=
  match tail.tokens with
  | [] => []
  | _ :: rest => ofTokens tail.length rest

theorem ofTokens_eq (length : Nat) (tokens : List Token) :
    ∃ l tail, tokens = l.tokens ++ tail.tokens ∧ tail.length = length ∧
      (∀ t ∈ l.tokens, t.kind ≠ .newline) ∧ tail.StartsAt l.stop ∧
      ofTokens length tokens = l :: following tail := by
  induction tokens with
  | nil => exact ⟨⟨[], length⟩, ⟨[], length⟩, rfl, rfl, by simp, .last, rfl⟩
  | cons t rest ih =>
    by_cases newline : t.kind = .newline
    · refine ⟨⟨[], t.span.start⟩, ⟨t :: rest, length⟩, rfl, rfl, by simp, .newline newline rfl, ?_⟩
      simp only [ofTokens, split, newline, if_true, following]
    · obtain ⟨l, tail, same, whole, inner, ends, lines⟩ := ih
      refine ⟨⟨t :: l.tokens, l.stop⟩, tail, ?_, whole, List.forall_mem_cons.mpr ⟨newline, inner⟩,
        ends, ?_⟩
      · rw [same]
        rfl
      · obtain ⟨first, others⟩ := List.cons.inj lines
        simp only [ofTokens, split, newline, if_false, first, others]

/-- The tokens of the lines are those of the text, without the ends of lines. -/
theorem mem_of_ofTokens (length : Nat) (tokens : List Token) :
    ∀ l ∈ ofTokens length tokens, ∀ t ∈ l.tokens, t ∈ tokens ∧ t.kind ≠ .newline := by
  induction tokens with
  | nil => simp [ofTokens, split]
  | cons u rest ih =>
    have later : ∀ l ∈ ofTokens length rest, ∀ t ∈ l.tokens, t ∈ u :: rest ∧ t.kind ≠ .newline := by
      intro l among t member
      exact (ih l among t member).imp_left (List.mem_cons_of_mem u)
    simp only [ofTokens, List.forall_mem_cons] at later
    obtain ⟨first, others⟩ := later
    by_cases newline : u.kind = .newline
    · simp only [ofTokens, split, newline, if_true, List.forall_mem_cons]
      exact ⟨by simp, first, others⟩
    · simp only [ofTokens, split, newline, if_false, List.forall_mem_cons]
      exact ⟨⟨⟨List.mem_cons_self, newline⟩, first⟩, others⟩

end SourceLine

namespace Reading

section Line

variable {place : Nat → Position} {w : Window} {t : Token} {tokens : List Token} {tail : Remainder}
  {stop : Nat}

/-- A line has been read: it was the last one, or the window stands at the next. -/
inductive Ended : Remainder → Bool → Window → Prop
  | last {tail : Remainder} {after : Window} (none : tail.tokens = []) : Ended tail false after
  | newline {t : Token} {rest : List Token} {length : Nat} {after : Window} (shows : after.Shows rest)
    (same : after.length = length) : Ended ⟨t :: rest, length⟩ true after

/-- What reading a line has come to, in the light of the grammar. -/
inductive LineDecision (place : Nat → Position) (l : SourceLine) (tail : Remainder) :
    EStateM.Result ParseFault Window (List Instruction × Bool) → Prop
  | reads {instructions : List Instruction} {more : Bool} {after : Window}
    (holds : Line place l.tokens instructions)
    (only : ∀ other, Line place l.tokens other → other = instructions)
    (ended : Ended tail more after) : LineDecision place l tail (.ok (instructions, more) after)
  | fails {fault : ParseFault} {rest : List Token} {after : Window}
    (left : after.Within ⟨rest, l.stop⟩ tail) (blamed : Blames l fault) (none : Malformed place l) :
    LineDecision place l tail (.error fault after)

/-- At the end of a line there is nothing more to take, or a newline. -/
theorem take_of_nil (here : w.Within ⟨[], stop⟩ tail) :
    (∃ after, w.current = none ∧ take w = .ok none after ∧ tail.tokens = []) ∨
      ∃ place after, w.current = some ⟨.newline, place⟩ ∧
        take w = .ok (some ⟨.newline, place⟩) after ∧ Ended tail true after := by
  have shows := here.shows
  have length := here.length
  cases here.ends with
  | last =>
    obtain ⟨_, index, current, ahead, rest⟩ := w
    obtain ⟨rfl, rfl, rfl⟩ := shows
    exact .inl ⟨_, rfl, rfl, rfl⟩
  | newline kind =>
    obtain ⟨after, taken, shown⟩ := take_of_shows shows
    have same := (Window.length_take (take_eq_ok taken)).trans length
    rename_i t _ _ _
    obtain ⟨_, place⟩ := t
    cases kind
    exact .inr ⟨place, after, shows.current, taken, .newline shown same⟩

theorem endOfLine_of_nil (here : w.Within ⟨[], stop⟩ tail) :
    ∃ more after, endOfLine w = .ok more after ∧ Ended tail more after := by
  rcases take_of_nil here with ⟨after, _, taken, none⟩ | ⟨place, after, _, taken, ended⟩
  · refine ⟨false, after, ?_, .last none⟩
    unfold endOfLine
    simp only [bind, EStateM.bind, taken]
    rfl
  · refine ⟨true, after, ?_, ended⟩
    unfold endOfLine
    simp only [bind, EStateM.bind, taken, if_true]
    rfl

theorem endOfLine_of_cons (here : w.Within ⟨t :: tokens, stop⟩ tail) :
    ∃ after, endOfLine w = .error (.unexpectedToken t.span .endOfLine) after ∧
      after.Within ⟨tokens, stop⟩ tail := by
  obtain ⟨after, taken, left⟩ := here.take
  have inner : t.kind ≠ .newline := here.inner t List.mem_cons_self
  refine ⟨after, ?_, left⟩
  unfold endOfLine
  simp only [bind, EStateM.bind, taken, inner, if_false]
  rfl

/-- A line that does not start with a label is an instruction. -/
theorem line_of_unlabelled (unlabelled : ∀ c ∈ tokens.head?, ¬ Is .colon c)
    {instructions : List Instruction} (line : Line place (t :: tokens) instructions) :
    ∃ word m op, t.kind = .word word ∧ Mnemonic.ofWord? word = some m ∧ (form m).Admits tokens op ∧
      instructions = [⟨op, place t.span.start⟩] := by
  cases line with
  | label _ colon => exact absurd colon (unlabelled _ rfl)
  | instruction named spelled operands => exact ⟨_, _, _, named, spells_iff.mp spelled, operands, rfl⟩

theorem decides_instruction {word : String} {afterWord : Window} (named : t.kind = .word word)
    (unlabelled : ∀ c ∈ tokens.head?, ¬ Is .colon c) (here : afterWord.Within ⟨tokens, stop⟩ tail) :
    LineDecision place ⟨t :: tokens, stop⟩ tail
      (instruction (place t.span.start) word t.span afterWord) := by
  unfold instruction
  cases found : Mnemonic.ofWord? word with
  | none =>
    refine .fails here ⟨?_, ?_⟩ ?_
    · rw [← named]
      exact List.mem_cons_self
    · intro m spelled
      cases found.symm.trans (spells_iff.mp spelled)
    · intro instructions line
      obtain ⟨other, m, _, same, spelled, _⟩ := line_of_unlabelled unlabelled line
      cases named.symm.trans same
      cases found.symm.trans spelled
  | some m =>
    obtain ⟨S, decides, exactly⟩ := operation_exact m
    have decided := decides afterWord _ _ here
    have only_admitted {instructions : List Instruction}
        (line : Line place (t :: tokens) instructions) :
        ∃ op, S tokens op [] ∧ instructions = [⟨op, place t.span.start⟩] := by
      obtain ⟨other, m', op, same, spelled, operands, made⟩ := line_of_unlabelled unlabelled line
      cases named.symm.trans same
      cases found.symm.trans spelled
      exact ⟨op, (exactly tokens op).mpr operands, made⟩
    change LineDecision _ _ _ (EStateM.bind (operation m) _ afterWord)
    unfold EStateM.bind
    generalize operation m afterWord = result at decided
    cases decided with
    | fails left blamed none =>
      refine .fails left (Blames.of_suffix (List.suffix_cons t tokens) blamed) ?_
      intro instructions line
      obtain ⟨op, holds, _⟩ := only_admitted line
      exact none op [] holds
    | reads suffix left holds only =>
      rename_i op rest middle
      change LineDecision _ _ _ (EStateM.bind endOfLine _ middle)
      unfold EStateM.bind
      cases rest with
      | nil =>
        obtain ⟨more, after, ran, ended⟩ := endOfLine_of_nil left
        rw [ran]
        have admitted := (exactly tokens op).mp holds
        refine .reads (.instruction named (spells_iff.mpr found) admitted) ?_ ended
        intro other line
        obtain ⟨op', holds', rfl⟩ := only_admitted line
        rw [(only op' [] holds').1]
      | cons u rest =>
        obtain ⟨after, ran, left'⟩ := endOfLine_of_cons left
        rw [ran]
        refine .fails left' ⟨u, List.mem_cons_of_mem t (suffix.mem List.mem_cons_self), rfl⟩ ?_
        intro instructions line
        obtain ⟨op', holds', _⟩ := only_admitted line
        cases (only op' [] holds').2

/-- A line that starts with a label goes on with a line. -/
theorem line_of_labelled {c : Token} (colon : Is .colon c) {instructions : List Instruction}
    (line : Line place (t :: c :: tokens) instructions) :
    ∃ name rest, t.kind = .word name ∧ Line place tokens rest ∧
      instructions = ⟨.label name, place t.span.start⟩ :: rest := by
  cases line with
  | label named _ later => exact ⟨_, _, named, later, rfl⟩
  | instruction _ _ operands => exact absurd colon operands.head_ne_colon

section Label

variable {name : String} {c : Token} {afterColon : Window} (named : t.kind = .word name)
  (colon : Is .colon c)
include named colon

/-- A label that has to end its line. -/
theorem decides_last_label (here : afterColon.Within ⟨tokens, stop⟩ tail)
    (last : ∀ u ∈ tokens.head?, ∀ word, u.kind ≠ .word word) :
    LineDecision place ⟨t :: c :: tokens, stop⟩ tail
      ((endOfLine >>= fun more => pure ([⟨.label name, place t.span.start⟩], more)) afterColon) := by
  change LineDecision _ _ _ (EStateM.bind endOfLine _ afterColon)
  unfold EStateM.bind
  cases tokens with
  | nil =>
    obtain ⟨more, after, ran, ended⟩ := endOfLine_of_nil here
    rw [ran]
    refine .reads (.label named colon .blank) ?_ ended
    intro other line
    obtain ⟨name', rest, same, later, rfl⟩ := line_of_labelled colon line
    cases named.symm.trans same
    cases later
    rfl
  | cons u rest =>
    obtain ⟨after, ran, left⟩ := endOfLine_of_cons here
    rw [ran]
    refine .fails left ⟨u, by simp, rfl⟩ ?_
    intro instructions line
    obtain ⟨_, _, _, later, _⟩ := line_of_labelled colon line
    cases later with
    | label word => exact last u rfl _ word
    | instruction word => exact last u rfl _ word

/-- A label behind which the line goes on. -/
theorem decides_label {places : LineMap}
    (decided : LineDecision place ⟨tokens, stop⟩ tail (line places afterColon)) :
    LineDecision place ⟨t :: c :: tokens, stop⟩ tail
      ((line places >>= fun result =>
        pure (⟨.label name, place t.span.start⟩ :: result.1, result.2)) afterColon) := by
  change LineDecision _ _ _ (EStateM.bind (line places) _ afterColon)
  unfold EStateM.bind
  generalize line places afterColon = result at decided
  cases decided with
  | reads holds only ended =>
    refine .reads (.label named colon holds) ?_ ended
    intro other line
    obtain ⟨name', rest, same, later, rfl⟩ := line_of_labelled colon line
    cases named.symm.trans same
    rw [only rest later]
  | fails left blamed none =>
    have suffix : tokens <:+ t :: c :: tokens := List.suffix_append [t, c] tokens
    refine .fails left (Blames.of_suffix suffix blamed) ?_
    intro instructions line
    obtain ⟨_, rest, _, later, _⟩ := line_of_labelled colon line
    exact none rest later

end Label

section Word

variable {places : LineMap} {name : String} {span : Span}
  (atFirst : places.position span.start = place span.start)
include atFirst

/-- A line that starts with a word and no colon after it. -/
theorem decides_unlabelled (here : w.Within ⟨⟨.word name, span⟩ :: tokens, stop⟩ tail)
    (unlabelled : ∀ c ∈ tokens.head?, ¬ Is .colon c) :
    LineDecision place ⟨⟨.word name, span⟩ :: tokens, stop⟩ tail (line places w) := by
  obtain ⟨afterWord, taken, left⟩ := here.take
  rw [line_eq_instruction here.current_cons taken, atFirst]
  · exact decides_instruction rfl unlabelled left
  · intro place present
    cases tokens with
    | nil => cases left.current_nil present
    | cons c tokens =>
      cases left.current_cons.symm.trans present
      exact unlabelled _ rfl rfl

/-- A line that starts with a label, if the rest of it can be decided. -/
theorem decides_labelled {c : Token} (here : w.Within ⟨⟨.word name, span⟩ :: c :: tokens, stop⟩ tail)
    (colon : Is .colon c)
    (rest : ∀ afterColon : Window, afterColon.Within ⟨tokens, stop⟩ tail →
      LineDecision place ⟨tokens, stop⟩ tail (line places afterColon)) :
    LineDecision place ⟨⟨.word name, span⟩ :: c :: tokens, stop⟩ tail (line places w) := by
  obtain ⟨afterWord, taken, left⟩ := here.take
  obtain ⟨afterColon, passed, left'⟩ := left.take
  have labelled : afterWord.current = some ⟨.punct .colon, c.span⟩ := by
    rw [← (colon : c.kind = .punct .colon)]
    exact left.current_cons
  obtain ⟨further_line, last_label⟩ := line_eq_label places here.current_cons taken labelled passed
  by_cases goesOn : ∃ u ∈ tokens.head?, ∃ word, u.kind = .word word
  · obtain ⟨⟨kind, further⟩, next, word, isWord⟩ := goesOn
    obtain ⟨later, rfl⟩ := List.head?_eq_some_iff.mp next
    subst isWord
    rw [further_line word further left'.current_cons, atFirst]
    exact decides_label rfl colon (rest afterColon left')
  · have last : ∀ u ∈ tokens.head?, ∀ word, u.kind ≠ .word word := by
      intro u next word isWord
      exact goesOn ⟨u, next, word, isWord⟩
    rw [last_label, atFirst]
    · exact decides_last_label rfl colon left' last
    · intro other place present
      cases tokens with
      | nil => cases left'.current_nil present
      | cons u tokens =>
        cases left'.current_cons.symm.trans present
        exact last _ rfl other rfl

end Word

theorem decides_blank {places : LineMap} (here : w.Within ⟨[], stop⟩ tail) :
    LineDecision place ⟨[], stop⟩ tail (line places w) := by
  have only (other : List Instruction) (line : Line place [] other) : other = [] := by
    cases line
    rfl
  rcases take_of_nil here with ⟨_, absent, _, none⟩ | ⟨place, after, current, taken, ended⟩
  · rw [line_of_none absent]
    exact .reads .blank only (.last none)
  · rw [line_of_newline current taken]
    exact .reads .blank only ended

/-- Reading a line decides whether the grammar makes instructions of it. The places are those that a
line map gives to its tokens. -/
theorem decides_line {places : LineMap} (here : w.Within ⟨tokens, stop⟩ tail)
    (placed : ∀ t ∈ tokens, places.position t.span.start = place t.span.start) :
    LineDecision place ⟨tokens, stop⟩ tail (line places w) := by
  -- after a label the line is two tokens shorter
  induction count : tokens.length using Nat.strongRecOn generalizing tokens w with
  | ind n ih =>
  cases tokens with
  | nil => exact decides_blank here
  | cons t tokens =>
    obtain ⟨atFirst, later⟩ := List.forall_mem_cons.mp placed
    obtain ⟨kind, span⟩ := t
    cases kind with
    | newline => exact absurd rfl (here.inner _ List.mem_cons_self)
    | number | punct =>
      rw [line_of_other here.current_cons (by simp) (by simp)]
      refine .fails here ⟨_, List.mem_cons_self, rfl⟩ ?_
      intro instructions line
      cases line with
      | label word => cases word
      | instruction named => cases named
    | word name =>
      by_cases labelled : ∃ c ∈ tokens.head?, Is .colon c
      · obtain ⟨c, first, colon⟩ := labelled
        obtain ⟨rest, rfl⟩ := List.head?_eq_some_iff.mp first
        apply decides_labelled atFirst here colon
        intro afterColon left
        refine ih rest.length ?_ left (List.forall_mem_cons.mp later).2 rfl
        simp only [List.length_cons] at count
        omega
      · apply decides_unlabelled atFirst here
        intro c first colon
        exact labelled ⟨c, first, colon⟩

/-- Passing over the rest of a line ends with the text or at the next line. -/
theorem skipLine_within (here : w.Within ⟨tokens, stop⟩ tail) :
    tail.tokens = [] ∧ skipLine w = .finished ∨
      ∃ after, skipLine w = .resumed after ∧ Ended tail true after := by
  induction tokens generalizing w with
  | nil =>
    rcases take_of_nil here with ⟨after, _, taken, none⟩ | ⟨place, after, _, taken, ended⟩
    · refine .inl ⟨none, ?_⟩
      rw [skipLine, taken]
    · refine .inr ⟨after, ?_, ended⟩
      rw [skipLine, taken]
      rfl
  | cons t tokens ih =>
    obtain ⟨after, taken, left⟩ := here.take
    have inner : t.kind ≠ .newline := here.inner t List.mem_cons_self
    have passed : skipLine w = skipLine after := by
      rw [skipLine, taken]
      exact if_neg inner
    rw [passed]
    exact ih left

end Line

end Reading

end CrossAsm
