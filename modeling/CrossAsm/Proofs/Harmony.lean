import CrossAsm.Proofs.Decision

/-!
Reading two windows at once. Whoever reads sees only the kinds of tokens up to the end of a line, so on two
windows that look alike so far every step comes to the same: both times it succeeds, with the same value,
or both times it fails, at tokens that correspond. A `Harmony` says what has to hold of the single tokens
and of the end of a line; then it holds of whole lines (`Harmony.line`). The two windows may be one and the
same, and then this is about what one window keeps and where it fails.
-/
namespace CrossAsm

/-- The instruction, with another position. -/
def Instruction.mapPos (g : Position → Position) (i : Instruction) : Instruction := ⟨i.op, g i.pos⟩

namespace Reading

variable {α β : Type}

/-- Both outcomes are successes that `Q` relates, or both are failures that `E` relates. -/
inductive Alike (Q : α → Window → α → Window → Prop)
    (E : ParseFault → Window → ParseFault → Window → Prop) :
    EStateM.Result ParseFault Window α → EStateM.Result ParseFault Window α → Prop
  | ok {a b : α} {after after' : Window} (related : Q a after b after') :
    Alike Q E (.ok a after) (.ok b after')
  | error {fault fault' : ParseFault} {after after' : Window} (related : E fault after fault' after') :
    Alike Q E (.error fault after) (.error fault' after')

namespace Alike

variable {Q : α → Window → α → Window → Prop} {E : ParseFault → Window → ParseFault → Window → Prop}
  {w w' : Window}

theorem bind {P : β → Window → β → Window → Prop} {step step' : Reading α}
    {next next' : α → Reading β} (first : Alike Q E (step w) (step' w'))
    (second : ∀ a after b after', step w = .ok a after → step' w' = .ok b after' → Q a after b after' →
      Alike P E (next a after) (next' b after')) :
    Alike P E ((step >>= next) w) ((step' >>= next') w') := by
  change Alike P E (EStateM.bind step next w) (EStateM.bind step' next' w')
  unfold EStateM.bind
  generalize step w = result at first second
  generalize step' w' = result' at first second
  cases first with
  | ok related => exact second _ _ _ _ rfl rfl related
  | error related => exact .error related

/-- The last step, of which something is made. -/
theorem map {P : β → Window → β → Window → Prop} {step step' : Reading α} {f f' : α → β}
    (first : Alike Q E (step w) (step' w'))
    (made : ∀ a after b after', Q a after b after' → P (f a) after (f' b) after') :
    Alike P E ((step >>= fun a => pure (f a)) w) ((step' >>= fun a => pure (f' a)) w') :=
  first.bind fun a after b after' _ _ related => .ok (made a after b after' related)

end Alike

/-- The same fault, at one span and at another. -/
inductive Refuses (span span' : Span) : ParseFault → ParseFault → Prop
  | unexpectedToken (wanted : Expected) :
    Refuses span span' (.unexpectedToken span wanted) (.unexpectedToken span' wanted)
  | unknownMnemonic (word : String) :
    Refuses span span' (.unknownMnemonic span word) (.unknownMnemonic span' word)
  | invalidOperand (wanted : OperandClass) :
    Refuses span span' (.invalidOperand span wanted) (.invalidOperand span' wanted)

/-- Windows of which one stands in a line as the other does, and what may become of them. `amid true` says
that something of the line has been read before. -/
structure Harmony (places places' : LineMap) (g : Position → Position)
    (amid : Bool → Window → Window → Prop) (done : Window → Window → Prop)
    (lost : ParseFault → Window → ParseFault → Window → Prop) : Prop where
  weaken : ∀ {w w'}, amid true w w' → amid false w w'
  view : ∀ {begun w w'}, amid begun w w' → w.AtEnd ∧ w'.AtEnd ∨
    ∃ t t', w.current = some t ∧ w'.current = some t' ∧ t'.kind = t.kind ∧ t.kind ≠ .newline
  placed : ∀ {begun w w' t t'}, amid begun w w' → w.current = some t → w'.current = some t' →
    t.kind ≠ .newline → places'.position t'.span.start = g (places.position t.span.start)
  /-- A token may be refused before it is taken. -/
  refuse : ∀ {begun w w' t t' fault fault'}, amid begun w w' → w.current = some t →
    w'.current = some t' → t.kind ≠ .newline → Refuses t.span t'.span fault fault' →
    lost fault w fault' w'
  /-- Inside a line a token can be taken, and may be refused then. -/
  take : ∀ {begun w w' t t'}, amid begun w w' → w.current = some t → w'.current = some t' →
    t.kind ≠ .newline → Alike (fun _ after _ after' => amid true after after' ∧
      ∀ fault fault', Refuses t.span t'.span fault fault' → lost fault after fault' after') lost
      (take w) (take w')
  missing : ∀ {w w'}, amid true w w' → w.AtEnd →
    lost (.missingOperand w.start) w (.missingOperand w'.start) w'
  finish : ∀ {w w'}, amid true w w' → w.AtEnd →
    Alike (fun more after _ after' => more = true → done after after') lost (endOfLine w) (endOfLine w')
  blank : ∀ {begun w w'}, amid begun w w' → w.AtEnd →
    Alike (fun r after r' after' => r.1 = [] ∧ r'.1 = [] ∧ (r.2 = true → done after after')) lost
      (line places w) (line places' w')

/-- On windows that stand in a line alike, the step comes to the same. -/
def InStep (amid : Bool → Window → Window → Prop)
    (lost : ParseFault → Window → ParseFault → Window → Prop) (step : Reading α) : Prop :=
  ∀ w w', amid true w w' →
    Alike (fun a after b after' => b = a ∧ amid true after after') lost (step w) (step w')

section InStep

variable {amid : Bool → Window → Window → Prop}
  {lost : ParseFault → Window → ParseFault → Window → Prop}

theorem InStep.pure (a : α) : InStep amid lost (Pure.pure a) := by
  intro w w' here
  exact .ok ⟨rfl, here⟩

theorem InStep.bind {step : Reading α} {next : α → Reading β} (first : InStep amid lost step)
    (second : ∀ a, InStep amid lost (next a)) : InStep amid lost (step >>= next) := by
  intro w w' here
  apply (first w w' here).bind
  intro a after b after' _ _ related
  obtain ⟨rfl, kept⟩ := related
  exact second b after after' kept

end InStep

theorem takeOperand_of_inner {w : Window} {t : Token} (current : w.current = some t)
    (inner : t.kind ≠ .newline) : takeOperand w = (take >>= fun _ => pure t) w := by
  unfold takeOperand
  rw [get_bind]
  simp only [current, inner, if_false]

theorem comma?_eq_take {w : Window} {t : Token} (current : w.current = some t)
    (comma : t.kind = .punct .comma) : comma? w = (take >>= fun _ => pure true) w := by
  obtain ⟨kind, span⟩ := t
  cases comma
  unfold comma?
  rw [get_bind]
  simp only [current]

/-- What is made of a token depends on its kind alone, up to the place of a fault. -/
def Judges (next : Token → Reading α) : Prop :=
  ∀ kind span span', (∃ a, next ⟨kind, span⟩ = pure a ∧ next ⟨kind, span'⟩ = pure a) ∨
    ∃ fault fault', Refuses span span' fault fault' ∧ next ⟨kind, span⟩ = throw fault ∧
      next ⟨kind, span'⟩ = throw fault'

section Lost

variable {places : LineMap} {w : Window} {word : String} {span : Span} {fault : ParseFault}

/-- The word at the start of a line may be lost when it is taken. -/
theorem line_of_lost_word {after : Window} (current : w.current = some ⟨.word word, span⟩)
    (failed : take w = .error fault after) : line places w = .error fault after := by
  rw [line]
  split
  next absent => cases current.symm.trans absent
  next present => cases current.symm.trans present
  next present =>
    cases current.symm.trans present
    split
    next again =>
      cases failed.symm.trans again
      rfl
    next taken => cases failed.symm.trans taken
  next _ notWord present =>
    cases current.symm.trans present
    exact absurd rfl (notWord word)

/-- And so may the colon after it. -/
theorem line_of_lost_colon {token : Option Token} {afterWord after : Window} {place : Span}
    (current : w.current = some ⟨.word word, span⟩) (taken : take w = .ok token afterWord)
    (labelled : afterWord.current = some ⟨.punct .colon, place⟩)
    (failed : take afterWord = .error fault after) : line places w = .error fault after := by
  rw [line]
  split
  next absent => cases current.symm.trans absent
  next present => cases current.symm.trans present
  next present =>
    cases current.symm.trans present
    split
    next lost => cases taken.symm.trans lost
    next again =>
      cases taken.symm.trans again
      split
      next =>
        split
        next again =>
          cases failed.symm.trans again
          rfl
        next passed => cases failed.symm.trans passed
      next other => exact absurd labelled (other place)
  next _ notWord present =>
    cases current.symm.trans present
    exact absurd rfl (notWord word)

end Lost

namespace Harmony

variable {places places' : LineMap} {g : Position → Position} {amid : Bool → Window → Window → Prop}
  {done : Window → Window → Prop} {lost : ParseFault → Window → ParseFault → Window → Prop}
  (harmony : Harmony places places' g amid done lost)

section Operands

include harmony

theorem takeOperand_alike {w w' : Window} (here : amid true w w') :
    Alike (fun t after t' after' => t'.kind = t.kind ∧ amid true after after' ∧
      ∀ fault fault', Refuses t.span t'.span fault fault' → lost fault after fault' after') lost
      (takeOperand w) (takeOperand w') := by
  rcases harmony.view here with ⟨ends, ends'⟩ | ⟨t, t', current, current', same, inner⟩
  · rw [takeOperand_of_atEnd ends, takeOperand_of_atEnd ends']
    exact .error (harmony.missing here ends)
  · rw [takeOperand_of_inner current inner, takeOperand_of_inner current' (same ▸ inner)]
    apply (harmony.take here current current' inner).map
    intro _ after _ after' kept
    exact ⟨same, kept⟩

theorem judge {next : Token → Reading α} (judges : Judges next) :
    InStep amid lost (takeOperand >>= next) := by
  intro w w' here
  apply (harmony.takeOperand_alike here).bind
  intro t after t' after' _ _ related
  obtain ⟨kind, span⟩ := t
  obtain ⟨kind', span'⟩ := t'
  obtain ⟨same, kept, refused⟩ := related
  cases same
  rcases judges kind span span' with ⟨a, given, given'⟩ | ⟨fault, fault', refuses, given, given'⟩
  · rw [given, given']
    exact .ok ⟨rfl, kept⟩
  · rw [given, given']
    exact .error (refused fault fault' refuses)

theorem register : InStep amid lost register := by
  apply harmony.judge
  intro kind span span'
  cases kind with
  | word name =>
    dsimp only
    cases Token.register? name with
    | some n => exact .inl ⟨⟨n⟩, rfl, rfl⟩
    | none => exact .inr ⟨_, _, .invalidOperand _, rfl, rfl⟩
  | number | punct | newline => exact .inr ⟨_, _, .invalidOperand _, rfl, rfl⟩

theorem operand : InStep amid lost operand := by
  apply harmony.judge
  intro kind span span'
  cases kind with
  | number n => exact .inl ⟨.imm n, rfl, rfl⟩
  | word name =>
    dsimp only
    cases Token.register? name with
    | some n => exact .inl ⟨.reg ⟨n⟩, rfl, rfl⟩
    | none => exact .inr ⟨_, _, .invalidOperand _, rfl, rfl⟩
  | punct | newline => exact .inr ⟨_, _, .invalidOperand _, rfl, rfl⟩

theorem number : InStep amid lost number := by
  apply harmony.judge
  intro kind span span'
  cases kind with
  | number n => exact .inl ⟨n, rfl, rfl⟩
  | word | punct | newline => exact .inr ⟨_, _, .invalidOperand _, rfl, rfl⟩

theorem symbol : InStep amid lost symbol := by
  apply harmony.judge
  intro kind span span'
  cases kind with
  | word name =>
    dsimp only
    cases Token.register? name with
    | some n => exact .inr ⟨_, _, .invalidOperand _, rfl, rfl⟩
    | none => exact .inl ⟨name, rfl, rfl⟩
  | number | punct | newline => exact .inr ⟨_, _, .invalidOperand _, rfl, rfl⟩

theorem punct (p : Punct) (wanted : Expected) : InStep amid lost (punct p wanted) := by
  apply harmony.judge
  intro kind span span'
  by_cases expected : kind = .punct p
  · exact .inl ⟨(), if_pos expected, if_pos expected⟩
  · exact .inr ⟨_, _, .unexpectedToken _, if_neg expected, if_neg expected⟩

theorem comma : InStep amid lost comma := harmony.punct _ _

theorem pointer : InStep amid lost pointer :=
  (harmony.punct _ _).bind fun _ => harmony.register.bind fun _ =>
    (harmony.punct _ _).bind fun _ => .pure _

theorem comma? : InStep amid lost comma? := by
  intro w w' here
  rcases harmony.view here with ⟨ends, ends'⟩ | ⟨t, t', current, current', same, inner⟩
  · rw [comma?_of_other, comma?_of_other]
    · exact .ok ⟨rfl, here⟩
    · intro t present comma
      cases (ends' t present).symm.trans comma
    · intro t present comma
      cases (ends t present).symm.trans comma
  · by_cases comma : t.kind = .punct .comma
    · rw [comma?_eq_take current comma, comma?_eq_take current' (same.trans comma)]
      apply (harmony.take here current current' inner).map
      intro _ after _ after' kept
      exact ⟨rfl, kept.1⟩
    · rw [comma?_of_other, comma?_of_other]
      · exact .ok ⟨rfl, here⟩
      · intro u present
        cases current'.symm.trans present
        rwa [Grammar.Is, same]
      · intro u present
        cases current.symm.trans present
        exact comma

theorem registerAndOperand : InStep amid lost registerAndOperand :=
  harmony.register.bind fun _ => harmony.comma.bind fun _ =>
    harmony.operand.bind fun _ => .pure _

theorem operation (m : Mnemonic) : InStep amid lost (operation m) := by
  cases m with
  | mov | binary | product | shift | cmp =>
    exact harmony.registerAndOperand.bind fun _ => .pure _
  | load =>
    exact harmony.register.bind fun _ => harmony.comma.bind fun _ =>
      harmony.pointer.bind fun _ => .pure _
  | store =>
    exact harmony.pointer.bind fun _ => harmony.comma.bind fun _ =>
      harmony.operand.bind fun _ => .pure _
  | unary | push | pop => exact harmony.register.bind fun _ => .pure _
  | jmp | call | branch => exact harmony.symbol.bind fun _ => .pure _
  | ret | halt | nop => exact .pure _
  | int | org | bit => exact harmony.number.bind fun _ => .pure _
  | var =>
    apply harmony.symbol.bind
    intro name
    apply harmony.comma?.bind
    intro follows
    cases follows with
    | true => exact harmony.number.bind fun _ => .pure _
    | false => exact .pure _
  | buffer =>
    exact harmony.symbol.bind fun _ => harmony.comma.bind fun _ =>
      harmony.number.bind fun _ => .pure _
  | set =>
    exact harmony.symbol.bind fun _ => harmony.comma.bind fun _ =>
      harmony.operand.bind fun _ => .pure _
  | get | djnz =>
    exact harmony.register.bind fun _ => harmony.comma.bind fun _ =>
      harmony.symbol.bind fun _ => .pure _
  | bitBranch =>
    exact harmony.number.bind fun _ => harmony.comma.bind fun _ =>
      harmony.symbol.bind fun _ => .pure _

end Operands

section Line

/-- What reading two lines comes to: the same instructions, each in its place. -/
def Read (g : Position → Position) (done : Window → Window → Prop) (r : List Instruction × Bool)
    (after : Window) (r' : List Instruction × Bool) (after' : Window) : Prop :=
  r'.1 = r.1.map (Instruction.mapPos g) ∧ (r.2 = true → done after after')

include harmony

theorem endOfLine {w w' : Window} (here : amid true w w') :
    Alike (fun more after _ after' => more = true → done after after') lost (endOfLine w)
      (endOfLine w') := by
  rcases harmony.view here with ⟨ends, _⟩ | ⟨t, t', current, current', same, inner⟩
  · exact harmony.finish here ends
  · apply (harmony.take here current current' inner).bind
    intro token after token' after' taken taken' kept
    rw [take_eq_current taken, take_eq_current taken', current, current']
    simp only [inner, same, if_false]
    exact .error (kept.2 _ _ (.unexpectedToken _))

theorem instruction {w w' : Window} {pos : Position} {word : String} {span span' : Span}
    (here : amid true w w')
    (refused : ∀ fault fault', Refuses span span' fault fault' → lost fault w fault' w') :
    Alike (Read g done) lost (instruction pos word span w) (instruction (g pos) word span' w') := by
  unfold Reading.instruction
  cases Mnemonic.ofWord? word with
  | none => exact .error (refused _ _ (.unknownMnemonic word))
  | some m =>
    apply (harmony.operation m w w' here).bind
    intro op after op' after' _ _ related
    obtain ⟨rfl, kept⟩ := related
    apply (harmony.endOfLine kept).map
    intro more last more' last' ended
    exact ⟨rfl, ended⟩

section Word

variable {w w' afterWord afterWord' : Window} {name : String} {span span' : Span}
  {token token' : Option Token} (current : w.current = some ⟨.word name, span⟩)
  (current' : w'.current = some ⟨.word name, span'⟩) (taken : Reading.take w = .ok token afterWord)
  (taken' : Reading.take w' = .ok token' afterWord') (kept : amid true afterWord afterWord')
  (place : places'.position span'.start = g (places.position span.start))
include current current' taken taken' kept place

/-- Two lines that start with a label each, if what follows the colons is read alike. -/
theorem line_of_label {colon colon' : Token} (next : afterWord.current = some colon)
    (next' : afterWord'.current = some colon') (labelled : colon.kind = .punct .colon)
    (same : colon'.kind = colon.kind)
    (later : ∀ v v', v.pending < w.pending → amid false v v' →
      Alike (Read g done) lost (line places v) (line places' v')) :
    Alike (Read g done) lost (line places w) (line places' w') := by
  obtain ⟨kind, spot⟩ := colon
  obtain ⟨kind', spot'⟩ := colon'
  cases same
  cases labelled
  have less := take_pending_lt (by simp [current]) taken
  have second := harmony.take kept next next' (by simp)
  cases passed : Reading.take afterWord with
  | error fault after =>
    rw [passed] at second
    generalize passed' : Reading.take afterWord' = result at second
    cases second with
    | error related =>
      rw [line_of_lost_colon current taken next passed, line_of_lost_colon current' taken' next' passed']
      exact .error related
  | ok _ afterColon =>
    rw [passed] at second
    generalize passed' : Reading.take afterWord' = result at second
    cases second with
    | @ok _ _ _ afterColon' related =>
      have least := take_pending_lt (by simp [next]) passed
      obtain ⟨goesOn, ends⟩ := line_eq_label places current taken next passed
      obtain ⟨goesOn', ends'⟩ := line_eq_label places' current' taken' next' passed'
      have closed (bare : ∀ other there, afterColon.current ≠ some ⟨.word other, there⟩)
          (bare' : ∀ other there, afterColon'.current ≠ some ⟨.word other, there⟩) :
          Alike (Read g done) lost (Reading.line places w) (Reading.line places' w') := by
        rw [ends bare, ends' bare', place]
        apply (harmony.endOfLine related.1).map
        intro more after more' after' ended
        exact ⟨rfl, ended⟩
      rcases harmony.view related.1 with
        ⟨last, last'⟩ | ⟨⟨kind, there⟩, ⟨kind', there'⟩, found, found', same, _⟩
      · apply closed
        · intro other there word
          cases last _ word
        · intro other there word
          cases last' _ word
      · cases same
        by_cases word : ∃ other, kind = .word other
        · obtain ⟨other, rfl⟩ := word
          rw [goesOn other there found, goesOn' other there' found', place]
          apply (later _ _ (Nat.lt_trans least less) (harmony.weaken related.1)).map
          intro r after r' after' read
          exact ⟨by rw [read.1]; rfl, read.2⟩
        · apply closed
          · intro other there present
            cases found.symm.trans present
            exact word ⟨other, rfl⟩
          · intro other there present
            cases found'.symm.trans present
            exact word ⟨other, rfl⟩

/-- Two lines that start with a word each that is no label. -/
theorem line_of_unlabelled (unlabelled : ∀ spot, afterWord.current ≠ some ⟨.punct .colon, spot⟩)
    (unlabelled' : ∀ spot, afterWord'.current ≠ some ⟨.punct .colon, spot⟩)
    (refused : ∀ fault fault', Refuses span span' fault fault' → lost fault afterWord fault' afterWord') :
    Alike (Read g done) lost (line places w) (line places' w') := by
  rw [line_eq_instruction current taken unlabelled, line_eq_instruction current' taken' unlabelled', place]
  exact harmony.instruction kept refused

end Word

/-- Two lines that start with a word each. -/
theorem line_of_word {w w' : Window} {name : String} {span span' : Span} (here : amid false w w')
    (current : w.current = some ⟨.word name, span⟩) (current' : w'.current = some ⟨.word name, span'⟩)
    (later : ∀ v v', v.pending < w.pending → amid false v v' →
      Alike (Read g done) lost (line places v) (line places' v')) :
    Alike (Read g done) lost (line places w) (line places' w') := by
  have first := harmony.take here current current' (by simp)
  have place := harmony.placed here current current' (by simp)
  cases taken : Reading.take w with
  | error fault after =>
    rw [taken] at first
    generalize taken' : Reading.take w' = result at first
    cases first with
    | error related =>
      rw [line_of_lost_word current taken, line_of_lost_word current' taken']
      exact .error related
  | ok token afterWord =>
    rw [taken] at first
    generalize taken' : Reading.take w' = result at first
    cases first with
    | @ok _ token' _ afterWord' related =>
      obtain ⟨kept, refused⟩ := related
      rcases harmony.view kept with ⟨last, last'⟩ | ⟨c, c', next, next', same, _⟩
      · apply harmony.line_of_unlabelled current current' taken taken' kept place _ _ refused
        · intro spot colon
          cases last _ colon
        · intro spot colon
          cases last' _ colon
      · by_cases colon : c.kind = .punct .colon
        · exact harmony.line_of_label current current' taken taken' kept place next next' colon same later
        · apply harmony.line_of_unlabelled current current' taken taken' kept place _ _ refused
          · intro spot present
            cases next.symm.trans present
            exact colon rfl
          · intro spot present
            cases next'.symm.trans present
            exact colon same.symm

/-- Reading two lines that look alike comes to the same. -/
theorem line {w w' : Window} (here : amid false w w') :
    Alike (Read g done) lost (line places w) (line places' w') := by
  -- after a label the rest is read as a line, with less pending
  induction count : w.pending using Nat.strongRecOn generalizing w w' with
  | ind n ih =>
  rcases harmony.view here with ⟨ends, _⟩ | ⟨⟨kind, span⟩, ⟨kind', span'⟩, current, current', same, inner⟩
  · have read := harmony.blank here ends
    generalize Reading.line places w = result at read
    generalize Reading.line places' w' = result' at read
    cases read with
    | ok related => exact .ok ⟨by rw [related.1, related.2.1]; rfl, related.2.2⟩
    | error related => exact .error related
  · cases same
    cases kind with
    | newline => exact absurd rfl inner
    | number | punct =>
      rw [line_of_other current (by simp) (by simp), line_of_other current' (by simp) (by simp)]
      exact .error (harmony.refuse here current current' inner (.unexpectedToken _))
    | word name =>
      apply harmony.line_of_word here current current'
      intro v v' less there
      exact ih v.pending (count ▸ less) there rfl

end Line

end Harmony

end Reading

end CrossAsm
