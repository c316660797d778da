import CrossAsm.Proofs.Faultless
import CrossAsm.Proofs.Lexing

/-!
The window under any use. A session is a row of calls on a window, each on what the one before has left,
whether or not that one failed. Moving on leads to the same kind of window in both cases (`moved`): what it
shows is in the order of the text and lies before the index, and the text is still to be scanned from there
(`Tidy`). So the index never falls, no token is handed out twice or out of order, and whoever meets a
character that starts no token stays there (`sessions_keep_order`).
-/
namespace CrossAsm

open Token (Stream)

/-- The token covers some characters, from the offset `low` up to `high` at most. -/
structure Token.Between (low high : Nat) (t : Token) : Prop where
  low : low ≤ t.span.start
  order : t.span.start < t.span.stop
  high : t.span.stop ≤ high

theorem Token.Between.widen {low high low' high' : Nat} {t : Token} (between : t.Between low high)
    (further : low' ≤ low) (farther : high ≤ high') : t.Between low' high' :=
  ⟨Nat.le_trans further between.low, between.order, Nat.le_trans between.high farther⟩

namespace Token.Stream.Traces

variable {source : List Char} {offset : Nat} {s : Stream}

/-- What is read next lies behind the offset, and the scan goes on where it ends. -/
theorem pull (traces : Traces source offset s) {index : Nat}
    (reached : index = Window.indexAfter source.length s.pull.1) :
    offset ≤ index ∧ index ≤ source.length ∧ Traces source index s.pull.2 ∧
      ∀ t, s.pull.1 = .ok (some t) → t.Between offset index := by
  subst reached
  cases traces with
  | ends inside last => exact ⟨inside, Nat.le_refl _, .ends (Nat.le_refl _) rfl, by simp [Stream.pull]⟩
  | stuck order inside line =>
    exact ⟨order, Nat.le_of_lt inside, .stuck (Nat.le_refl _) inside rfl, by simp [Stream.pull]⟩
  | @item _ start l item rest order line stands made later =>
    have long := l.length_pos stands.valid
    have stop := stands.stop_le
    cases item with
    | ok t =>
      have span := (Lexeme.token_of_item? made).1
      have start_eq : t.span.start = start := by rw [span]
      have stop_eq : t.span.stop = start + l.chars.length := by rw [span]
      change offset ≤ t.span.stop ∧ t.span.stop ≤ source.length ∧ Traces source t.span.stop rest ∧
        ∀ u, Except.ok (some t) = .ok (some u) → u.Between offset t.span.stop
      refine ⟨by omega, by omega, stop_eq ▸ later, ?_⟩
      intro u same
      cases same
      exact ⟨by omega, by omega, Nat.le_refl _⟩
    | error fault =>
      obtain ⟨rfl, _⟩ := Lexeme.fault_of_item? made
      exact ⟨by change _ ≤ start + _; omega, stop, later, by simp [Stream.pull, cons, Except.map]⟩

/-- Only where the scan is stuck does it meet a character that starts no token. -/
theorem stuck_of_pull (traces : Traces source offset s) {place : Nat}
    (failed : s.pull.1 = .error (.unexpectedCharacter place)) : s = ⟨[], some place⟩ := by
  cases traces with
  | ends => cases failed
  | stuck =>
    cases failed
    rfl
  | @item _ _ _ item _ _ _ _ made =>
    cases item with
    | ok t => cases failed
    | error fault =>
      cases failed
      cases (Lexeme.fault_of_item? made).1

end Token.Stream.Traces

namespace Window

/-- The window after moving on, whether or not a token could be read. -/
def moved (w : Window) : Window :=
  { w with
    index := indexAfter w.length w.rest.pull.1
    current := w.ahead
    ahead := w.rest.pull.1.toOption.join
    rest := w.rest.pull.2 }

section Moved

variable {w : Window} {token : Option Token} {fault : ScanFault}

theorem advance_of_ok (pulled : w.rest.pull.1 = .ok token) : advance w = .ok () w.moved := by
  unfold advance moved
  generalize w.rest.pull = result at pulled
  obtain ⟨outcome, rest⟩ := result
  cases pulled
  rfl

theorem advance_of_error (pulled : w.rest.pull.1 = .error fault) : advance w = .error fault w.moved := by
  unfold advance moved
  generalize w.rest.pull = result at pulled
  obtain ⟨outcome, rest⟩ := result
  cases pulled
  rfl

theorem take_of_ok (pulled : w.rest.pull.1 = .ok token) : take w = .ok w.current w.moved := by
  have gone : advance { w with current := none } = .ok () w.moved := advance_of_ok pulled
  rw [take, gone]

theorem take_of_error (pulled : w.rest.pull.1 = .error fault) : take w = .error fault w.moved := by
  have gone : advance { w with current := none } = .error fault w.moved := advance_of_error pulled
  rw [take, gone]

theorem advanceTwice_of_ok (pulled : w.rest.pull.1 = .ok token) : advanceTwice w = advance w.moved := by
  change EStateM.bind advance (fun _ => advance) w = _
  rw [EStateM.bind, advance_of_ok pulled]

theorem advanceTwice_of_error (pulled : w.rest.pull.1 = .error fault) :
    advanceTwice w = .error fault w.moved := by
  change EStateM.bind advance (fun _ => advance) w = _
  rw [EStateM.bind, advance_of_error pulled]

end Moved

/-- A call on a window. -/
inductive Call where
  | take | advance | advanceTwice
  deriving DecidableEq, Repr

inductive Answer where
  | taken (token : Option Token)
  | moved
  | failed (fault : ScanFault)
  deriving DecidableEq, Repr

/-- The answer to a call, and the window that is left. -/
def answer (w : Window) : Call → Answer × Window
  | .take =>
    match take w with
    | .ok token after => (.taken token, after)
    | .error fault after => (.failed fault, after)
  | .advance =>
    match advance w with
    | .ok _ after => (.moved, after)
    | .error fault after => (.failed fault, after)
  | .advanceTwice =>
    match advanceTwice w with
    | .ok _ after => (.moved, after)
    | .error fault after => (.failed fault, after)

/-- The answers to calls one after the other, each with the window that it leaves to the next. -/
def session (w : Window) : List Call → List (Answer × Window)
  | [] => []
  | call :: calls => w.answer call :: (w.answer call).2.session calls

def Answer.token? : Answer → Option Token
  | taken token => token
  | _ => none

/-- The tokens that are handed out. -/
def delivered (answers : List (Answer × Window)) : List Token := answers.filterMap fun r => r.1.token?

/-- What a call can come to. -/
inductive Answers (w : Window) : Answer × Window → Prop
  | taken {token : Option Token} (pulled : w.rest.pull.1 = .ok token) :
    Answers w (.taken w.current, w.moved)
  | once {token : Option Token} (pulled : w.rest.pull.1 = .ok token) : Answers w (.moved, w.moved)
  | twice {token : Option Token} (pulled : w.rest.pull.1 = .ok token) :
    Answers w (.moved, w.moved.moved)
  | failed {fault : ScanFault} (pulled : w.rest.pull.1 = .error fault) :
    Answers w (.failed fault, w.moved)
  | failedLater {token : Option Token} {fault : ScanFault} (pulled : w.rest.pull.1 = .ok token)
    (further : w.moved.rest.pull.1 = .error fault) : Answers w (.failed fault, w.moved.moved)

theorem answers_answer (w : Window) (call : Call) : Answers w (w.answer call) := by
  cases pulled : w.rest.pull.1 with
  | error fault =>
    have failed : w.answer call = (.failed fault, w.moved) := by
      cases call <;>
        simp only [answer, take_of_error pulled, advance_of_error pulled, advanceTwice_of_error pulled]
    rw [failed]
    exact .failed pulled
  | ok token =>
    cases call with
    | take =>
      rw [answer, take_of_ok pulled]
      exact .taken pulled
    | advance =>
      rw [answer, advance_of_ok pulled]
      exact .once pulled
    | advanceTwice =>
      rw [answer, advanceTwice_of_ok pulled]
      cases further : w.moved.rest.pull.1 with
      | ok next =>
        rw [advance_of_ok further]
        exact .twice pulled
      | error fault =>
        rw [advance_of_error further]
        exact .failedLater pulled further

/-- What the window shows comes in the order of the text, behind the offset `floor`, and the text is still
to be scanned from the index on. -/
structure Tidy (source : List Char) (floor : Nat) (w : Window) : Prop where
  length : w.length = source.length
  rest : Stream.Traces source w.index w.rest
  behind : floor ≤ w.index
  current : ∀ t, w.current = some t → t.Between floor w.index
  ahead : ∀ t, w.ahead = some t → t.Between floor w.index
  apart : ∀ t u, w.current = some t → w.ahead = some u → t.span.stop ≤ u.span.start

namespace Tidy

variable {source : List Char} {floor : Nat} {w : Window} (tidy : w.Tidy source floor)
include tidy

theorem lower {lower : Nat} (order : lower ≤ floor) : w.Tidy source lower where
  length := tidy.length
  rest := tidy.rest
  behind := Nat.le_trans order tidy.behind
  current t present := (tidy.current t present).widen order (Nat.le_refl _)
  ahead t present := (tidy.ahead t present).widen order (Nat.le_refl _)
  apart := tidy.apart

/-- Moving on leads to a token behind the index, if to any. -/
theorem pulled : w.index ≤ w.moved.index ∧ w.moved.index ≤ source.length ∧
    Stream.Traces source w.moved.index w.moved.rest ∧
    ∀ t, w.moved.ahead = some t → t.Between w.index w.moved.index := by
  have reached : w.moved.index = indexAfter source.length w.rest.pull.1 := by
    rw [← tidy.length]
    rfl
  obtain ⟨further, inside, rest, token⟩ := tidy.rest.pull reached
  refine ⟨further, inside, rest, fun t present => token t ?_⟩
  change w.rest.pull.1.toOption.join = some t at present
  cases outcome : w.rest.pull.1 with
  | ok next =>
    rw [outcome] at present
    exact congrArg Except.ok present
  | error fault =>
    rw [outcome] at present
    cases present

theorem index_le : w.index ≤ source.length :=
  Nat.le_trans tidy.pulled.1 tidy.pulled.2.1

/-- Moving on keeps a window tidy behind any offset that is not behind the token ahead. -/
theorem moved_above {above : Nat} (order : above ≤ w.index)
    (before : ∀ t, w.ahead = some t → above ≤ t.span.start) : w.moved.Tidy source above := by
  obtain ⟨further, _, rest, token⟩ := tidy.pulled
  have current (t : Token) (present : w.moved.current = some t) :
      t.Between above w.index :=
    ⟨before t present, (tidy.ahead t present).order, (tidy.ahead t present).high⟩
  refine ⟨tidy.length, rest, Nat.le_trans order further, ?_, ?_, ?_⟩
  · intro t present
    exact (current t present).widen (Nat.le_refl _) further
  · intro t present
    exact (token t present).widen order (Nat.le_refl _)
  · intro t u present next
    exact Nat.le_trans (current t present).high (token u next).low

theorem moved : w.moved.Tidy source floor :=
  tidy.moved_above tidy.behind fun t present => (tidy.ahead t present).low

/-- What is left when a token has been taken lies behind it. -/
theorem moved_of_current {t : Token} (present : w.current = some t) :
    w.moved.Tidy source t.span.stop :=
  tidy.moved_above (tidy.current t present).high fun u next => tidy.apart t u present next

/-- A call leaves a tidy window, and what it hands out lies before what is left. -/
theorem answer {r : Answer × Window} (answers : Answers w r) :
    w.index ≤ r.2.index ∧ ∃ further, floor ≤ further ∧ r.2.Tidy source further ∧
      ∀ t, r.1.token? = some t → t.Between floor further := by
  have once := tidy.pulled.1
  have twice := Nat.le_trans once tidy.moved.pulled.1
  cases answers with
  | taken pulled =>
    refine ⟨once, ?_⟩
    cases present : w.current with
    | none => exact ⟨floor, Nat.le_refl _, tidy.moved, by simp [Answer.token?]⟩
    | some t =>
      have between := tidy.current t present
      refine ⟨t.span.stop, ?_, tidy.moved_of_current present, ?_⟩
      · exact Nat.le_trans between.low (Nat.le_of_lt between.order)
      · intro u same
        cases same
        exact ⟨between.low, between.order, Nat.le_refl _⟩
  | once | failed => exact ⟨once, floor, Nat.le_refl _, tidy.moved, by simp [Answer.token?]⟩
  | twice | failedLater =>
    exact ⟨twice, floor, Nat.le_refl _, tidy.moved.moved, by simp [Answer.token?]⟩

end Tidy

/-- The scan is stuck where the index is. -/
structure StuckAt (place : Nat) (w : Window) : Prop where
  index : w.index = place
  rest : w.rest = ⟨[], some place⟩

namespace StuckAt

variable {place : Nat} {w : Window}

theorem pull (stuck : w.StuckAt place) :
    w.rest.pull = (.error (.unexpectedCharacter place), ⟨[], some place⟩) := by
  rw [stuck.rest]
  rfl

theorem moved (stuck : w.StuckAt place) : w.moved.StuckAt place where
  index := by
    change indexAfter w.length w.rest.pull.1 = place
    rw [stuck.pull]
    rfl
  rest := by
    change w.rest.pull.2 = _
    rw [stuck.pull]

theorem answer (stuck : w.StuckAt place) {r : Answer × Window} (answers : Answers w r) :
    r.1 = .failed (.unexpectedCharacter place) ∧ r.2.StuckAt place := by
  have failing : w.rest.pull.1 = .error (.unexpectedCharacter place) := by rw [stuck.pull]
  cases answers with
  | taken pulled | once pulled | twice pulled | failedLater pulled => cases failing.symm.trans pulled
  | failed pulled =>
    cases failing.symm.trans pulled
    exact ⟨rfl, stuck.moved⟩

/-- Whoever is stuck stays so. -/
theorem session (stuck : w.StuckAt place) (calls : List Call) :
    ∀ r ∈ w.session calls, r.1 = .failed (.unexpectedCharacter place) ∧ r.2.index = place := by
  induction calls generalizing w with
  | nil => simp [Window.session]
  | cons call calls ih =>
    obtain ⟨failed, left⟩ := stuck.answer (answers_answer w call)
    exact List.forall_mem_cons.mpr ⟨⟨failed, left.index⟩, ih left⟩

end StuckAt

namespace Tidy

variable {source : List Char} {floor : Nat} {w : Window}

/-- A character that starts no token is met where the window then stands. -/
theorem stuckAt_moved (tidy : w.Tidy source floor) {place : Nat}
    (failing : w.rest.pull.1 = .error (.unexpectedCharacter place)) : w.moved.StuckAt place where
  index := by
    change indexAfter w.length w.rest.pull.1 = place
    rw [failing]
    rfl
  rest := by
    change w.rest.pull.2 = _
    rw [tidy.rest.stuck_of_pull failing]
    rfl

theorem stuckAt_of_answers (tidy : w.Tidy source floor) {place : Nat} {after : Window}
    (answers : Answers w (.failed (.unexpectedCharacter place), after)) : after.StuckAt place := by
  cases answers with
  | failed pulled => exact tidy.stuckAt_moved pulled
  | failedLater _ further => exact tidy.moved.stuckAt_moved further

/-- Every window of a session is tidy. -/
theorem session (tidy : w.Tidy source floor) (calls : List Call) :
    ∀ r ∈ w.session calls, r.2.Tidy source floor := by
  induction calls generalizing w floor with
  | nil => simp [Window.session]
  | cons call calls ih =>
    obtain ⟨_, further, order, left, _⟩ := tidy.answer (answers_answer w call)
    have kept := left.lower order
    exact List.forall_mem_cons.mpr ⟨kept, ih kept⟩

/-- The index never falls. -/
theorem index_session (tidy : w.Tidy source floor) (calls : List Call) :
    (w.index :: (w.session calls).map fun r => r.2.index).Pairwise (· ≤ ·) := by
  induction calls generalizing w floor with
  | nil => simp [Window.session]
  | cons call calls ih =>
    obtain ⟨risen, _, _, left, _⟩ := tidy.answer (answers_answer w call)
    have later := ih left
    refine .cons (List.forall_mem_cons.mpr ⟨risen, fun index member => ?_⟩) later
    exact Nat.le_trans risen ((List.pairwise_cons.mp later).1 index member)

/-- The tokens that a session hands out come in the order of the text. -/
theorem delivered_session (tidy : w.Tidy source floor) (calls : List Call) :
    (∀ t ∈ delivered (w.session calls), t.Between floor source.length) ∧
      (delivered (w.session calls)).Pairwise fun s t => s.span.stop ≤ t.span.start := by
  induction calls generalizing w floor with
  | nil => simp [Window.session, delivered]
  | cons call calls ih =>
    obtain ⟨_, further, order, left, token⟩ := tidy.answer (answers_answer w call)
    obtain ⟨inside, ordered⟩ := ih left
    have lower : ∀ t ∈ delivered ((w.answer call).2.session calls), t.Between floor source.length :=
      fun t member => (inside t member).widen order (Nat.le_refl _)
    rw [Window.session, delivered, List.filterMap_cons]
    cases handed : (w.answer call).1.token? with
    | none => exact ⟨lower, ordered⟩
    | some t =>
      have between := token t handed
      have bound := Nat.le_trans left.behind left.index_le
      refine ⟨List.forall_mem_cons.mpr ⟨between.widen (Nat.le_refl _) bound, lower⟩, .cons ?_ ordered⟩
      exact fun u member => Nat.le_trans between.high (inside u member).low

/-- After a character that starts no token nothing is read any more. -/
theorem stuck_session (tidy : w.Tidy source floor) {calls : List Call}
    {before later : List (Answer × Window)} {place : Nat} {after : Window}
    (divided : w.session calls = before ++ (.failed (.unexpectedCharacter place), after) :: later) :
    ∀ r ∈ later, r.1 = .failed (.unexpectedCharacter place) ∧ r.2.index = after.index := by
  induction before generalizing w floor calls with
  | nil =>
    cases calls with
    | nil => cases divided
    | cons call calls =>
      obtain ⟨here, rfl⟩ := List.cons.inj divided
      have stuck := tidy.stuckAt_of_answers (here ▸ answers_answer w call)
      rw [here, stuck.index]
      exact stuck.session calls
  | cons first before ih =>
    cases calls with
    | nil => cases divided
    | cons call calls =>
      obtain ⟨rfl, rest⟩ := List.cons.inj divided
      obtain ⟨_, _, _, left, _⟩ := tidy.answer (answers_answer w call)
      exact ih left rest

end Tidy

/-- The window at the start of a text is tidy. -/
theorem tidy_of_ofChars {source : List Char} {w : Window} (opened : ofChars source = .ok w) :
    w.Tidy source 0 := by
  unfold ofChars at opened
  split at opened
  next gone =>
    cases opened
    let start : Window := ⟨source.length, 0, none, none, .ofChars source⟩
    have tidy : start.Tidy source 0 :=
      ⟨rfl, Stream.traces_ofChars source, Nat.le_refl _, by simp [start], by simp [start], by simp [start]⟩
    have answered : start.answer .advanceTwice = (.moved, w) := by rw [answer, gone]
    obtain ⟨_, further, _, left, _⟩ := tidy.answer (answers_answer start .advanceTwice)
    rw [answered] at left
    exact left.lower (Nat.zero_le further)
  next => cases opened

/-- What a window shows comes in the order of the text, before the index, and the index lies in the text. -/
structure InOrder (source : List Char) (w : Window) : Prop where
  index : w.index ≤ source.length
  current : ∀ t, w.current = some t → t.span.start < t.span.stop ∧ t.span.stop ≤ w.index
  ahead : ∀ t, w.ahead = some t → t.span.start < t.span.stop ∧ t.span.stop ≤ w.index
  apart : ∀ t u, w.current = some t → w.ahead = some u → t.span.stop ≤ u.span.start

theorem Tidy.inOrder {source : List Char} {floor : Nat} {w : Window} (tidy : w.Tidy source floor) :
    w.InOrder source where
  index := tidy.index_le
  current t present := ⟨(tidy.current t present).order, (tidy.current t present).high⟩
  ahead t present := ⟨(tidy.ahead t present).order, (tidy.ahead t present).high⟩
  apart := tidy.apart

/-- Whatever is called on the window of a text, and goes on being called after failures: what the window
shows is in order, the index never falls, and the tokens that are handed out cover parts of the text one
after the other. Once a character starts no token, every later call fails at it and the index stays. -/
theorem sessions_keep_order {source : List Char} {w : Window} (opened : ofChars source = .ok w)
    (calls : List Call) :
    (∀ v ∈ w :: (w.session calls).map Prod.snd, v.InOrder source) ∧
    (w.index :: (w.session calls).map fun r => r.2.index).Pairwise (· ≤ ·) ∧
    (∀ t ∈ delivered (w.session calls), t.span.start < t.span.stop ∧ t.span.stop ≤ source.length) ∧
    (delivered (w.session calls)).Pairwise (fun s t => s.span.stop ≤ t.span.start) ∧
    ∀ before place after later,
      w.session calls = before ++ (.failed (.unexpectedCharacter place), after) :: later →
      ∀ r ∈ later, r.1 = .failed (.unexpectedCharacter place) ∧ r.2.index = after.index := by
  have tidy := tidy_of_ofChars opened
  obtain ⟨inside, ordered⟩ := tidy.delivered_session calls
  refine ⟨?_, tidy.index_session calls, ?_, ordered, fun _ _ _ _ divided => tidy.stuck_session divided⟩
  · rw [List.forall_mem_cons, List.forall_mem_map]
    exact ⟨tidy.inOrder, fun r member => (tidy.session calls r member).inOrder⟩
  · exact fun t member => ⟨(inside t member).order, (inside t member).high⟩

/-- A token is handed out. Then one call fails at a literal that is no number, the next at a character that
starts no token, and the last at the same character. -/
theorem sessions_keep_order_after_failures :
    let source := ['x', ':', 'y', ' ', '9', 'z', '$']
    let calls : List Call := [.take, .advanceTwice, .take, .advance]
    ∃ w, ofChars source = .ok w ∧
      (w.session calls).map Prod.fst = [.taken (some ⟨.word "x", 0, 1⟩), .failed (.invalidNumber ⟨4, 6⟩),
        .failed (.unexpectedCharacter 6), .failed (.unexpectedCharacter 6)] ∧
      (w.index :: (w.session calls).map fun r => r.2.index) = [2, 3, 6, 6, 6] ∧
      ∀ v ∈ w :: (w.session calls).map Prod.snd, v.InOrder source := by
  intro source calls
  have stuck : Stream.scan 6 ['$'] = ⟨[], some 6⟩ := by
    rw [Stream.scan]
    rfl
  have number : Stream.scan 3 [' ', '9', 'z', '$'] = ⟨[.error (.invalidNumber ⟨4, 6⟩)], some 6⟩ :=
    (Stream.scan_eq_cons rfl rfl).trans (congrArg _ stuck)
  have word : Stream.scan 2 ['y', ' ', '9', 'z', '$'] =
      ⟨[.ok ⟨.word "y", 2, 3⟩, .error (.invalidNumber ⟨4, 6⟩)], some 6⟩ :=
    (Stream.scan_eq_cons rfl rfl).trans (congrArg _ number)
  have colon : Stream.scan 1 [':', 'y', ' ', '9', 'z', '$'] =
      ⟨[.ok ⟨.punct .colon, 1, 2⟩, .ok ⟨.word "y", 2, 3⟩, .error (.invalidNumber ⟨4, 6⟩)], some 6⟩ :=
    (Stream.scan_eq_cons rfl rfl).trans (congrArg _ word)
  have scanned : Stream.ofChars source =
      ⟨[.ok ⟨.word "x", 0, 1⟩, .ok ⟨.punct .colon, 1, 2⟩, .ok ⟨.word "y", 2, 3⟩,
        .error (.invalidNumber ⟨4, 6⟩)], some 6⟩ :=
    (Stream.scan_eq_cons rfl rfl).trans (congrArg _ colon)
  let w : Window := ⟨7, 2, some ⟨.word "x", 0, 1⟩, some ⟨.punct .colon, 1, 2⟩,
    ⟨[.ok ⟨.word "y", 2, 3⟩, .error (.invalidNumber ⟨4, 6⟩)], some 6⟩⟩
  have opened : ofChars source = .ok w := by
    rw [ofChars, scanned]
    rfl
  exact ⟨w, opened, rfl, rfl, (sessions_keep_order opened calls).1⟩

end Window

end CrossAsm
