import CrossAsm.Proofs.Grammar
import CrossAsm.Proofs.OperationText

/-!
How reading decides on the rest of a line. A step `Decides` a relation between what is left of a line, a
value and what is left then: if the relation holds for some value, the step gives this value and takes
just these tokens, and otherwise it fails with a fault of the line and without leaving it. Steps in
sequence decide the relations in sequence, so what `operation` decides comes from the decisions on single
tokens; at the end of a line it is the grammar of operands (`operation_exact`).
-/
namespace CrossAsm

open Grammar

section Window

/-- What follows the tokens of a line, from its end on, in a text of so many characters. -/
structure Remainder where
  tokens : List Token
  length : Nat

/-- The line before ends at `stop`. -/
inductive Remainder.StartsAt (stop : Nat) : Remainder → Prop
  | last : StartsAt stop ⟨[], stop⟩
  | newline {t : Token} {rest : List Token} {length : Nat} (kind : t.kind = .newline)
    (same : t.span.start = stop) : StartsAt stop ⟨t :: rest, length⟩

/-- The window stands in a line of which this is left, before what follows the line. -/
structure Window.Within (w : Window) (l : SourceLine) (tail : Remainder) : Prop where
  shows : w.Shows (l.tokens ++ tail.tokens)
  length : w.length = tail.length
  inner : ∀ t ∈ l.tokens, t.kind ≠ .newline
  ends : tail.StartsAt l.stop

/-- Nothing more stands on the line. -/
def Window.AtEnd (w : Window) : Prop := ∀ t, w.current = some t → t.kind = .newline

theorem Window.length_advance {w after : Window} (moved : advance w = .ok () after) :
    after.length = w.length := by
  unfold advance at moved
  split at moved
  next outcome rest pulled =>
    cases outcome with
    | ok token =>
      cases moved
      rfl
    | error fault => cases moved

theorem Window.length_take {w after : Window} {token : Option Token}
    (taken : Window.take w = .ok token after) : after.length = w.length := by
  unfold Window.take at taken
  split at taken
  next moved =>
    cases taken
    exact length_advance moved
  next => cases taken

namespace Window.Within

variable {w : Window} {t : Token} {tokens : List Token} {tail : Remainder} {stop : Nat}

theorem current_cons (here : w.Within ⟨t :: tokens, stop⟩ tail) : w.current = some t :=
  here.shows.current

theorem take (here : w.Within ⟨t :: tokens, stop⟩ tail) :
    ∃ after, Reading.take w = .ok (some t) after ∧ after.Within ⟨tokens, stop⟩ tail := by
  obtain ⟨after, taken, shows⟩ := Reading.take_of_shows here.shows
  have length := Window.length_take (Reading.take_eq_ok taken)
  exact ⟨after, taken, shows, length.trans here.length, (List.forall_mem_cons.mp here.inner).2, here.ends⟩

/-- At the end of a line an operand is missing there. -/
theorem start_nil (here : w.Within ⟨[], stop⟩ tail) : w.start = stop := by
  have current := here.shows.current
  have length := here.length
  unfold Window.start
  cases here.ends with
  | last => simpa [current] using length
  | newline kind same => simpa [current] using same

theorem current_nil (here : w.Within ⟨[], stop⟩ tail) {t : Token} (present : w.current = some t) :
    t.kind = .newline := by
  have current := here.shows.current
  cases here.ends with
  | last => cases current.symm.trans present
  | newline kind =>
    cases current.symm.trans present
    exact kind

end Window.Within

end Window

namespace Reading

variable {α β : Type}

/-- What a step has come to on the rest of a line, in the light of a relation `S` between values and what
is left with them. -/
inductive Decision (S : α → List Token → Prop) (l : SourceLine) (tail : Remainder) :
    EStateM.Result ParseFault Window α → Prop
  | reads {a : α} {rest : List Token} {after : Window} (suffix : rest <:+ l.tokens)
    (left : after.Within ⟨rest, l.stop⟩ tail) (holds : S a rest)
    (only : ∀ b other, S b other → b = a ∧ other = rest) : Decision S l tail (.ok a after)
  | fails {fault : ParseFault} {rest : List Token} {after : Window}
    (left : after.Within ⟨rest, l.stop⟩ tail) (blamed : Blames l fault) (none : ∀ a rest, ¬ S a rest) :
    Decision S l tail (.error fault after)

def Decides (step : Reading α) (S : List Token → α → List Token → Prop) : Prop :=
  ∀ w l tail, w.Within l tail → Decision (S l.tokens) l tail (step w)

/-- One relation after another. -/
def Sequence (S : List Token → α → List Token → Prop) (T : α → List Token → β → List Token → Prop)
    (tokens : List Token) (b : β) (rest : List Token) : Prop :=
  ∃ a middle, S tokens a middle ∧ T a middle b rest

theorem Blames.of_suffix {tokens rest : List Token} {stop : Nat} (suffix : rest <:+ tokens)
    {fault : ParseFault} (blamed : Blames ⟨rest, stop⟩ fault) : Blames ⟨tokens, stop⟩ fault := by
  cases fault with
  | scan => exact blamed
  | missingOperand => exact blamed
  | unknownMnemonic span word => exact ⟨suffix.mem blamed.1, blamed.2⟩
  | unexpectedToken span | invalidOperand span =>
    obtain ⟨t, member, same⟩ := blamed
    exact ⟨t, suffix.mem member, same⟩

section Combinators

theorem Decides.pure (a : α) : Decides (Pure.pure a) fun tokens b rest => b = a ∧ rest = tokens := by
  intro w l tail here
  refine .reads (List.suffix_refl _) here ⟨rfl, rfl⟩ ?_
  intro b other same
  exact same

theorem Decides.bind {step : Reading α} {next : α → Reading β} {S : List Token → α → List Token → Prop}
    {T : α → List Token → β → List Token → Prop} (first : Decides step S)
    (second : ∀ a, Decides (next a) (T a)) : Decides (step >>= next) (Sequence S T) := by
  intro w l tail here
  have decided := first w l tail here
  change Decision _ l tail (EStateM.bind step next w)
  unfold EStateM.bind
  generalize step w = result at decided
  cases decided with
  | fails left blamed none =>
    refine .fails left blamed ?_
    rintro b rest ⟨a, middle, holds, _⟩
    exact none a middle holds
  | reads suffix left holds only =>
    rename_i a middle after
    have further := second a after ⟨middle, l.stop⟩ tail left
    dsimp only
    generalize next a after = result at further
    cases further with
    | fails left' blamed none =>
      refine .fails left' (Blames.of_suffix suffix blamed) ?_
      rintro b rest ⟨a', middle', holds', further⟩
      obtain ⟨rfl, rfl⟩ := only a' middle' holds'
      exact none b rest further
    | reads suffix' left' holds' only' =>
      refine .reads (suffix'.trans suffix) left' ⟨a, middle, holds, holds'⟩ ?_
      rintro b rest ⟨a', middle', earlier, further⟩
      obtain ⟨rfl, rfl⟩ := only a' middle' earlier
      exact only' b rest further

theorem Decides.congr {step : Reading α} {S T : List Token → α → List Token → Prop}
    (decides : Decides step S) (same : ∀ tokens a rest, S tokens a rest ↔ T tokens a rest) :
    Decides step T := by
  have equal : S = T := by
    funext tokens a rest
    exact propext (same tokens a rest)
  exact equal ▸ decides

end Combinators

section Tokens

/-- One token, with which `K` goes. -/
def One (K : Token → α → Prop) (tokens : List Token) (a : α) (rest : List Token) : Prop :=
  ∃ t, tokens = t :: rest ∧ K t a

/-- What is made of a token that has been taken: the one value that goes with it, or a fault. -/
inductive Verdict (K : α → Prop) (t : Token) : Reading α → Prop
  | accepts {a : α} (holds : K a) (only : ∀ b, K b → b = a) : Verdict K t (Pure.pure a)
  | refuses {fault : ParseFault} (blamed : ∀ rest stop, Blames ⟨t :: rest, stop⟩ fault)
    (none : ∀ a, ¬ K a) : Verdict K t (throw fault)

theorem takeOperand_of_cons {w : Window} {t : Token} {tokens : List Token} {tail : Remainder} {stop : Nat}
    (here : w.Within ⟨t :: tokens, stop⟩ tail) :
    ∃ after, takeOperand w = .ok t after ∧ after.Within ⟨tokens, stop⟩ tail := by
  obtain ⟨after, taken, left⟩ := here.take
  have current := here.current_cons
  have inner : t.kind ≠ .newline := here.inner t List.mem_cons_self
  refine ⟨after, ?_, left⟩
  unfold takeOperand
  rw [get_bind]
  simp only [current, inner, if_false, bind, EStateM.bind, taken]
  rfl

theorem takeOperand_of_atEnd {w : Window} (ends : w.AtEnd) :
    takeOperand w = .error (.missingOperand w.start) w := by
  unfold takeOperand
  rw [get_bind]
  cases current : w.current with
  | none => rfl
  | some t =>
    simp only [ends t current, if_true]
    rfl

theorem takeOperand_of_nil {w : Window} {tail : Remainder} {stop : Nat}
    (here : w.Within ⟨[], stop⟩ tail) : takeOperand w = .error (.missingOperand stop) w := by
  have ends : w.AtEnd := fun _ current => here.current_nil current
  rw [takeOperand_of_atEnd ends, here.start_nil]

theorem decides_one {next : Token → Reading α} {K : Token → α → Prop}
    (verdict : ∀ t, Verdict (K t) t (next t)) : Decides (takeOperand >>= next) (One K) := by
  intro w l tail here
  obtain ⟨tokens, stop⟩ := l
  change Decision _ _ _ (EStateM.bind takeOperand next w)
  unfold EStateM.bind
  cases tokens with
  | nil =>
    rw [takeOperand_of_nil here]
    refine .fails here rfl ?_
    rintro a rest ⟨t, absurd, _⟩
    cases absurd
  | cons t tokens =>
    obtain ⟨after, taken, left⟩ := takeOperand_of_cons here
    rw [taken]
    dsimp only
    have judged := verdict t
    generalize next t = result at judged
    cases judged with
    | accepts holds only =>
      refine .reads (List.suffix_cons t tokens) left ⟨t, rfl, holds⟩ ?_
      rintro b other ⟨t', same, holds'⟩
      cases same
      exact ⟨only b holds', rfl⟩
    | refuses blamed none =>
      refine .fails left (blamed tokens stop) ?_
      rintro a rest ⟨t', same, holds'⟩
      cases same
      exact none a holds'

theorem blames_token {t : Token} (rest : List Token) (stop : Nat) (wanted : OperandClass) :
    Blames ⟨t :: rest, stop⟩ (.invalidOperand t.span wanted) :=
  ⟨t, List.mem_cons_self, rfl⟩

theorem decides_register : Decides register (One IsRegister) := by
  refine decides_one fun t => ?_
  obtain ⟨kind, span⟩ := t
  cases kind with
  | word name =>
    dsimp only
    cases found : Token.register? name with
    | some n =>
      refine .accepts ⟨name, rfl, found⟩ ?_
      rintro ⟨m⟩ ⟨word, same, named⟩
      cases same
      cases found.symm.trans named
      rfl
    | none =>
      refine .refuses (fun _ _ => blames_token ..) ?_
      rintro r ⟨word, same, named⟩
      cases same
      cases found.symm.trans named
  | number | punct | newline =>
    refine .refuses (fun _ _ => blames_token ..) ?_
    rintro r ⟨word, same, _⟩
    cases same

theorem decides_operand : Decides operand (One IsOperand) := by
  refine decides_one fun t => ?_
  obtain ⟨kind, span⟩ := t
  cases kind with
  | number n =>
    refine .accepts (.imm rfl) ?_
    rintro b (⟨word, same, _⟩ | same)
    · cases same
    · cases same
      rfl
  | word name =>
    dsimp only
    cases found : Token.register? name with
    | some n =>
      refine .accepts (.reg ⟨name, rfl, found⟩) ?_
      rintro b (⟨word, same, named⟩ | same)
      · cases same
        cases found.symm.trans named
        rfl
      · cases same
    | none =>
      refine .refuses (fun _ _ => blames_token ..) ?_
      rintro b (⟨word, same, named⟩ | same)
      · cases same
        cases found.symm.trans named
      · cases same
  | punct | newline =>
    refine .refuses (fun _ _ => blames_token ..) ?_
    rintro b (⟨word, same, _⟩ | same)
    · cases same
    · cases same

theorem decides_number : Decides number (One IsNumber) := by
  refine decides_one fun t => ?_
  obtain ⟨kind, span⟩ := t
  cases kind with
  | number n =>
    refine .accepts rfl ?_
    intro m same
    cases same
    rfl
  | word | punct | newline =>
    refine .refuses (fun _ _ => blames_token ..) ?_
    intro m same
    cases same

theorem decides_symbol : Decides symbol (One IsSymbol) := by
  refine decides_one fun t => ?_
  obtain ⟨kind, span⟩ := t
  cases kind with
  | word name =>
    dsimp only
    cases found : Token.register? name with
    | some n =>
      refine .refuses (fun _ _ => blames_token ..) ?_
      rintro other ⟨same, unnamed⟩
      cases same
      cases found.symm.trans unnamed
    | none =>
      refine .accepts ⟨rfl, found⟩ ?_
      rintro other ⟨same, _⟩
      cases same
      rfl
  | number | punct | newline =>
    refine .refuses (fun _ _ => blames_token ..) ?_
    rintro other ⟨same, _⟩
    cases same

theorem decides_punct (p : Punct) (wanted : Expected) :
    Decides (punct p wanted) (One fun t _ => Is p t) := by
  refine decides_one fun t => ?_
  by_cases same : t.kind = .punct p
  · simp only [same, if_true]
    exact .accepts same fun _ _ => rfl
  · simp only [same, if_false]
    exact .refuses (fun _ _ => ⟨t, List.mem_cons_self, rfl⟩) fun _ => same

theorem decides_comma : Decides comma (One fun t _ => Is .comma t) := decides_punct _ _

/-- A comma, if one is next. -/
inductive OptionalComma : List Token → Bool → List Token → Prop
  | present {c : Token} {rest : List Token} (comma : Is .comma c) : OptionalComma (c :: rest) true rest
  | absent {tokens : List Token} (other : ∀ t ∈ tokens.head?, ¬ Is .comma t) :
    OptionalComma tokens false tokens

theorem comma?_of_other {w : Window} (other : ∀ t, w.current = some t → ¬ Is .comma t) :
    comma? w = .ok false w := by
  unfold comma?
  rw [get_bind]
  cases current : w.current with
  | none => rfl
  | some t =>
    obtain ⟨kind, span⟩ := t
    cases kind with
    | punct p =>
      cases p with
      | comma => exact absurd rfl (other _ current)
      | _ => rfl
    | _ => rfl

theorem comma?_of_comma {w after : Window} {t : Token} {token : Option Token}
    (current : w.current = some t) (comma : Is .comma t) (taken : take w = .ok token after) :
    comma? w = .ok true after := by
  obtain ⟨kind, span⟩ := t
  cases comma
  unfold comma?
  rw [get_bind]
  simp only [current, bind, EStateM.bind, taken]
  rfl

theorem decides_comma? : Decides comma? OptionalComma := by
  intro w l tail here
  obtain ⟨tokens, stop⟩ := l
  cases tokens with
  | nil =>
    have ran : comma? w = .ok false w := by
      apply comma?_of_other
      intro t current comma
      cases (here.current_nil current).symm.trans comma
    rw [ran]
    refine .reads (List.suffix_refl _) here (.absent (by simp)) ?_
    intro b other decided
    cases decided
    exact ⟨rfl, rfl⟩
  | cons t tokens =>
    by_cases comma : Is .comma t
    · obtain ⟨after, taken, left⟩ := here.take
      rw [comma?_of_comma here.current_cons comma taken]
      refine .reads (List.suffix_cons t tokens) left (.present comma) ?_
      intro b other decided
      cases decided with
      | present => exact ⟨rfl, rfl⟩
      | absent none => exact absurd comma (none t rfl)
    · have ran : comma? w = .ok false w := by
        apply comma?_of_other
        intro u current
        cases here.current_cons.symm.trans current
        exact comma
      rw [ran]
      refine .reads (List.suffix_refl _) here (.absent (by simpa using comma)) ?_
      intro b other decided
      cases decided with
      | present this => exact absurd this comma
      | absent => exact ⟨rfl, rfl⟩

end Tokens

section Operands

/-- At the end of a line the step decides on `G`. -/
def Exact (step : Reading α) (G : List Token → α → Prop) : Prop :=
  ∃ S, Decides step S ∧ ∀ tokens a, S tokens a [] ↔ G tokens a

variable {first : Reading α} {second : Reading β} {K : Token → α → Prop} {L : Token → β → Prop}

theorem exact_one {make : α → Operation} {G : List Token → Operation → Prop}
    (decides : Decides first (One K)) (made : ∀ {a x}, K a x → G [a] (make x))
    (split : ∀ {tokens op}, G tokens op → ∃ a x, tokens = [a] ∧ K a x ∧ op = make x) :
    Exact (do return make (← first)) G := by
  refine ⟨_, decides.bind fun x => .pure (make x), fun tokens op => ⟨?_, ?_⟩⟩
  · rintro ⟨x, _, ⟨a, rfl, holds⟩, rfl, rfl⟩
    exact made holds
  · intro holds
    obtain ⟨a, x, rfl, hx, rfl⟩ := split holds
    exact ⟨x, [], ⟨a, rfl, hx⟩, rfl, rfl⟩

/-- Two operands and a comma between them. -/
theorem exact_pair {make : α → β → Operation} {G : List Token → Operation → Prop}
    (one : Decides first (One K)) (other : Decides second (One L))
    (made : ∀ {a c b x y}, K a x → Is .comma c → L b y → G [a, c, b] (make x y))
    (split : ∀ {tokens op}, G tokens op →
      ∃ a c b x y, tokens = [a, c, b] ∧ K a x ∧ Is .comma c ∧ L b y ∧ op = make x y) :
    Exact (do let x ← first; comma; return make x (← second)) G := by
  refine ⟨_, one.bind fun x => decides_comma.bind fun _ => other.bind fun y => .pure (make x y),
    fun tokens op => ⟨?_, ?_⟩⟩
  · rintro ⟨x, _, ⟨a, rfl, hx⟩, _, _, ⟨c, rfl, hc⟩, y, _, ⟨b, rfl, hy⟩, rfl, rfl⟩
    exact made hx hc hy
  · intro holds
    obtain ⟨a, c, b, x, y, rfl, hx, hc, hy, rfl⟩ := split holds
    exact ⟨x, _, ⟨a, rfl, hx⟩, (), _, ⟨c, rfl, hc⟩, y, _, ⟨b, rfl, hy⟩, rfl, rfl⟩

theorem exact_nothing (op : Operation) : Exact (pure op) (Form.nothing op).Admits := by
  refine ⟨_, .pure op, fun tokens other => ⟨?_, ?_⟩⟩
  · rintro ⟨rfl, rfl⟩
    exact .nothing
  · rintro ⟨⟩
    exact ⟨rfl, rfl⟩

theorem exact_register (make : Register → Operation) :
    Exact (do return make (← register)) (Form.register make).Admits := by
  refine exact_one decides_register .register ?_
  intro tokens op admitted
  cases admitted with
  | register only => exact ⟨_, _, rfl, only, rfl⟩

theorem exact_symbol (make : String → Operation) :
    Exact (do return make (← symbol)) (Form.symbol make).Admits := by
  refine exact_one decides_symbol .symbol ?_
  intro tokens op admitted
  cases admitted with
  | symbol only => exact ⟨_, _, rfl, only, rfl⟩

theorem exact_number (make : Int64 → Operation) :
    Exact (do return make (← number)) (Form.number make).Admits := by
  refine exact_one decides_number .number ?_
  intro tokens op admitted
  cases admitted with
  | number only => exact ⟨_, _, rfl, only, rfl⟩

theorem exact_symbolAndNumber (make : String → Int64 → Operation) :
    Exact (do let name ← symbol; comma; return make name (← number))
      (Form.symbolAndNumber make).Admits := by
  refine exact_pair decides_symbol decides_number .symbolAndNumber ?_
  intro tokens op admitted
  cases admitted with
  | symbolAndNumber hx hc hy => exact ⟨_, _, _, _, _, rfl, hx, hc, hy, rfl⟩

theorem exact_symbolAndOperand (make : String → Operand → Operation) :
    Exact (do let name ← symbol; comma; return make name (← operand))
      (Form.symbolAndOperand make).Admits := by
  refine exact_pair decides_symbol decides_operand .symbolAndOperand ?_
  intro tokens op admitted
  cases admitted with
  | symbolAndOperand hx hc hy => exact ⟨_, _, _, _, _, rfl, hx, hc, hy, rfl⟩

theorem exact_registerAndSymbol (make : Register → String → Operation) :
    Exact (do let r ← register; comma; return make r (← symbol))
      (Form.registerAndSymbol make).Admits := by
  refine exact_pair decides_register decides_symbol .registerAndSymbol ?_
  intro tokens op admitted
  cases admitted with
  | registerAndSymbol hx hc hy => exact ⟨_, _, _, _, _, rfl, hx, hc, hy, rfl⟩

theorem exact_numberAndSymbol (make : Int64 → String → Operation) :
    Exact (do let n ← number; comma; return make n (← symbol))
      (Form.numberAndSymbol make).Admits := by
  refine exact_pair decides_number decides_symbol .numberAndSymbol ?_
  intro tokens op admitted
  cases admitted with
  | numberAndSymbol hx hc hy => exact ⟨_, _, _, _, _, rfl, hx, hc, hy, rfl⟩

theorem exact_registerAndOperand (make : Register → Operand → Operation) :
    Exact (do let (dest, src) ← registerAndOperand; return make dest src)
      (Form.registerAndOperand make).Admits := by
  refine ⟨_, (decides_register.bind fun r => decides_comma.bind fun _ =>
    decides_operand.bind fun src => .pure (r, src)).bind fun v => .pure (make v.1 v.2),
    fun tokens op => ⟨?_, ?_⟩⟩
  · rintro ⟨_, _, ⟨x, _, ⟨a, rfl, hx⟩, _, _, ⟨c, rfl, hc⟩, y, _, ⟨b, rfl, hy⟩, rfl, rfl⟩, rfl, rfl⟩
    exact .registerAndOperand hx hc hy
  · intro admitted
    cases admitted with
    | registerAndOperand hx hc hy =>
      exact ⟨_, _, ⟨_, _, ⟨_, rfl, hx⟩, (), _, ⟨_, rfl, hc⟩, _, _, ⟨_, rfl, hy⟩, rfl, rfl⟩, rfl, rfl⟩

/-- A register in brackets. -/
theorem decides_pointer : Decides pointer fun tokens r rest =>
    ∃ o a e, tokens = o :: a :: e :: rest ∧ Is .left o ∧ IsRegister a r ∧ Is .right e := by
  refine Decides.congr ((decides_punct _ _).bind fun _ => decides_register.bind fun r =>
    (decides_punct _ _).bind fun _ => .pure r) fun tokens r rest => ⟨?_, ?_⟩
  · rintro ⟨_, _, ⟨o, rfl, ho⟩, r, _, ⟨a, rfl, hr⟩, _, _, ⟨e, rfl, he⟩, rfl, rfl⟩
    exact ⟨o, a, e, rfl, ho, hr, he⟩
  · rintro ⟨o, a, e, rfl, ho, hr, he⟩
    exact ⟨(), _, ⟨o, rfl, ho⟩, r, _, ⟨a, rfl, hr⟩, (), _, ⟨e, rfl, he⟩, rfl, rfl⟩

theorem exact_registerAndPointer (make : Register → Register → Operation) :
    Exact (do let r ← register; comma; return make r (← pointer))
      (Form.registerAndPointer make).Admits := by
  refine ⟨_, decides_register.bind fun r => decides_comma.bind fun _ =>
    decides_pointer.bind fun p => .pure (make r p), fun tokens op => ⟨?_, ?_⟩⟩
  · rintro ⟨x, _, ⟨a, rfl, hx⟩, _, _, ⟨c, rfl, hc⟩, p, _, ⟨o, b, e, rfl, ho, hp, he⟩, rfl, rfl⟩
    exact .registerAndPointer hx hc ho hp he
  · intro admitted
    cases admitted with
    | registerAndPointer hx hc ho hp he =>
      exact ⟨_, _, ⟨_, rfl, hx⟩, (), _, ⟨_, rfl, hc⟩, _, _, ⟨_, _, _, rfl, ho, hp, he⟩, rfl, rfl⟩

theorem exact_pointerAndOperand (make : Register → Operand → Operation) :
    Exact (do let p ← pointer; comma; return make p (← operand))
      (Form.pointerAndOperand make).Admits := by
  refine ⟨_, decides_pointer.bind fun p => decides_comma.bind fun _ =>
    decides_operand.bind fun src => .pure (make p src), fun tokens op => ⟨?_, ?_⟩⟩
  · rintro ⟨p, _, ⟨o, a, e, rfl, ho, hp, he⟩, _, _, ⟨c, rfl, hc⟩, y, _, ⟨b, rfl, hy⟩, rfl, rfl⟩
    exact .pointerAndOperand ho hp he hc hy
  · intro admitted
    cases admitted with
    | pointerAndOperand ho hp he hc hy =>
      exact ⟨_, _, ⟨_, _, _, rfl, ho, hp, he⟩, (), _, ⟨_, rfl, hc⟩, _, _, ⟨_, rfl, hy⟩, rfl, rfl⟩

/-- The number, after the comma that announces it. -/
def Announced (make : Option Int64 → Operation) (comma : Bool) (tokens : List Token) (op : Operation)
    (rest : List Token) : Prop :=
  if comma then
    Sequence (One IsNumber) (fun n tokens op rest => op = make (some n) ∧ rest = tokens) tokens op rest
  else op = make none ∧ rest = tokens

theorem exact_symbolAndNumber? (make : String → Option Int64 → Operation) :
    Exact (do
      let name ← symbol
      if ← comma? then return make name (some (← number)) else return make name none)
      (Form.symbolAndNumber? make).Admits := by
  refine ⟨Sequence (One IsSymbol) fun name => Sequence OptionalComma (Announced (make name)),
    decides_symbol.bind fun name => decides_comma?.bind fun comma => ?_, fun tokens op => ⟨?_, ?_⟩⟩
  · cases comma with
    | true => exact decides_number.bind fun n => .pure (make name (some n))
    | false => exact .pure (make name none)
  · rintro ⟨name, _, ⟨a, rfl, hx⟩, comma, _, optional, announced⟩
    cases optional with
    | present hc =>
      obtain ⟨n, _, ⟨b, rfl, hy⟩, rfl, rfl⟩ := announced
      exact .symbolAndNumber? hx hc hy
    | absent none =>
      obtain ⟨rfl, rfl⟩ := announced
      exact .symbolAlone hx
  · intro admitted
    cases admitted with
    | symbolAlone hx => exact ⟨_, _, ⟨_, rfl, hx⟩, false, [], .absent (by simp), rfl, rfl⟩
    | symbolAndNumber? hx hc hy =>
      exact ⟨_, _, ⟨_, rfl, hx⟩, true, _, .present hc, _, _, ⟨_, rfl, hy⟩, rfl, rfl⟩

theorem operation_exact (m : Mnemonic) : Exact (operation m) (form m).Admits := by
  cases m with
  | mov => exact exact_registerAndOperand .mov
  | binary op => exact exact_registerAndOperand (.binary op)
  | product op => exact exact_registerAndOperand (.product op)
  | shift dir => exact exact_registerAndOperand (.shift dir)
  | cmp => exact exact_registerAndOperand .cmp
  | load => exact exact_registerAndPointer .load
  | store => exact exact_pointerAndOperand .store
  | unary op => exact exact_register (.unary op)
  | push => exact exact_register .push
  | pop => exact exact_register .pop
  | jmp => exact exact_symbol .jmp
  | branch condition => exact exact_symbol (.branch condition)
  | call => exact exact_symbol .call
  | ret | halt | nop => exact exact_nothing _
  | int => exact exact_number .int
  | org => exact exact_number .org
  | bit op => exact exact_number (.bit op)
  | var => exact exact_symbolAndNumber? .var
  | buffer => exact exact_symbolAndNumber .buffer
  | set => exact exact_symbolAndOperand .set
  | get => exact exact_registerAndSymbol .get
  | bitBranch ifSet => exact exact_numberAndSymbol (.bitBranch ifSet)
  | djnz => exact exact_registerAndSymbol .djnz

end Operands

end Reading

end CrossAsm
