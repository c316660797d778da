import CrossAsm.Proofs.Faultless
import CrossAsm.Proofs.Lexing
import CrossAsm.Proofs.LineGrammar
import CrossAsm.Proofs.Position

/-!
The grammar decides which source texts are accepted. Line after line, reading gives the instructions that
the grammar makes of a line, or one fault of it (`decides_lines`). So a text holds a program just if it is
scanned without fault and all its lines are well-formed, and if some are not, there is one report for each
of these (`accepts_iff_lines`).
-/
namespace CrossAsm

open Grammar

namespace Grammar

variable {place : Nat → Position} {ls : List SourceLine} {program : List Instruction}

theorem Lines.exists_line (lines : Lines place ls program) :
    ∀ l ∈ ls, ∃ instructions, Line place l.tokens instructions := by
  induction lines with
  | nil => simp
  | cons line _ ih => exact List.forall_mem_cons.mpr ⟨⟨_, line⟩, ih⟩

theorem Faults.eq_nil_of_lines {faults : List ParseFault} (blamed : Faults place ls faults)
    (lines : Lines place ls program) : faults = [] := by
  have sound := lines.exists_line
  clear lines
  induction blamed with
  | nil => rfl
  | sound _ _ ih => exact ih (List.forall_mem_cons.mp sound).2
  | malformed line =>
    obtain ⟨instructions, made⟩ := (List.forall_mem_cons.mp sound).1
    exact absurd made (line instructions)

/-- The word that an instruction begins with: the name of a label, or else a mnemonic. -/
def Begins (word : String) (op : Operation) : Prop :=
  op = .label word ∨ ∃ m, Spells word m ∧ op.mnemonic? = some m

/-- The operation that a mnemonic and its operands make has this mnemonic. -/
theorem Form.Admits.mnemonic? {m : Mnemonic} {tokens : List Token} {op : Operation}
    (admits : (form m).Admits tokens op) : op.mnemonic? = some m := by
  cases m <;> cases admits <;> rfl

/-- Each instruction of a line begins with one of its words, and stands where that word does. -/
theorem Line.exists_word {tokens : List Token} {instructions : List Instruction}
    (line : Line place tokens instructions) {i : Instruction} (member : i ∈ instructions) :
    ∃ t ∈ tokens, ∃ word, t.kind = .word word ∧ Begins word i.op ∧ i.pos = place t.span.start := by
  induction line with
  | blank => cases member
  | @label name t c rest instructions word colon later ih =>
    obtain rfl | further := List.mem_cons.mp member
    · exact ⟨t, List.mem_cons_self, name, word, .inl rfl, rfl⟩
    · obtain ⟨u, among, found⟩ := ih further
      exact ⟨u, List.mem_cons_of_mem _ (List.mem_cons_of_mem _ among), found⟩
  | @instruction word m t rest op named spelled operands =>
    cases List.mem_singleton.mp member
    exact ⟨t, List.mem_cons_self, word, named, .inr ⟨m, spelled, operands.mnemonic?⟩, rfl⟩

theorem Lines.exists_word (lines : Lines place ls program) {i : Instruction} (member : i ∈ program) :
    ∃ l ∈ ls, ∃ t ∈ l.tokens, ∃ word,
      t.kind = .word word ∧ Begins word i.op ∧ i.pos = place t.span.start := by
  induction lines with
  | nil => cases member
  | @cons l ls first rest line others ih =>
    obtain here | further := List.mem_append.mp member
    · exact ⟨l, List.mem_cons_self, line.exists_word here⟩
    · obtain ⟨other, among, found⟩ := ih further
      exact ⟨other, List.mem_cons_of_mem _ among, found⟩

end Grammar

namespace Reading

/-- What reading some lines has come to, in the light of the grammar. -/
structure LinesDecision (place : Nat → Position) (ls : List SourceLine)
    (result : List Instruction × List ParseFault) : Prop where
  faults : Faults place ls result.2
  only : result.2 = [] → ∀ program, Lines place ls program ↔ program = result.1

namespace LinesDecision

variable {place : Nat → Position} {l : SourceLine} {ls : List SourceLine}
  {result : List Instruction × List ParseFault}

theorem nil : LinesDecision place [] ([], []) := by
  refine ⟨.nil, ?_⟩
  intro _ program
  constructor
  · intro lines
    cases lines
    rfl
  · intro same
    rw [same]
    exact .nil

theorem sound {instructions : List Instruction} (holds : Line place l.tokens instructions)
    (only : ∀ other, Line place l.tokens other → other = instructions)
    (others : LinesDecision place ls result) :
    LinesDecision place (l :: ls) (instructions ++ result.1, result.2) := by
  refine ⟨.sound holds others.faults, ?_⟩
  intro none program
  have rest := others.only none
  constructor
  · intro lines
    cases lines with
    | cons line further => rw [only _ line, (rest _).mp further]
  · intro same
    rw [same]
    exact .cons holds ((rest _).mpr rfl)

theorem malformed {fault : ParseFault} (none : Malformed place l) (blamed : Blames l fault)
    (others : LinesDecision place ls result) :
    LinesDecision place (l :: ls) (result.1, fault :: result.2) := by
  refine ⟨.malformed none blamed others.faults, ?_⟩
  intro empty
  cases empty

end LinesDecision

/-- Reading all lines decides whether the grammar makes a program of them. -/
theorem decides_lines {place : Nat → Position} {places : LineMap} {w : Window} {tokens : List Token}
    (shows : w.Shows tokens)
    (placed : ∀ t ∈ tokens, places.position t.span.start = place t.span.start) :
    LinesDecision place (SourceLine.ofTokens w.length tokens) (lines places w) := by
  induction count : tokens.length using Nat.strongRecOn generalizing tokens w with
  | ind n ih =>
  obtain ⟨l, tail, rfl, length, inner, ends, same⟩ := SourceLine.ofTokens_eq w.length tokens
  obtain ⟨here, later⟩ := List.forall_mem_append.mp placed
  have decided := decides_line ⟨shows, length.symm, inner, ends⟩ here
  -- what follows the line is shorter by the line's end
  have rest {after : Window} (ended : Ended tail true after) :
      LinesDecision place (SourceLine.following tail) (lines places after) := by
    cases ended with
    | newline shown kept =>
      rw [SourceLine.following, ← kept]
      refine ih _ ?_ shown (List.forall_mem_cons.mp later).2 rfl
      rw [← count, List.length_append, List.length_cons]
      omega
  rw [same]
  generalize read : line places w = outcome at decided
  cases decided with
  | reads holds only ended =>
    rename_i instructions more after
    cases more with
    | true =>
      rw [lines_of_line read]
      exact .sound holds only (rest ended)
    | false =>
      cases ended with
      | last none =>
        rw [lines_of_last_line read, SourceLine.following, none, ← List.append_nil instructions]
        exact .sound holds only .nil
  | fails left blamed none =>
    rcases skipLine_within left with ⟨last, skipped⟩ | ⟨after, skipped, ended⟩
    · rw [lines_of_last_fault read skipped, SourceLine.following, last]
      exact .malformed none blamed .nil
    · rw [lines_of_fault read skipped]
      exact .malformed none blamed (rest ended)

end Reading

/-- Before an offset stand some whole lines and a part of a line, by which its position is counted. -/
theorem Position.exists_line {source : List Char} {offset : Nat} (inside : offset ≤ source.length) :
    ∃ front part, source.take offset = front ++ part ∧
      (front = [] ∨ front.getLast? = some '\n') ∧ '\n' ∉ part ∧ front.length + part.length = offset ∧
      ofOffset source offset =
        ⟨UInt32.ofNat (front.count '\n' + 1), UInt32.ofNat (part.length + 1)⟩ := by
  obtain ⟨front, part, before, whole, single, column⟩ :=
    LineMap.exists_lines_append (source.take offset)
  have reached : front.length + part.length = offset := by
    rw [← List.length_append, ← before, List.length_take]
    omega
  have line : (source.take offset).count '\n' = front.count '\n' := by
    rw [before, List.count_append, List.count_eq_zero.mpr single, Nat.add_zero]
  exact ⟨front, part, before, whole, single, reached, by rw [ofOffset, line, column]⟩

theorem LineMap.position_eq_ofOffset {source : List Char} {offset : Nat}
    (inside : offset ≤ source.length) :
    (ofChars source).position offset = .ofOffset source offset := by
  obtain ⟨front, part, before, whole, single, reached, place⟩ := Position.exists_line inside
  have found := position_of_line whole single (source.drop offset)
  rw [← List.append_assoc, ← before, List.take_append_drop, reached] at found
  rw [found, place]

theorem Window.length_of_ofChars {source : List Char} {w : Window} (opened : ofChars source = .ok w) :
    w.length = source.length := by
  unfold ofChars at opened
  split at opened
  next moved =>
    cases opened
    obtain ⟨middle, first, second⟩ := advanceTwice_eq_ok moved
    exact (length_advance second).trans (length_advance first)
  next => cases opened

/-- The instruction begins at this offset of the text, with the name of a label or a mnemonic. -/
def Instruction.StartsAt (source : List Char) (offset : Nat) (i : Instruction) : Prop :=
  i.pos = .ofOffset source offset ∧ ∃ word, Grammar.Begins word i.op ∧
    (Lexeme.word word).StandsAt source offset ∧
    .ok ⟨.word word, ⟨offset, offset + word.toList.length⟩⟩ ∈ (Token.Stream.ofChars source).items

namespace Program

variable {source : List Char} {tokens : List Token}

/-- What a text that is scanned without fault comes to. -/
theorem parse_of_tokens (scanned : Token.Stream.ofChars source = ⟨tokens.map .ok, none⟩) :
    (∃ program, parse source = .ok program ∧ ∀ other,
      Lines (.ofOffset source) (SourceLine.ofTokens source.length tokens) other ↔ other = program) ∨
    ∃ faults, parse source = .error faults ∧ faults ≠ [] ∧
      Faults (.ofOffset source) (SourceLine.ofTokens source.length tokens) faults := by
  obtain ⟨w, opened, shows⟩ := Window.shows_of_ofChars scanned
  have placed : ∀ t ∈ tokens,
      (LineMap.ofChars source).position t.span.start = .ofOffset source t.span.start := by
    intro t member
    have item : .ok t ∈ (Token.Stream.scan 0 source).items := by
      change .ok t ∈ (Token.Stream.ofChars source).items
      rw [scanned]
      exact List.mem_map_of_mem member
    have inside := Token.Stream.start_lt_of_mem_scan item
    exact LineMap.position_eq_ofOffset (by omega)
  have decided := Reading.decides_lines shows placed
  rw [Window.length_of_ofChars opened] at decided
  unfold parse
  rw [opened]
  dsimp only
  generalize Reading.lines (.ofChars source) w = result at decided
  obtain ⟨program, faults⟩ := result
  cases faults with
  | nil => exact .inl ⟨program, rfl, decided.only rfl⟩
  | cons fault faults => exact .inr ⟨fault :: faults, rfl, by simp, decided.faults⟩

/-- A text that can be scanned is read as the program that its lines make. -/
theorem parse_eq_ok_iff_lines {program : List Instruction}
    (scanned : Token.Stream.ofChars source = ⟨tokens.map .ok, none⟩) :
    parse source = .ok program ↔
      Lines (.ofOffset source) (SourceLine.ofTokens source.length tokens) program := by
  rcases parse_of_tokens scanned with ⟨made, read, only⟩ | ⟨faults, failed, some, blamed⟩
  · rw [read, only, Except.ok.injEq, eq_comm]
  · rw [failed]
    constructor
    · intro made
      cases made
    · intro lines
      exact absurd (blamed.eq_nil_of_lines lines) some

/-- Each instruction of a text has the position at which it starts. -/
theorem exists_startsAt {program : List Instruction} (parsed : parse source = .ok program)
    {i : Instruction} (member : i ∈ program) :
    ∃ offset, i.StartsAt source offset := by
  obtain ⟨tokens, scanned⟩ := faultless_of_parse parsed
  obtain ⟨l, among, t, here, word, named, begins, place⟩ :=
    ((parse_eq_ok_iff_lines scanned).mp parsed).exists_word member
  have item : .ok t ∈ (Token.Stream.ofChars source).items := by
    rw [scanned]
    exact List.mem_map_of_mem (SourceLine.mem_of_ofTokens _ _ l among t here).1
  obtain ⟨lexeme, stands, made⟩ := (Token.Stream.traces_ofChars source).exists_lexeme item
  obtain ⟨span, _, isWord⟩ := Lexeme.token_of_item? made
  obtain rfl := isWord word named
  have same : Token.mk (.word word) ⟨t.span.start, t.span.start + word.toList.length⟩ = t := by
    rw [← named]
    exact congrArg (Token.mk t.kind) span.symm
  refine ⟨t.span.start, place, word, begins, stands, ?_⟩
  rw [same]
  exact item

theorem ofSource_eq_ok_iff {name source : String} {program : List Instruction} :
    ofSource name source = .ok program ↔ parse source.toList = .ok program := by
  rw [ofSource_eq]
  cases parse source.toList with
  | ok made =>
    constructor
    · intro same
      cases same
      rfl
    · intro same
      cases same
      rfl
  | error faults =>
    constructor
    · intro same
      cases same
    · intro same
      cases same

end Program

end CrossAsm
