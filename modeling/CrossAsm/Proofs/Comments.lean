import CrossAsm.Proofs.SourceGrammar
import CrossAsm.Proofs.SourceTokens
import Mathlib.Data.List.Forall2

/-!
Comments are not read. The scans of a text and of the text without its comments go on side by side: a
comment ends what runs on before it just as the line's end does, so the tokens are of the same kinds, and
within a line they stand at the same place (`matches_scan`). What is made of a line depends on no more than
that (`Line.of_matches`), so both texts hold the same program or none.
-/
namespace CrossAsm

/-- The text without its comments, each from a semicolon up to the end of its line. -/
def withoutComments (inComment : Bool) : List Char → List Char
  | [] => []
  | c :: cs =>
    if c = '\n' then c :: withoutComments false cs
    else if inComment || c == ';' then withoutComments true cs
    else c :: withoutComments false cs

section WithoutComments

variable {c : Char} {cs : List Char}

theorem withoutComments_semicolon (cs : List Char) :
    withoutComments false (';' :: cs) = withoutComments true cs := by
  simp [withoutComments]

theorem withoutComments_cons (visible : c ≠ ';') (cs : List Char) :
    withoutComments false (c :: cs) = c :: withoutComments false cs := by
  simp [withoutComments, visible]

/-- Every line ends at its first semicolon, and the first line before it starts if a comment runs on. -/
theorem splitOn_withoutComments (inComment : Bool) (source : List Char) :
    (withoutComments inComment source).splitOn '\n' =
      ((source.splitOn '\n').map (List.takeWhile (· ≠ ';'))).modifyHead
        fun line => if inComment then [] else line := by
  induction source generalizing inComment with
  | nil => simp [withoutComments]
  | cons c cs ih =>
    obtain ⟨line, lines, divided⟩ := List.exists_cons_of_ne_nil (List.splitOn_ne_nil '\n' cs)
    rw [withoutComments, List.splitOn_cons_eq_if_modifyHead]
    by_cases newline : c = '\n'
    · simp [newline, List.splitOn_cons_eq_if_modifyHead, ih false, divided]
    · cases inComment with
      | true => simp [newline, ih true, divided]
      | false =>
        by_cases semicolon : c = ';'
        · simp [semicolon, ih true, divided]
        · simp [newline, semicolon, List.splitOn_cons_eq_if_modifyHead, ih false, divided]

/-- After a comment the line ends. -/
theorem head?_withoutComments_true (cs : List Char) :
    ∀ d ∈ (withoutComments true cs).head?, d = '\n' := by
  induction cs with
  | nil => simp [withoutComments]
  | cons c cs ih =>
    by_cases newline : c = '\n'
    · simp [withoutComments, newline]
    · simpa [withoutComments, newline] using ih

theorem withoutComments_append {part : List Char} (free : ';' ∉ part) (rest : List Char) :
    withoutComments false (part ++ rest) = part ++ withoutComments false rest := by
  induction part with
  | nil => rfl
  | cons c part ih =>
    rw [List.mem_cons, not_or] at free
    rw [List.cons_append, withoutComments_cons (Ne.symm free.1), ih free.2, List.cons_append]

/-- What runs on stops at a comment as it does at the end of the line. -/
theorem takeWhile_withoutComments {p : Char → Bool} (semicolon : p ';' = false) (newline : p '\n' = false)
    (cs : List Char) :
    (withoutComments false cs).takeWhile p = cs.takeWhile p ∧
      (withoutComments false cs).dropWhile p = withoutComments false (cs.dropWhile p) := by
  induction cs with
  | nil => simp [withoutComments]
  | cons c cs ih =>
    by_cases comment : c = ';'
    · rw [comment, List.takeWhile_cons_of_neg (by simp [semicolon]),
        List.dropWhile_cons_of_neg (by simp [semicolon]), withoutComments_semicolon]
      have ends := head?_withoutComments_true cs
      cases left : withoutComments true cs with
      | nil => exact ⟨rfl, rfl⟩
      | cons d rest =>
        rw [left] at ends
        have stop : p d = false := by
          rw [ends d rfl]
          exact newline
        simp [stop]
    · rw [withoutComments_cons comment]
      cases goesOn : p c with
      | true => simpa [goesOn] using ih
      | false => simp [goesOn, withoutComments_cons comment]

theorem startsNumber_withoutComments (c : Char) (cs : List Char) :
    Token.startsNumber c (withoutComments false cs) = Token.startsNumber c cs := by
  unfold Token.startsNumber
  cases cs with
  | nil => rfl
  | cons d cs =>
    by_cases comment : d = ';'
    · have digit : (withoutComments true cs).head?.any Char.isDigit = false := by
        cases first : (withoutComments true cs).head? with
        | none => rfl
        | some e =>
          rw [head?_withoutComments_true cs e first]
          rfl
      rw [comment, withoutComments_semicolon, digit]
      rfl
    · rw [withoutComments_cons comment]
      rfl

end WithoutComments

/-- What is made of a lexeme at two offsets: both times a token of one kind, or both times a fault. -/
theorem Lexeme.items_of_visible {l : Lexeme} (visible : l ≠ blank) (offset offset' : Nat) :
    (∃ kind span span', span.start = offset ∧ span'.start = offset' ∧
      l.item? offset = some (.ok ⟨kind, span⟩) ∧ l.item? offset' = some (.ok ⟨kind, span'⟩)) ∨
    ∃ fault fault', l.item? offset = some (.error fault) ∧ l.item? offset' = some (.error fault') := by
  cases l with
  | blank => exact absurd rfl visible
  | word | punct | newline => exact .inl ⟨_, _, _, rfl, rfl, rfl, rfl⟩
  | number literal =>
    unfold item?
    dsimp only
    cases Numeral.parse? literal with
    | some n => exact .inl ⟨_, ⟨offset, _⟩, ⟨offset', _⟩, rfl, rfl, rfl, rfl⟩
    | none => exact .inr ⟨_, _, rfl, rfl⟩

theorem Lexeme.semicolon_not_mem_chars {l : Lexeme} (valid : l.Valid) (visible : l ≠ blank) :
    ';' ∉ l.chars := by
  by_cases newline : l = .newline
  · rw [newline]
    simp [chars]
  · intro member
    exact (solid_of_mem_chars valid visible newline _ member).2 rfl

namespace Token

variable {offset : Nat} {c : Char} {cs : List Char}

/-- The lexeme at a character is the same without the comments after it. -/
theorem lexeme?_withoutComments (offset : Nat) (c : Char) (cs : List Char) :
    lexeme? offset c (withoutComments false cs) = (lexeme? offset c cs).map fun found =>
      (found.1, found.2.1, withoutComments false found.2.2) := by
  obtain ⟨word, afterWord⟩ := takeWhile_withoutComments (p := continuesWord) rfl rfl cs
  obtain ⟨number, afterNumber⟩ := takeWhile_withoutComments (p := Char.isAlphanum) rfl rfl cs
  unfold lexeme?
  rw [word, afterWord, number, afterNumber, startsNumber_withoutComments]
  split
  next => rfl
  next =>
    split
    next => rfl
    next =>
      split
      next => rfl
      next =>
        split
        next => rfl
        next => rfl

/-- What is read at a character is a lexeme, and the same one without the comments after it, wherever the
character then stands. -/
theorem exists_lexeme_withoutComments {item : Except ScanFault Token} {stop : Nat} {rest : List Char}
    (lexed : lexeme? offset c cs = some (item, stop, rest)) :
    ∃ l : Lexeme, l.Valid ∧ l ≠ .blank ∧ c :: cs = l.chars ++ rest ∧ l.item? offset = some item ∧
      stop = offset + l.chars.length ∧ ∀ place, lexeme? place c (withoutComments false cs) =
        (l.item? place).map fun made => (made, place + l.chars.length, withoutComments false rest) := by
  obtain ⟨l, valid, visible, spelled, everywhere⟩ := lexeme?_eq_map_item? lexed
  obtain ⟨made, given, found⟩ := Option.map_eq_some_iff.mp ((everywhere offset).symm.trans lexed)
  cases found
  refine ⟨l, valid, visible, spelled, given, rfl, ?_⟩
  intro place
  rw [lexeme?_withoutComments, everywhere, Option.map_map]
  rfl

/-- Whether a lexeme stands at a character does not depend on the offset. -/
theorem lexeme?_eq_none (absent : lexeme? offset c cs = none) (place : Nat) :
    lexeme? place c cs = none := by
  cases lexed : lexeme? place c cs with
  | none => rfl
  | some found =>
    obtain ⟨item, stop, rest⟩ := found
    obtain ⟨l, _, visible, _, everywhere⟩ := lexeme?_eq_map_item? lexed
    rw [everywhere] at absent
    rcases Lexeme.items_of_visible visible offset place with ⟨_, _, _, _, _, made, _⟩ | ⟨_, _, made, _⟩
    · cases made.symm.trans (Option.map_eq_none_iff.mp absent)
    · cases made.symm.trans (Option.map_eq_none_iff.mp absent)

/-- Before `rest` the one gap is passed over in a text, and the other in the text without its comments. They
differ by a comment, and then the line ends. -/
structure Gaps (inComment : Bool) (cs rest gap gap' : List Char) : Prop where
  single : '\n' ∉ gap
  single' : '\n' ∉ gap'
  spelled : cs = gap ++ rest
  spelled' : withoutComments inComment cs = gap' ++ withoutComments false rest
  skipped : ∀ place, skipBlank inComment place cs = (place + gap.length, rest)
  skipped' : ∀ place, skipBlank false place (withoutComments inComment cs) =
    (place + gap'.length, withoutComments false rest)
  shown : ∀ d ∈ rest.head?, d ≠ ';'
  same : inComment = false ∧ gap' = gap ∨ ∀ d ∈ rest.head?, d = '\n'

namespace Gaps

variable {inComment : Bool} {rest gap gap' : List Char}

theorem nil (inComment : Bool) : Gaps inComment [] [] [] [] := by
  constructor <;> simp [skipBlank, withoutComments]

theorem newline (inComment : Bool) (cs : List Char) :
    Gaps inComment ('\n' :: cs) ('\n' :: cs) [] [] := by
  constructor <;> simp [skipBlank, withoutComments]

theorem solid (plain : c ≠ '\n') (uncommented : c ≠ ';') (visible : isBlank c = false) (cs : List Char) :
    Gaps false (c :: cs) (c :: cs) [] [] := by
  constructor <;> simp [skipBlank, withoutComments, plain, uncommented, visible]

/-- A character of a comment. -/
theorem comment (plain : c ≠ '\n') (commented : inComment || c == ';') (gaps : Gaps true cs rest gap gap') :
    Gaps inComment (c :: cs) rest (c :: gap) gap' := by
  have bare : withoutComments inComment (c :: cs) = withoutComments true cs := by
    rw [withoutComments, if_neg plain, if_pos commented]
  refine ⟨?_, gaps.single', ?_, ?_, ?_, ?_, gaps.shown, ?_⟩
  · simpa [eq_comm] using ⟨plain, gaps.single⟩
  · rw [gaps.spelled, List.cons_append]
  · rw [bare, gaps.spelled']
  · intro place
    rw [skipBlank, if_neg plain, if_pos commented, gaps.skipped, List.length_cons]
    ac_rfl
  · rw [bare]
    exact gaps.skipped'
  · rcases gaps.same with ⟨unopened, _⟩ | ends
    · cases unopened
    · exact .inr ends

theorem blank (plain : c ≠ '\n') (uncommented : c ≠ ';') (invisible : isBlank c)
    (gaps : Gaps false cs rest gap gap') : Gaps false (c :: cs) rest (c :: gap) (c :: gap') := by
  have bare := withoutComments_cons uncommented cs
  have skip (place : Nat) (cs : List Char) :
      skipBlank false place (c :: cs) = skipBlank false (place + 1) cs := by
    simp [skipBlank, plain, uncommented, invisible]
  refine ⟨?_, ?_, ?_, ?_, ?_, ?_, gaps.shown, ?_⟩
  · simpa [eq_comm] using ⟨plain, gaps.single⟩
  · simpa [eq_comm] using ⟨plain, gaps.single'⟩
  · rw [gaps.spelled, List.cons_append]
  · rw [bare, gaps.spelled', List.cons_append]
  · intro place
    rw [skip, gaps.skipped, List.length_cons]
    ac_rfl
  · intro place
    rw [bare, skip, gaps.skipped', List.length_cons]
    ac_rfl
  · rcases gaps.same with ⟨_, same⟩ | ends
    · exact .inl ⟨rfl, by rw [same]⟩
    · exact .inr ends

end Gaps

theorem exists_gaps (inComment : Bool) (cs : List Char) :
    ∃ rest gap gap', Gaps inComment cs rest gap gap' := by
  induction cs generalizing inComment with
  | nil => exact ⟨_, _, _, .nil inComment⟩
  | cons c cs ih =>
    by_cases newline : c = '\n'
    · rw [newline]
      exact ⟨_, _, _, .newline inComment cs⟩
    · by_cases commented : inComment || c == ';'
      · obtain ⟨rest, gap, gap', gaps⟩ := ih true
        exact ⟨_, _, _, gaps.comment newline commented⟩
      · simp only [Bool.or_eq_true, beq_iff_eq, not_or, Bool.not_eq_true] at commented
        obtain ⟨rfl, uncommented⟩ := commented
        cases blank : isBlank c with
        | true =>
          obtain ⟨rest, gap, gap', gaps⟩ := ih false
          exact ⟨_, _, _, gaps.blank newline uncommented blank⟩
        | false => exact ⟨_, _, _, .solid newline uncommented blank cs⟩

end Token

/-- After both texts a line goes on at the same place. -/
structure SamePlace (front front' : List Char) : Prop where
  line : front'.count '\n' = front.count '\n'
  column : front'.reverse.takeWhile (· ≠ '\n') = front.reverse.takeWhile (· ≠ '\n')

namespace SamePlace

variable {front front' : List Char}

theorem append (same : SamePlace front front') (part : List Char) :
    SamePlace (front ++ part) (front' ++ part) where
  line := by rw [List.count_append, List.count_append, same.line]
  column := by
    rw [List.reverse_append, List.reverse_append, List.takeWhile_append, List.takeWhile_append, same.column]

theorem newline (line : front'.count '\n' = front.count '\n') :
    SamePlace (front ++ ['\n']) (front' ++ ['\n']) where
  line := by rw [List.count_append, List.count_append, line]
  column := by simp

theorem ofOffset (same : SamePlace front front') (rest rest' : List Char) :
    Position.ofOffset (front' ++ rest') front'.length = Position.ofOffset (front ++ rest) front.length := by
  unfold Position.ofOffset
  dsimp only
  rw [List.take_left, List.take_left, same.line, same.column]

end SamePlace

/-- A token that does not end the line stands at the same place. -/
theorem Token.Gaps.placed {c : Char} {cs tail gap gap' front front' : List Char}
    (gaps : Gaps false cs (c :: tail) gap gap') (same : SamePlace front front') (plain : c ≠ '\n') :
    Position.ofOffset (front' ++ withoutComments false cs) (front'.length + gap'.length) =
      Position.ofOffset (front ++ cs) (front.length + gap.length) := by
  rcases gaps.same with ⟨_, alike⟩ | ends
  · rw [gaps.spelled', gaps.spelled, alike, ← List.append_assoc, ← List.append_assoc, ← List.length_append,
      ← List.length_append]
    exact (same.append gap).ofOffset _ _
  · exact absurd (ends c rfl) plain

/-- The same place goes on over gaps and the lexeme after them: what is not the same is left behind with the
line. -/
theorem Token.Gaps.samePlace {c : Char} {cs tail rest gap gap' front front' : List Char} {l : Lexeme}
    (gaps : Gaps false cs (c :: tail) gap gap') (same : SamePlace front front') (valid : l.Valid)
    (spelled : c :: tail = l.chars ++ rest) :
    SamePlace (front ++ gap ++ l.chars) (front' ++ gap' ++ l.chars) := by
  rcases gaps.same with ⟨_, alike⟩ | ends
  · rw [alike]
    exact (same.append gap).append l.chars
  · rw [Lexeme.eq_newline valid spelled (ends c rfl)]
    apply SamePlace.newline
    rw [List.count_append, List.count_append, same.line, List.count_eq_zero.mpr gaps.single,
      List.count_eq_zero.mpr gaps.single']

/-- Tokens of the same kind, and at the same place unless they end a line. -/
structure Token.Matches (place place' : Nat → Position) (t t' : Token) : Prop where
  kind : t'.kind = t.kind
  placed : t.kind ≠ .newline → place' t'.span.start = place t.span.start

namespace Token.Stream

/-- Scans that come to the same, token by token and fault by fault. -/
inductive Matches (place place' : Nat → Position) : Stream → Stream → Prop
  | ends : Matches place place' ⟨[], none⟩ ⟨[], none⟩
  | stuck {offset offset' : Nat} : Matches place place' ⟨[], some offset⟩ ⟨[], some offset'⟩
  | token {t t' : Token} {s s' : Stream} (here : t.Matches place place' t')
    (later : Matches place place' s s') : Matches place place' (s.cons (.ok t)) (s'.cons (.ok t'))
  | fault {fault fault' : ScanFault} {s s' : Stream} (later : Matches place place' s s') :
    Matches place place' (s.cons (.error fault)) (s'.cons (.error fault'))

variable {place place' : Nat → Position} {s s' : Stream}

theorem Matches.symm (alike : Matches place place' s s') : Matches place' place s' s := by
  induction alike with
  | ends => exact .ends
  | stuck => exact .stuck
  | token here _ ih =>
    refine .token ⟨here.kind.symm, ?_⟩ ih
    intro inner
    exact (here.placed (here.kind ▸ inner)).symm
  | fault _ ih => exact .fault ih

/-- If one scan is without fault, so is the other. -/
theorem Matches.exists_tokens {tokens : List Token} (alike : Matches place place' s s')
    (scanned : s = ⟨tokens.map .ok, none⟩) :
    ∃ tokens', s' = ⟨tokens'.map .ok, none⟩ ∧ List.Forall₂ (Token.Matches place place') tokens tokens' := by
  induction alike generalizing tokens with
  | ends =>
    cases tokens with
    | nil => exact ⟨[], rfl, .nil⟩
    | cons => cases scanned
  | stuck => cases congrArg Stream.stuck scanned
  | token here _ ih =>
    obtain ⟨t, rest, rfl, same, later⟩ := cons_eq_scanned scanned
    cases same
    obtain ⟨tokens', rfl, others⟩ := ih later
    exact ⟨_ :: tokens', rfl, .cons here others⟩
  | fault =>
    obtain ⟨_, _, _, same, _⟩ := cons_eq_scanned scanned
    cases same

theorem scan_eq_ends {offset start : Nat} {cs : List Char}
    (skipped : skipBlank false offset cs = (start, [])) : scan offset cs = ⟨[], none⟩ := by
  rw [scan]
  split
  next => rfl
  next again => cases skipped.symm.trans again

theorem scan_eq_stuck {offset start : Nat} {c : Char} {cs tail : List Char}
    (skipped : skipBlank false offset cs = (start, c :: tail)) (unlexed : lexeme? start c tail = none) :
    scan offset cs = ⟨[], some start⟩ := by
  rw [scan]
  split
  next again => cases skipped.symm.trans again
  next again =>
    cases skipped.symm.trans again
    split
    next => rfl
    next lexed => cases unlexed.symm.trans lexed

/-- The scans of a text and of the text without its comments, after places that are the same. -/
theorem matches_scan (cs : List Char) {offset : Nat} {front front' : List Char}
    (reached : offset = front.length) (same : SamePlace front front') :
    Matches (.ofOffset (front ++ cs)) (.ofOffset (front' ++ withoutComments false cs)) (scan offset cs)
      (scan front'.length (withoutComments false cs)) := by
  fun_induction scan offset cs generalizing front front' with
  | case1 offset cs start skipped =>
    obtain ⟨rest, gap, gap', gaps⟩ := exists_gaps false cs
    cases (gaps.skipped offset).symm.trans skipped
    rw [scan_eq_ends (gaps.skipped' front'.length)]
    exact .ends
  | case2 offset cs start c tail skipped unlexed =>
    obtain ⟨rest, gap, gap', gaps⟩ := exists_gaps false cs
    cases (gaps.skipped offset).symm.trans skipped
    have skipped' := gaps.skipped' front'.length
    rw [withoutComments_cons (gaps.shown c rfl)] at skipped'
    have unlexed' : lexeme? (front'.length + gap'.length) c (withoutComments false tail) = none := by
      rw [lexeme?_withoutComments, lexeme?_eq_none unlexed]
      rfl
    rw [scan_eq_stuck skipped' unlexed']
    exact .stuck
  | case3 offset cs start c tail skipped item stop rest lexed ih =>
    obtain ⟨shown, gap, gap', gaps⟩ := exists_gaps false cs
    cases (gaps.skipped offset).symm.trans skipped
    have skipped' := gaps.skipped' front'.length
    rw [withoutComments_cons (gaps.shown c rfl)] at skipped'
    obtain ⟨l, valid, visible, spelled, given, rfl, bare⟩ := exists_lexeme_withoutComments lexed
    have lexed' := bare (front'.length + gap'.length)
    -- both texts, divided where the scans go on
    have text : front ++ cs = front ++ gap ++ l.chars ++ rest := by
      rw [gaps.spelled, spelled, List.append_assoc, List.append_assoc]
    have text' : front' ++ withoutComments false cs =
        front' ++ gap' ++ l.chars ++ withoutComments false rest := by
      rw [gaps.spelled', spelled, withoutComments_append (l.semicolon_not_mem_chars valid visible),
        List.append_assoc, List.append_assoc]
    have later := ih (by rw [reached, List.length_append, List.length_append])
      (gaps.samePlace same valid spelled)
    rw [← text, ← text', List.length_append, List.length_append] at later
    rcases Lexeme.items_of_visible visible (offset + gap.length) (front'.length + gap'.length) with
      ⟨kind, span, span', first, first', made, made'⟩ | ⟨fault, fault', made, made'⟩
    · cases given.symm.trans made
      rw [made'] at lexed'
      rw [scan_eq_cons skipped' lexed']
      refine .token ⟨rfl, ?_⟩ later
      intro inner
      have plain : c ≠ '\n' := by
        intro newline
        exact inner ((Lexeme.token_of_item? given).2.1.mpr (Lexeme.eq_newline valid spelled newline))
      rw [first, first', reached]
      exact gaps.placed same plain
    · cases given.symm.trans made
      rw [made'] at lexed'
      rw [scan_eq_cons skipped' lexed']
      exact .fault later

end Token.Stream

section Lines

variable {place place' : Nat → Position} {t t' : Token} {tokens tokens' : List Token}

/-- Lines of tokens that match. -/
def SourceLine.Matches (place place' : Nat → Position) (l l' : SourceLine) : Prop :=
  List.Forall₂ (Token.Matches place place') l.tokens l'.tokens

/-- Tokens that match end lines alike. -/
theorem SourceLine.matches_split {length length' : Nat}
    (alike : List.Forall₂ (Token.Matches place place') tokens tokens') :
    (split length tokens).1.Matches place place' (split length' tokens').1 ∧
      List.Forall₂ (SourceLine.Matches place place') (split length tokens).2 (split length' tokens').2 := by
  induction alike with
  | nil => exact ⟨.nil, .nil⟩
  | @cons t t' rest rest' here _ ih =>
    by_cases newline : t.kind = .newline
    · have newline' := here.kind.trans newline
      simp only [split, newline, newline', if_true]
      exact ⟨.nil, .cons ih.1 ih.2⟩
    · have inner : t'.kind ≠ .newline := here.kind ▸ newline
      simp only [split, newline, inner, if_false]
      exact ⟨.cons here ih.1, ih.2⟩

theorem SourceLine.matches_ofTokens (length length' : Nat)
    (alike : List.Forall₂ (Token.Matches place place') tokens tokens') :
    List.Forall₂ (SourceLine.Matches place place') (ofTokens length tokens) (ofTokens length' tokens') := by
  obtain ⟨first, others⟩ := matches_split alike
  exact .cons first others

namespace Grammar

theorem Is.of_kind {p : Punct} (is : Is p t) (same : t'.kind = t.kind) : Is p t' := same.trans is

theorem IsNumber.of_kind {n : Int64} (is : IsNumber t n) (same : t'.kind = t.kind) : IsNumber t' n :=
  same.trans is

theorem IsRegister.of_kind {r : Register} (is : IsRegister t r) (same : t'.kind = t.kind) :
    IsRegister t' r := by
  obtain ⟨word, named, number⟩ := is
  exact ⟨word, same.trans named, number⟩

theorem IsSymbol.of_kind {name : String} (is : IsSymbol t name) (same : t'.kind = t.kind) :
    IsSymbol t' name :=
  ⟨same.trans is.1, is.2⟩

theorem IsOperand.of_kind {src : Operand} (is : IsOperand t src) (same : t'.kind = t.kind) :
    IsOperand t' src := by
  cases is with
  | reg register => exact .reg (register.of_kind same)
  | imm number => exact .imm (number.of_kind same)

/-- What is made of operands depends on the kinds of their tokens. -/
theorem Form.Admits.of_matches {f : Form} {op : Operation} (admits : f.Admits tokens op)
    (alike : List.Forall₂ (Token.Matches place place') tokens tokens') : f.Admits tokens' op := by
  cases admits with
  | registerAndOperand first comma second =>
    obtain _ | ⟨a, _ | ⟨c, _ | ⟨b, _ | _⟩⟩⟩ := alike
    exact .registerAndOperand (first.of_kind a.kind) (comma.of_kind c.kind) (second.of_kind b.kind)
  | registerAndPointer first comma opened second closed =>
    obtain _ | ⟨a, _ | ⟨c, _ | ⟨o, _ | ⟨b, _ | ⟨e, _ | _⟩⟩⟩⟩⟩ := alike
    exact .registerAndPointer (first.of_kind a.kind) (comma.of_kind c.kind) (opened.of_kind o.kind)
      (second.of_kind b.kind) (closed.of_kind e.kind)
  | pointerAndOperand opened first closed comma second =>
    obtain _ | ⟨o, _ | ⟨a, _ | ⟨e, _ | ⟨c, _ | ⟨b, _ | _⟩⟩⟩⟩⟩ := alike
    exact .pointerAndOperand (opened.of_kind o.kind) (first.of_kind a.kind) (closed.of_kind e.kind)
      (comma.of_kind c.kind) (second.of_kind b.kind)
  | register only =>
    obtain _ | ⟨a, _ | _⟩ := alike
    exact .register (only.of_kind a.kind)
  | symbol only =>
    obtain _ | ⟨a, _ | _⟩ := alike
    exact .symbol (only.of_kind a.kind)
  | number only =>
    obtain _ | ⟨a, _ | _⟩ := alike
    exact .number (only.of_kind a.kind)
  | nothing =>
    cases alike
    exact .nothing
  | symbolAlone only =>
    obtain _ | ⟨a, _ | _⟩ := alike
    exact .symbolAlone (only.of_kind a.kind)
  | symbolAndNumber? first comma second =>
    obtain _ | ⟨a, _ | ⟨c, _ | ⟨b, _ | _⟩⟩⟩ := alike
    exact .symbolAndNumber? (first.of_kind a.kind) (comma.of_kind c.kind) (second.of_kind b.kind)
  | symbolAndNumber first comma second =>
    obtain _ | ⟨a, _ | ⟨c, _ | ⟨b, _ | _⟩⟩⟩ := alike
    exact .symbolAndNumber (first.of_kind a.kind) (comma.of_kind c.kind) (second.of_kind b.kind)
  | symbolAndOperand first comma second =>
    obtain _ | ⟨a, _ | ⟨c, _ | ⟨b, _ | _⟩⟩⟩ := alike
    exact .symbolAndOperand (first.of_kind a.kind) (comma.of_kind c.kind) (second.of_kind b.kind)
  | registerAndSymbol first comma second =>
    obtain _ | ⟨a, _ | ⟨c, _ | ⟨b, _ | _⟩⟩⟩ := alike
    exact .registerAndSymbol (first.of_kind a.kind) (comma.of_kind c.kind) (second.of_kind b.kind)
  | numberAndSymbol first comma second =>
    obtain _ | ⟨a, _ | ⟨c, _ | ⟨b, _ | _⟩⟩⟩ := alike
    exact .numberAndSymbol (first.of_kind a.kind) (comma.of_kind c.kind) (second.of_kind b.kind)

theorem Line.of_matches {instructions : List Instruction} (line : Line place tokens instructions)
    (alike : List.Forall₂ (Token.Matches place place') tokens tokens') :
    Line place' tokens' instructions := by
  induction line generalizing tokens' with
  | blank =>
    cases alike
    exact .blank
  | label word colon _ ih =>
    obtain _ | ⟨first, _ | ⟨second, rest⟩⟩ := alike
    rw [← first.placed (by simp [word])]
    exact .label (first.kind.trans word) (colon.of_kind second.kind) (ih rest)
  | instruction named spelled operands =>
    obtain _ | ⟨first, rest⟩ := alike
    rw [← first.placed (by simp [named])]
    exact .instruction (first.kind.trans named) spelled (operands.of_matches rest)

/-- Lines of tokens that match make the same program. -/
theorem Lines.of_matches {ls ls' : List SourceLine} {program : List Instruction}
    (lines : Lines place ls program) (alike : List.Forall₂ (SourceLine.Matches place place') ls ls') :
    Lines place' ls' program := by
  induction lines generalizing ls' with
  | nil =>
    cases alike
    exact .nil
  | cons line _ ih =>
    obtain _ | ⟨first, rest⟩ := alike
    exact .cons (line.of_matches first) (ih rest)

end Grammar

end Lines

namespace Program

/-- A text holds the program of every text whose scan comes to the same. -/
theorem parse_of_matches {source source' : List Char} {program : List Instruction}
    (alike : Token.Stream.Matches (.ofOffset source) (.ofOffset source') (.ofChars source) (.ofChars source'))
    (parsed : parse source = .ok program) : parse source' = .ok program := by
  obtain ⟨tokens, scanned⟩ := faultless_of_parse parsed
  obtain ⟨tokens', scanned', matched⟩ := alike.exists_tokens scanned
  have lines := (parse_eq_ok_iff_lines scanned).mp parsed
  exact (parse_eq_ok_iff_lines scanned').mpr
    (lines.of_matches (SourceLine.matches_ofTokens source.length source'.length matched))

/-- Without its comments every line of a source text ends at its first semicolon. The text with them and the
text without hold the same program, each instruction at the same line and column, or both hold none. -/
theorem comments_are_not_read (name source : String) :
    let bare := String.ofList (withoutComments false source.toList)
    bare.toList.splitOn '\n' = (source.toList.splitOn '\n').map (List.takeWhile (· ≠ ';')) ∧
      ∀ program, ofSource name source = .ok program ↔ ofSource name bare = .ok program := by
  dsimp only
  rw [String.toList_ofList]
  refine ⟨?_, ?_⟩
  · rw [splitOn_withoutComments]
    exact congrFun List.modifyHead_id _
  · intro program
    have start : SamePlace [] [] := ⟨rfl, rfl⟩
    have alike := Token.Stream.matches_scan source.toList rfl start
    rw [ofSource_eq_ok_iff, ofSource_eq_ok_iff, String.toList_ofList]
    exact ⟨parse_of_matches alike, parse_of_matches alike.symm⟩

end Program

end CrossAsm
