import CrossAsm.Token.Stream

/-!
Scanning a text that is put together from lexemes. If no word or number touches the next one, scanning
takes the text apart again, into one token for each lexeme that is not blank (`scan_chars`).
-/
namespace CrossAsm

/-- A letter, an underscore or a dot, and then more of these or digits. -/
def isIdentifier (name : String) : Bool :=
  match name.toList with
  | [] => false
  | c :: cs =>
    (c.isAlpha || c == '_' || c == '.') && cs.all fun c => c.isAlphanum || c == '_' || c == '.'

inductive Lexeme where
  | blank
  | word (name : String)
  | number (literal : List Char)
  | punct (p : Punct)
  | newline
  deriving DecidableEq, Repr

namespace Lexeme

def chars : Lexeme → List Char
  | blank => [' ']
  | word name => name.toList
  | number literal => literal
  | punct p => [p.toChar]
  | newline => ['\n']

/-- What scanning makes of a lexeme at an offset; of a blank it makes nothing. -/
def item? (offset : Nat) (l : Lexeme) : Option (Except ScanFault Token) :=
  let span : Span := ⟨offset, offset + l.chars.length⟩
  match l with
  | blank => none
  | word name => some (.ok ⟨.word name, span⟩)
  | number literal =>
    match Numeral.parse? literal with
    | some n => some (.ok ⟨.number n, span⟩)
    | none => some (.error (.invalidNumber span))
  | punct p => some (.ok ⟨.punct p, span⟩)
  | newline => some (.ok ⟨.newline, span⟩)

/-- The items of a text whose first character has offset `offset`. -/
def items (offset : Nat) : List Lexeme → List (Except ScanFault Token)
  | [] => []
  | l :: ls => (l.item? offset).toList ++ items (offset + l.chars.length) ls

/-- The kind of token that a lexeme makes. A blank makes none, nor does a number out of range. -/
def kind? : Lexeme → Option Token.Kind
  | blank => none
  | word name => some (.word name)
  | number literal => (Numeral.parse? literal).map .number
  | punct p => some (.punct p)
  | newline => some .newline

/-- The tokens of a text whose first character has offset `offset`. -/
def tokens (offset : Nat) : List Lexeme → List Token
  | [] => []
  | l :: ls =>
    (l.kind?.map fun kind => ⟨kind, offset, offset + l.chars.length⟩).toList ++
      tokens (offset + l.chars.length) ls

def Valid : Lexeme → Prop
  | word name => isIdentifier name
  | number literal => ∃ c cs, literal = c :: cs ∧ Token.startsNumber c cs ∧ ∀ d ∈ cs, d.isAlphanum
  | _ => True

/-- Words and numbers run on as long as they can. -/
def runsOn : Lexeme → Bool
  | word _ | number _ => true
  | _ => false

/-- No word or number touches the next one. -/
def separated : List Lexeme → Bool
  | [] => true
  | l :: ls => !(l.runsOn && ls.head?.any runsOn) && separated ls

end Lexeme

namespace Token

section Characters

variable {c : Char}

theorem isBlank_of_printable (printable : 0x21 ≤ c.toNat ∧ c.toNat ≤ 0x7E) : isBlank c = false := by
  unfold isBlank blankRanges
  simp
  omega

theorem isAlpha_iff :
    c.isAlpha ↔ 65 ≤ c.toNat ∧ c.toNat ≤ 90 ∨ 97 ≤ c.toNat ∧ c.toNat ≤ 122 := by
  have spelled : c.isAlpha =
      (decide (65 ≤ c.val ∧ c.val ≤ 90) || decide (97 ≤ c.val) && decide (c.val ≤ 122)) := rfl
  simp only [spelled, Bool.or_eq_true, Bool.and_eq_true, decide_eq_true_eq, UInt32.le_iff_toNat_le]
  rfl

theorem isDigit_iff : c.isDigit ↔ 48 ≤ c.toNat ∧ c.toNat ≤ 57 := by
  simp only [Char.isDigit, Bool.and_eq_true, decide_eq_true_eq, UInt32.le_iff_toNat_le, ge_iff_le]
  rfl

theorem continuesWord_of_startsWord (starts : startsWord c) : continuesWord c := by
  unfold startsWord at starts
  unfold continuesWord Char.isAlphanum
  simp only [Bool.or_eq_true] at starts ⊢
  rcases starts with (letter | underscore) | dot
  · exact .inl (.inl (.inl letter))
  · exact .inl (.inr underscore)
  · exact .inr dot

theorem isAlphanum_of_isDigit (digit : c.isDigit) : c.isAlphanum := by
  rw [Char.isAlphanum, digit, Bool.or_true]

/-- Characters that are passed over by no one. -/
def Solid (c : Char) : Prop := (0x21 ≤ c.toNat ∧ c.toNat ≤ 0x7E) ∧ c ≠ ';'

theorem solid_of_continuesWord (continues : continuesWord c) : Solid c := by
  unfold continuesWord at continues
  simp only [Char.isAlphanum, Bool.or_eq_true, beq_iff_eq, isAlpha_iff, isDigit_iff] at continues
  rcases continues with (visible | rfl) | rfl
  · refine ⟨by omega, ?_⟩
    rintro rfl
    revert visible
    decide
  · exact ⟨by decide, by decide⟩
  · exact ⟨by decide, by decide⟩

theorem solid_of_startsNumber {cs : List Char} (starts : startsNumber c cs) : Solid c := by
  unfold startsNumber at starts
  simp only [Bool.or_eq_true, Bool.and_eq_true, beq_iff_eq] at starts
  rcases starts with digit | ⟨rfl | rfl, _⟩
  · exact solid_of_continuesWord (by simp [continuesWord, isAlphanum_of_isDigit digit])
  · exact ⟨by decide, by decide⟩
  · exact ⟨by decide, by decide⟩

theorem startsWord_of_isDigit (digit : c.isDigit) : startsWord c = false := by
  apply Bool.eq_false_iff.mpr
  intro starts
  unfold startsWord at starts
  simp only [Bool.or_eq_true, beq_iff_eq, isAlpha_iff] at starts
  rw [isDigit_iff] at digit
  rcases starts with (letter | rfl) | rfl
  · omega
  · revert digit
    decide
  · revert digit
    decide

theorem skipBlank_of_solid (solid : Solid c) (offset : Nat) (cs : List Char) :
    skipBlank false offset (c :: cs) = (offset, c :: cs) := by
  have visible := isBlank_of_printable solid.1
  simp [skipBlank, solid.2, visible]

theorem ofChar?_eq_none_of_continuesWord (continues : continuesWord c) : Punct.ofChar? c = none := by
  unfold Punct.ofChar?
  split
  all_goals first | rfl | cases continues

end Characters

section Lexemes

variable {p : Char → Bool} {cs rest : List Char}

/-- What runs on stops where it has to. -/
theorem takeWhile_append (all : ∀ c ∈ cs, p c) (stops : ∀ c ∈ rest.head?, p c = false) :
    (cs ++ rest).takeWhile p = cs := by
  rw [List.takeWhile_append_of_pos all]
  cases rest with
  | nil => simp
  | cons c rest =>
    have first : p c = false := stops c rfl
    simp [first]

theorem dropWhile_append (all : ∀ c ∈ cs, p c) (stops : ∀ c ∈ rest.head?, p c = false) :
    (cs ++ rest).dropWhile p = rest := by
  rw [List.dropWhile_append_of_pos all]
  cases rest with
  | nil => simp
  | cons c rest =>
    have first : p c = false := stops c rfl
    simp [first]

theorem lexeme?_of_startsWord {c : Char} (starts : startsWord c) (all : ∀ d ∈ cs, continuesWord d)
    (stops : ∀ d ∈ rest.head?, continuesWord d = false) (offset : Nat) :
    lexeme? offset c (cs ++ rest) =
      some (.ok ⟨.word (String.ofList (c :: cs)), offset, offset + (c :: cs).length⟩,
        offset + (c :: cs).length, rest) := by
  have continues := continuesWord_of_startsWord starts
  have sameLine : c ≠ '\n' := by
    rintro rfl
    cases starts
  unfold lexeme?
  rw [if_neg sameLine, ofChar?_eq_none_of_continuesWord continues]
  dsimp only
  rw [if_pos starts, takeWhile_append all stops, dropWhile_append all stops]

theorem lexeme?_of_startsNumber {c : Char} (starts : startsNumber c cs)
    (all : ∀ d ∈ cs, d.isAlphanum) (stops : ∀ d ∈ rest.head?, d.isAlphanum = false) {offset : Nat}
    {item : Except ScanFault Token} (made : (Lexeme.number (c :: cs)).item? offset = some item) :
    lexeme? offset c (cs ++ rest) = some (item, offset + (c :: cs).length, rest) := by
  have further : startsNumber c (cs ++ rest) := by
    unfold startsNumber at starts ⊢
    cases cs with
    | nil =>
      simp only [List.head?_nil, Option.any_none, Bool.and_false, Bool.or_false] at starts
      simp [starts]
    | cons d cs => exact starts
  have other : c ≠ '\n' ∧ Punct.ofChar? c = none ∧ startsWord c = false := by
    unfold startsNumber at starts
    simp only [Bool.or_eq_true, Bool.and_eq_true, beq_iff_eq] at starts
    rcases starts with digit | ⟨rfl | rfl, _⟩
    · refine ⟨?_, ofChar?_eq_none_of_continuesWord ?_, startsWord_of_isDigit digit⟩
      · rintro rfl
        cases digit
      · simp [continuesWord, isAlphanum_of_isDigit digit]
    · exact ⟨by decide, rfl, rfl⟩
    · exact ⟨by decide, rfl, rfl⟩
  unfold lexeme?
  rw [if_neg other.1, other.2.1]
  dsimp only
  rw [if_neg (by simp [other.2.2]), if_pos further, takeWhile_append all stops,
    dropWhile_append all stops]
  unfold Lexeme.item? at made
  cases read : Numeral.parse? (c :: cs)
  all_goals
    simp only [read, Option.some.injEq] at made ⊢
    rw [← made]
    rfl

end Lexemes

section Offsets

/-- Offsets keep step with what is left of the text. -/
theorem skipBlank_keeps (inComment : Bool) (offset : Nat) (cs : List Char) :
    (skipBlank inComment offset cs).1 + (skipBlank inComment offset cs).2.length =
      offset + cs.length := by
  induction cs generalizing inComment offset with
  | nil => rfl
  | cons c cs ih =>
    have passed (inComment : Bool) := ih inComment (offset + 1)
    rw [skipBlank]
    split
    · rfl
    · split
      · rw [passed, List.length_cons]
        omega
      · split
        · rw [passed, List.length_cons]
          omega
        · rfl

theorem lexeme?_keeps {offset : Nat} {c : Char} {cs : List Char} {item : Except ScanFault Token}
    {stop : Nat} {rest : List Char} (lexed : lexeme? offset c cs = some (item, stop, rest)) :
    stop + rest.length = offset + (c :: cs).length ∧ ∀ t, item = .ok t → t.span.start = offset := by
  have divided (p : Char → Bool) : (cs.takeWhile p).length + (cs.dropWhile p).length = cs.length := by
    rw [← List.length_append, List.takeWhile_append_dropWhile]
  unfold lexeme? at lexed
  split at lexed
  next =>
    cases lexed
    refine ⟨by rw [List.length_cons]; omega, ?_⟩
    intro t made
    cases made
    rfl
  next =>
    split at lexed
    next =>
      cases lexed
      refine ⟨by rw [List.length_cons]; omega, ?_⟩
      intro t made
      cases made
      rfl
    next =>
      split at lexed
      next =>
        cases lexed
        have whole := divided continuesWord
        refine ⟨by simp only [List.length_cons]; omega, ?_⟩
        intro t made
        cases made
        rfl
      next =>
        split at lexed
        next =>
          cases lexed
          have whole := divided Char.isAlphanum
          refine ⟨by simp only [List.length_cons]; omega, ?_⟩
          intro t made
          split at made
          next =>
            cases made
            rfl
          next => cases made
        next => cases lexed

end Offsets

namespace Stream

variable {offset : Nat} {c : Char} {cs rest : List Char} {item : Except ScanFault Token} {stop : Nat}

theorem scan_nil : scan offset [] = ⟨[], none⟩ := by
  rw [scan]
  rfl

theorem scan_blank : scan offset (' ' :: cs) = scan (offset + 1) cs := by
  have passed : skipBlank false offset (' ' :: cs) = skipBlank false (offset + 1) cs := rfl
  rw [scan, scan, passed]

theorem scan_eq_cons {source : List Char} {start : Nat}
    (skipped : skipBlank false offset source = (start, c :: cs))
    (lexed : lexeme? start c cs = some (item, stop, rest)) :
    scan offset source = (scan stop rest).cons item := by
  rw [scan]
  split
  next again => cases skipped.symm.trans again
  next again =>
    cases skipped.symm.trans again
    split
    next unlexed => cases lexed.symm.trans unlexed
    next again =>
      cases lexed.symm.trans again
      rfl

theorem scan_lexeme (solid : skipBlank false offset (c :: cs) = (offset, c :: cs))
    (lexed : lexeme? offset c cs = some (item, stop, rest)) :
    scan offset (c :: cs) = (scan stop rest).cons item :=
  scan_eq_cons solid lexed

/-- Tokens start inside the text. -/
theorem start_lt_of_mem_scan {offset : Nat} {source : List Char} {t : Token}
    (member : .ok t ∈ (scan offset source).items) : t.span.start < offset + source.length := by
  fun_induction scan offset source with
  | case1 => cases member
  | case2 => cases member
  | case3 offset source start c cs skipped item stop rest lexed ih =>
    have passed := skipBlank_keeps false offset source
    rw [skipped] at passed
    have kept := lexeme?_keeps lexed
    simp only [List.length_cons] at passed kept
    obtain same | later := List.mem_cons.mp member
    · have first := kept.2 t same.symm
      omega
    · have bound := ih later
      omega

end Stream

end Token

namespace Lexeme

open Token (continuesWord)

/-- What does not run on starts with a character that ends words and numbers. -/
theorem stops_of_head {ls : List Lexeme} (stops : ls.head?.any runsOn = false) :
    ∀ c ∈ (ls.flatMap chars).head?, continuesWord c = false := by
  cases ls with
  | nil => simp
  | cons l ls =>
    cases l with
    | blank | newline =>
      intro c first
      cases first
      rfl
    | punct p =>
      intro c first
      cases first
      cases p <;> rfl
    | word | number => cases stops

theorem exists_cons_of_isIdentifier {name : String} (identifier : isIdentifier name) :
    ∃ c cs, name.toList = c :: cs ∧ Token.startsWord c ∧ ∀ d ∈ cs, continuesWord d := by
  unfold isIdentifier at identifier
  split at identifier
  next => cases identifier
  next c cs spelled =>
    obtain ⟨starts, all⟩ := Bool.and_eq_true_iff.mp identifier
    exact ⟨c, cs, spelled, starts, List.all_eq_true.mp all⟩

/-- A number makes a token or a fault. -/
theorem exists_item?_number (literal : List Char) (offset : Nat) :
    ∃ item, item? offset (number literal) = some item := by
  cases read : Numeral.parse? literal <;> simp [item?, read]

/-- Scanning takes a text of lexemes apart again. -/
theorem scan_chars {ls : List Lexeme} (valid : ∀ l ∈ ls, l.Valid) (apart : separated ls)
    (offset : Nat) : Token.Stream.scan offset (ls.flatMap chars) = ⟨items offset ls, none⟩ := by
  induction ls generalizing offset with
  | nil => exact Token.Stream.scan_nil
  | cons l ls ih =>
    obtain ⟨here, later⟩ := List.forall_mem_cons.mp valid
    simp only [separated, Bool.and_eq_true] at apart
    have rest := ih later apart.2 (offset + l.chars.length)
    rw [List.flatMap_cons, items]
    cases l with
    | blank =>
      rw [chars, List.singleton_append, Token.Stream.scan_blank]
      exact rest
    | newline =>
      rw [chars, List.singleton_append, Token.Stream.scan_lexeme rfl rfl]
      exact congrArg _ rest
    | punct p =>
      have solid : Token.Solid p.toChar := by cases p <;> exact ⟨by decide, by decide⟩
      have lexed : Token.lexeme? offset p.toChar (ls.flatMap chars) =
          some (.ok ⟨.punct p, offset, offset + 1⟩, offset + 1, ls.flatMap chars) := by
        cases p <;> rfl
      rw [chars, List.singleton_append,
        Token.Stream.scan_lexeme (Token.skipBlank_of_solid solid _ _) lexed]
      exact congrArg _ rest
    | word name =>
      have stops : ∀ c ∈ (ls.flatMap chars).head?, continuesWord c = false :=
        stops_of_head (by simpa [runsOn] using apart.1)
      obtain ⟨c, cs, spelled, starts, all⟩ := exists_cons_of_isIdentifier here
      have solid := Token.solid_of_continuesWord (Token.continuesWord_of_startsWord starts)
      have same : String.ofList (c :: cs) = name := by rw [← spelled, String.ofList_toList]
      rw [chars] at rest ⊢
      rw [spelled] at rest ⊢
      rw [List.cons_append, Token.Stream.scan_lexeme (Token.skipBlank_of_solid solid _ _)
        (Token.lexeme?_of_startsWord starts all stops offset), rest, same, item?, chars, spelled]
      rfl
    | number literal =>
      have stops : ∀ c ∈ (ls.flatMap chars).head?, c.isAlphanum = false := by
        intro c first
        have ends := stops_of_head (by simpa [runsOn] using apart.1) c first
        simp only [continuesWord, Bool.or_eq_false_iff] at ends
        exact ends.1.1
      obtain ⟨c, cs, rfl, starts, all⟩ := here
      have solid := Token.solid_of_startsNumber starts
      obtain ⟨item, made⟩ := exists_item?_number (c :: cs) offset
      rw [chars] at rest ⊢
      rw [List.cons_append, Token.Stream.scan_lexeme (Token.skipBlank_of_solid solid _ _)
        (Token.lexeme?_of_startsNumber starts all stops made), rest, made]
      rfl

/-- Only the end of a line holds a newline. -/
theorem newline_not_mem_chars {l : Lexeme} (valid : l.Valid) (inner : l ≠ newline) :
    '\n' ∉ l.chars := by
  cases l with
  | blank => decide
  | newline => exact absurd rfl inner
  | punct p => cases p <;> decide
  | word name =>
    obtain ⟨c, cs, spelled, starts, all⟩ := exists_cons_of_isIdentifier valid
    rw [chars, spelled]
    intro member
    obtain rfl | later := List.mem_cons.mp member
    · cases starts
    · cases all _ later
  | number literal =>
    obtain ⟨c, cs, rfl, starts, all⟩ := valid
    intro member
    obtain rfl | later := List.mem_cons.mp member
    · cases starts
    · cases all _ later

section Tokens

end Tokens

end Lexeme

end CrossAsm
