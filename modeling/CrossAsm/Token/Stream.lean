import CrossAsm.Diagnostic.Report
import CrossAsm.Token.Basic

/-!
The lexer of the analysis: the tokens of a source text. Blanks and comments separate tokens. A blank is a
character with the Unicode property White_Space, and a comment runs from a semicolon to the end of its
line. A literal that is no 64-bit integer is passed over with a fault in its place. A character that
starts no token ends the scan: whoever reads on meets the same fault again.
-/
namespace CrossAsm

/-- The inclusive ranges of code points with the property White_Space, in ascending order. -/
def blankRanges : List (Nat × Nat) :=
  [(0x09, 0x0D), (0x20, 0x20), (0x85, 0x85), (0xA0, 0xA0), (0x1680, 0x1680), (0x2000, 0x200A),
    (0x2028, 0x2029), (0x202F, 0x202F), (0x205F, 0x205F), (0x3000, 0x3000)]

def isBlank (c : Char) : Bool :=
  blankRanges.any fun r => r.1 ≤ c.toNat && c.toNat ≤ r.2

inductive ScanFault where
  | unexpectedCharacter (offset : Nat)
  | invalidNumber (span : Span)
  deriving DecidableEq, Repr

namespace ScanFault

def report (source : String) : ScanFault → Report
  | unexpectedCharacter offset =>
    .single source .unexpectedCharacter "unexpected character" ⟨offset, offset + 1⟩ "what is this?"
  | invalidNumber span =>
    .single source .invalidNumber "invalid number" span "not a 64-bit integer"

end ScanFault

namespace Token

/-- Passes over blanks and comments, but never over a line end. Gives the offset and the rest. -/
def skipBlank (inComment : Bool) (offset : Nat) : List Char → Nat × List Char
  | [] => (offset, [])
  | c :: cs =>
    if c = '\n' then (offset, c :: cs)
    else if inComment || c == ';' then skipBlank true (offset + 1) cs
    else if isBlank c then skipBlank false (offset + 1) cs
    else (offset, c :: cs)

/-- The token that starts with the character `c` at `offset`, and what follows it. -/
def lexeme? (offset : Nat) (c : Char) (cs : List Char) :
    Option (Except ScanFault Token × Nat × List Char) :=
  if c = '\n' then some (.ok ⟨.newline, offset, offset + 1⟩, offset + 1, cs)
  else match Punct.ofChar? c with
  | some p => some (.ok ⟨.punct p, offset, offset + 1⟩, offset + 1, cs)
  | none =>
    if startsWord c then
      let word := c :: cs.takeWhile continuesWord
      let stop := offset + word.length
      some (.ok ⟨.word (String.ofList word), offset, stop⟩, stop, cs.dropWhile continuesWord)
    else if startsNumber c cs then
      let literal := c :: cs.takeWhile Char.isAlphanum
      let stop := offset + literal.length
      let item := match Numeral.parse? literal with
        | some n => .ok ⟨.number n, offset, stop⟩
        | none => .error (.invalidNumber ⟨offset, stop⟩)
      some (item, stop, cs.dropWhile Char.isAlphanum)
    else none

theorem length_skipBlank_le (inComment : Bool) (offset : Nat) (cs : List Char) :
    (skipBlank inComment offset cs).2.length ≤ cs.length := by
  induction cs generalizing inComment offset with
  | nil => simp [skipBlank]
  | cons c cs ih =>
    rw [skipBlank]
    split
    · simp
    · split
      · exact Nat.le_succ_of_le (ih _ _)
      · split
        · exact Nat.le_succ_of_le (ih _ _)
        · simp

theorem length_lexeme?_le {offset : Nat} {c : Char} {cs : List Char}
    {item : Except ScanFault Token} {stop : Nat} {rest : List Char}
    (h : lexeme? offset c cs = some (item, stop, rest)) : rest.length ≤ cs.length := by
  have drop_le (p : Char → Bool) : (cs.dropWhile p).length ≤ cs.length :=
    (List.dropWhile_sublist p).length_le
  unfold lexeme? at h
  split at h
  · simp only [Option.some.injEq, Prod.mk.injEq] at h
    simp [h.2.2]
  · split at h
    · simp only [Option.some.injEq, Prod.mk.injEq] at h
      simp [h.2.2]
    · split at h
      · simp only [Option.some.injEq, Prod.mk.injEq] at h
        rw [← h.2.2]
        exact drop_le _
      · split at h
        · simp only [Option.some.injEq, Prod.mk.injEq] at h
          rw [← h.2.2]
          exact drop_le _
        · cases h

/-- The scan of a source text: its tokens, with a fault for each literal passed over, and the offset
of the character at which the scan got stuck, if it did not reach the end. -/
structure Stream where
  items : List (Except ScanFault Token)
  stuck : Option Nat
  deriving Repr

namespace Stream

def cons (item : Except ScanFault Token) (s : Stream) : Stream := { s with items := item :: s.items }

/-- Scans a text whose first character has offset `offset`. -/
def scan (offset : Nat) (source : List Char) : Stream :=
  match _h : skipBlank false offset source with
  | (_, []) => ⟨[], none⟩
  | (start, c :: cs) =>
    match _hl : lexeme? start c cs with
    | none => ⟨[], some start⟩
    | some (item, stop, rest) => (scan stop rest).cons item
termination_by source.length
decreasing_by
  have skipped := length_skipBlank_le false offset source
  have taken := length_lexeme?_le _hl
  simp only [_h, List.length_cons] at skipped
  omega

def ofChars (source : List Char) : Stream := scan 0 source

/-- What the next attempt to read a token gives, and the stream after it. At the end there is no
token; where the scan got stuck the attempt fails, and so does every later one. -/
def pull (s : Stream) : Except ScanFault (Option Token) × Stream :=
  match s.items with
  | item :: items => (item.map some, { s with items })
  | [] =>
    match s.stuck with
    | none => (.ok none, s)
    | some offset => (.error (.unexpectedCharacter offset), s)

end Stream

end Token

end CrossAsm
