/-!
Places in a source text, as the analysis records them. Offsets count characters from zero; a `Position` is
the line and column shown to the user, both counted from one in words of 32 bits. `LineMap` converts
between the two.
-/
namespace CrossAsm

/-- A line and a column, as shown to the user. -/
structure Position where
  line : UInt32
  column : UInt32
  deriving DecidableEq, Repr

namespace Position

/-- The position of a fault that belongs to no instruction. -/
def nowhere : Position := ⟨0, 0⟩

def text (p : Position) : String := s!"{p.line}:{p.column}"

end Position

/-- The characters from offset `start` up to, and without, offset `stop`. -/
structure Span where
  start : Nat
  stop : Nat
  deriving DecidableEq, Repr

/-- The offsets at which the lines of a text start, and the length of the text. -/
structure LineMap where
  starts : List Nat
  length : Nat
  deriving DecidableEq, Repr

namespace LineMap

/-- The offsets just after the newlines of a text whose first character has offset `offset`. -/
def startsAfter (offset : Nat) : List Char → List Nat
  | [] => []
  | c :: cs =>
    if c = '\n' then (offset + 1) :: startsAfter (offset + 1) cs else startsAfter (offset + 1) cs

def ofChars (source : List Char) : LineMap :=
  ⟨0 :: startsAfter 0 source, source.length⟩

/-- Goes on along the starts of lines as long as they are at or before `offset`, after `line` lines
of which the last starts at `start`. Gives the last such line and its start. -/
def lineAt (offset line start : Nat) : List Nat → Nat × Nat
  | [] => (line, start)
  | s :: rest => if s ≤ offset then lineAt offset (line + 1) s rest else (line, start)

/-- The position of an offset: the last line that starts at or before it. From 2³² on, counting begins
anew. -/
def position (m : LineMap) (offset : Nat) : Position :=
  let (line, start) := lineAt offset 0 0 m.starts
  ⟨UInt32.ofNat line, UInt32.ofNat (offset - start) + 1⟩

/-- The span from a position to the end of its line. A line past the end counts as the last one, a
column past the end of the line as that end, and the span is never empty. -/
def range (m : LineMap) (p : Position) : Span :=
  let line := min (max p.line.toNat 1) m.starts.length
  let lineStart := m.starts[line - 1]?.getD 0
  let lineEnd := (m.starts[line]?.map (· - 1)).getD m.length
  let start := min (lineStart + (p.column.toNat - 1)) lineEnd
  ⟨start, max lineEnd (start + 1)⟩

end LineMap

end CrossAsm
