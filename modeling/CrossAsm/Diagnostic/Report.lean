import CrossAsm.Text.Position

/-!
The diagnostics of the analysis: what is wrong in a source text, and where. The lexer and the parser make
reports, and the error context, here `ReportLog`, collects them. A report carries data only; drawing it is
left to whoever shows it. A label can be drawn if its span does not run backwards.
-/
namespace CrossAsm

/-- The kinds of report. -/
inductive Code where
  | unexpectedCharacter | unexpectedToken | invalidNumber | unknownMnemonic | invalidOperand
  | generation
  deriving DecidableEq, Repr

namespace Code

def number : Code → Nat
  | unexpectedCharacter => 0
  | unexpectedToken => 1
  | invalidNumber => 2
  | unknownMnemonic => 3
  | invalidOperand => 4
  | generation => 5

/-- The letter `E` and two digits. -/
def text (c : Code) : String := s!"E0{c.number}"

end Code

/-- A remark on a part of the source. -/
structure Label where
  span : Span
  text : String
  deriving DecidableEq, Repr

structure Report where
  code : Option Code
  message : Option String
  /-- The name of the source text. -/
  source : String
  span : Span
  labels : List Label
  deriving DecidableEq, Repr

namespace Report

/-- A report of the given kind whose only label covers its span. -/
def single (source : String) (code : Code) (message : String) (span : Span) (remark : String) :
    Report :=
  ⟨some code, some message, source, span, [⟨span, remark⟩]⟩

def unexpectedToken (source : String) (span : Span) (remark : String) : Report :=
  single source .unexpectedToken "unexpected token" span remark

/-- A line that ends at offset `stop` too early; the report covers the character before it. -/
def unexpectedEnd (source : String) (stop : Nat) (remark : String) : Report :=
  single source .unexpectedToken "unexpected end of line" ⟨stop - 1, stop⟩ remark

/-- No label runs backwards. The span of the report itself is not drawn. -/
def Drawable (r : Report) : Prop := ∀ l ∈ r.labels, l.span.start ≤ l.span.stop

instance (r : Report) : Decidable r.Drawable := by unfold Drawable; infer_instance

end Report

/-- Reports on one source text, in the order in which they were made. -/
structure ReportLog where
  source : String
  reports : List Report := []
  deriving DecidableEq, Repr

namespace ReportLog

def add (log : ReportLog) (r : Report) : ReportLog := { log with reports := log.reports ++ [r] }

def isEmpty (log : ReportLog) : Bool := log.reports.isEmpty

/-- Hands out the reports and starts anew. -/
def take (log : ReportLog) : List Report × ReportLog := (log.reports, { log with reports := [] })

end ReportLog

end CrossAsm
