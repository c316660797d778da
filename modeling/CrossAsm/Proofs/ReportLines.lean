import CrossAsm.Proofs.FaultPlaces

/-!
The lines of reports. Reports come in the order of the lines they are about, and no line has two, up to the
last report: a fault of the scan may be reported after a fault of its own line, and even twice
(`report_lines_rise`). A text that is scanned without fault has one report for each line that has any.
-/
namespace CrossAsm

/-- The line on which a report starts, counted by the newlines before it. -/
def Report.line (source : List Char) (r : Report) : Nat := newlinesBefore source r.span.start + 1

/-- A report on a part of the text that makes no token. -/
def Report.isLexical (r : Report) : Bool :=
  r.code == some .unexpectedCharacter || r.code == some .invalidNumber

theorem ParseFault.isLexical_report (name : String) (fault : ParseFault) :
    (fault.report name).isLexical = fault.isLexical := by
  cases fault with
  | scan fault => cases fault <;> rfl
  | missingOperand | unexpectedToken | unknownMnemonic | invalidOperand => rfl

theorem ParseFault.Marks.line_report {source : List Char} {line : Nat} {fault : ParseFault}
    (marks : fault.Marks source line) (name : String) :
    (fault.report name).line source = line + 1 := by
  rw [Report.line, (fault.report_span name).1, ← marks.line]

namespace Reading.Ordered

variable {source : List Char} {line : Nat} {faults : List ParseFault}

/-- Every fault covers some characters, on this line or a later one. -/
theorem marks_of_mem (ordered : Ordered source line faults) :
    ∀ fault ∈ faults, ∃ here, line ≤ here ∧ fault.Marks source here := by
  induction ordered with
  | nil => simp
  | inLine order _ marks _ ih =>
    rw [List.forall_mem_cons]
    refine ⟨⟨_, order, marks⟩, ?_⟩
    intro fault member
    obtain ⟨here, later, marks⟩ := ih fault member
    exact ⟨here, by omega, marks⟩
  | scan order _ marks => simpa using ⟨_, order, marks⟩
  | twice order marks later again =>
    simp only [List.forall_mem_cons]
    exact ⟨⟨_, order, marks⟩, ⟨_, Nat.le_trans order later, again⟩, by simp⟩

theorem line_le_of_mem (ordered : Ordered source line faults) (name : String) :
    ∀ fault ∈ faults, line < (fault.report name).line source := by
  intro fault member
  obtain ⟨here, order, marks⟩ := ordered.marks_of_mem fault member
  rw [marks.line_report name]
  omega

/-- Up to the last fault, each one is on a later line than those before it. -/
theorem pairwise_dropLast (ordered : Ordered source line faults) (name : String) :
    (faults.dropLast.map fun fault => (fault.report name).line source).Pairwise (· < ·) := by
  induction ordered with
  | nil => simp
  | @inLine line here fault faults order own marks later ih =>
    cases faults with
    | nil => simp
    | cons next rest =>
      rw [List.dropLast_cons_of_ne_nil (by simp), List.map_cons, List.pairwise_cons]
      refine ⟨?_, ih⟩
      intro other member
      obtain ⟨fault', among, rfl⟩ := List.mem_map.mp member
      have beyond := later.line_le_of_mem name fault' (List.dropLast_subset _ among)
      rw [marks.line_report name]
      omega
  | scan => simp
  | twice => simp

/-- The last fault is on a later line than those before it, or it is a fault of the scan. -/
theorem last_line (ordered : Ordered source line faults) (name : String) :
    ∀ last ∈ faults.getLast?, ∀ fault ∈ faults.dropLast,
      (fault.report name).line source < (last.report name).line source ∨
        (fault.report name).line source = (last.report name).line source ∧ last.isLexical := by
  induction ordered with
  | nil => simp
  | @inLine line here fault faults order own marks later ih =>
    cases faults with
    | nil => simp
    | cons next rest =>
      intro last final
      rw [List.getLast?_cons_cons] at final
      rw [List.dropLast_cons_of_ne_nil (by simp), List.forall_mem_cons]
      refine ⟨.inl ?_, ih last final⟩
      have beyond := later.line_le_of_mem name last (List.mem_of_getLast? final)
      rw [marks.line_report name]
      omega
  | scan => simp
  | twice order marks later again lexical =>
    simp only [List.getLast?_cons_cons, List.getLast?_singleton, Option.mem_def, Option.some.injEq,
      List.dropLast_cons_cons, List.dropLast_singleton, List.mem_singleton]
    intro last final fault same
    rw [same, ← final, marks.line_report name, again.line_report name]
    rcases Nat.lt_or_eq_of_le later with less | equal
    · exact .inl (by omega)
    · exact .inr ⟨by omega, lexical⟩

/-- Without faults of the scan no line has two. -/
theorem pairwise_of_own (ordered : Ordered source line faults) (name : String)
    (own : ∀ fault ∈ faults, fault.isLexical = false) :
    (faults.map fun fault => (fault.report name).line source).Pairwise (· < ·) := by
  induction ordered with
  | nil => simp
  | @inLine line here fault faults order _ marks later ih =>
    rw [List.map_cons, List.pairwise_cons]
    refine ⟨?_, ih (List.forall_mem_cons.mp own).2⟩
    intro other member
    obtain ⟨fault', among, rfl⟩ := List.mem_map.mp member
    have beyond := later.line_le_of_mem name fault' among
    rw [marks.line_report name]
    omega
  | scan => simp
  | twice _ _ _ _ lexical =>
    have plain := own _ (List.mem_cons_of_mem _ List.mem_cons_self)
    cases plain.symm.trans lexical

end Reading.Ordered

namespace Grammar

/-- The faults of malformed lines are not faults of the scan. -/
theorem Faults.own {place : Nat → Position} {ls : List SourceLine} {faults : List ParseFault}
    (blamed : Faults place ls faults) : ∀ fault ∈ faults, fault.isLexical = false := by
  induction blamed with
  | nil => simp
  | sound _ _ ih => exact ih
  | @malformed l ls fault faults _ blames _ ih =>
    rw [List.forall_mem_cons]
    refine ⟨?_, ih⟩
    cases fault with
    | scan => exact blames.elim
    | missingOperand | unexpectedToken | unknownMnemonic | invalidOperand => rfl

end Grammar

namespace Program

theorem ofSource_eq_error {name source : String} {reports : List Report}
    (failed : ofSource name source = .error reports) :
    ∃ faults, parse source.toList = .error faults ∧ reports = faults.map (ParseFault.report name) := by
  rw [ofSource_eq] at failed
  cases parsed : parse source.toList with
  | ok program =>
    rw [parsed] at failed
    cases failed
  | error faults =>
    rw [parsed] at failed
    cases failed
    exact ⟨faults, rfl, rfl⟩

theorem own_of_faultless {source : List Char} {faults : List ParseFault}
    (scanned : (Token.Stream.ofChars source).Faultless) (failed : parse source = .error faults) :
    ∀ fault ∈ faults, fault.isLexical = false := by
  obtain ⟨tokens, scanned⟩ := scanned
  rcases parse_of_tokens scanned with ⟨program, parsed, _⟩ | ⟨others, again, _, blamed⟩
  · cases failed.symm.trans parsed
  · cases failed.symm.trans again
    exact blamed.own

/-- Up to the last report, each one starts on a later line than those before it. So does the last one, or
else it starts on the same line as the one before and is about a part that makes no token. In a text
without such parts every report starts on a line of its own. -/
theorem report_lines_rise {name source : String} {reports : List Report}
    (failed : ofSource name source = .error reports) :
    (reports.dropLast.map (Report.line source.toList)).Pairwise (· < ·) ∧
    (∀ last ∈ reports.getLast?, ∀ r ∈ reports.dropLast,
      r.line source.toList < last.line source.toList ∨
        r.line source.toList = last.line source.toList ∧ last.isLexical) ∧
    ((Token.Stream.ofChars source.toList).Faultless →
      (reports.map (Report.line source.toList)).Pairwise (· < ·)) := by
  obtain ⟨faults, parsed, rfl⟩ := ofSource_eq_error failed
  have ordered := ordered_of_parse parsed
  rw [← List.map_dropLast, List.getLast?_map]
  refine ⟨?_, ?_, ?_⟩
  · rw [List.map_map]
    exact ordered.pairwise_dropLast name
  · intro last final r member
    obtain ⟨fault, found, rfl⟩ := Option.map_eq_some_iff.mp final
    obtain ⟨other, among, rfl⟩ := List.mem_map.mp member
    rw [ParseFault.isLexical_report]
    exact ordered.last_line name fault found other among
  · intro scanned
    rw [List.map_map]
    exact ordered.pairwise_of_own name (own_of_faultless scanned parsed)

section Dollar

open Token.Stream (scan scan_eq_cons)

theorem scan_of_dollar : Token.Stream.ofChars "mov r0, $1".toList =
    ⟨[.ok ⟨.word "mov", 0, 3⟩, .ok ⟨.word "r0", 4, 6⟩, .ok ⟨.punct .comma, 6, 7⟩], some 8⟩ := by
  have stuck : scan 7 [' ', '$', '1'] = ⟨[], some 8⟩ := by
    rw [scan]
    rfl
  have comma : scan 6 [',', ' ', '$', '1'] = ⟨[.ok ⟨.punct .comma, 6, 7⟩], some 8⟩ := by
    rw [scan_eq_cons rfl rfl, stuck]
    rfl
  have register : scan 3 [' ', 'r', '0', ',', ' ', '$', '1'] =
      ⟨[.ok ⟨.word "r0", 4, 6⟩, .ok ⟨.punct .comma, 6, 7⟩], some 8⟩ := by
    rw [scan_eq_cons rfl rfl]
    exact congrArg _ comma
  change scan 0 ['m', 'o', 'v', ' ', 'r', '0', ',', ' ', '$', '1'] = _
  rw [scan_eq_cons rfl rfl]
  exact congrArg _ register

/-- The character is met when the register is taken, and once more when the rest of the line is passed
over. -/
theorem parse_of_dollar : parse "mov r0, $1".toList =
    .error [.scan (.unexpectedCharacter 8), .scan (.unexpectedCharacter 8)] := by
  let w : Window := ⟨10, 6, some ⟨.word "mov", 0, 3⟩, some ⟨.word "r0", 4, 6⟩,
    ⟨[.ok ⟨.punct .comma, 6, 7⟩], some 8⟩⟩
  let after : Window := ⟨10, 8, some ⟨.punct .comma, 6, 7⟩, none, ⟨[], some 8⟩⟩
  have opened : Window.ofChars "mov r0, $1".toList = .ok w := by
    unfold Window.ofChars
    rw [scan_of_dollar]
    rfl
  have failed : Reading.line (.ofChars "mov r0, $1".toList) w =
      .error (.scan (.unexpectedCharacter 8)) after := by
    rw [Reading.line_eq_instruction rfl rfl (by simp [w])]
    rfl
  have skipped : Reading.skipLine after = .failed (.scan (.unexpectedCharacter 8)) := by
    rw [Reading.skipLine]
    rfl
  unfold parse
  rw [opened]
  dsimp only
  rw [Reading.lines_of_second_fault failed skipped]

theorem ofSource_of_dollar : ofSource "main.ir" "mov r0, $1" =
    .error (List.replicate 2 ((ScanFault.unexpectedCharacter 8).report "main.ir")) := by
  rw [ofSource_eq, parse_of_dollar]
  rfl

/-- The last two reports start on one line, and the last of them is about a character that starts no
token. -/
theorem report_lines_rise_of_dollar :
    ∃ reports, ofSource "main.ir" "mov r0, $1" = .error reports ∧
      (reports.dropLast.map (Report.line "mov r0, $1".toList)).Pairwise (· < ·) ∧
      ∀ last ∈ reports.getLast?, ∀ r ∈ reports.dropLast,
        r.line "mov r0, $1".toList = last.line "mov r0, $1".toList ∧ last.isLexical := by
  refine ⟨_, ofSource_of_dollar, (report_lines_rise ofSource_of_dollar).1, ?_⟩
  intro last final r member
  have order := (report_lines_rise ofSource_of_dollar).2.1 last final r member
  cases final
  cases List.mem_singleton.mp member
  rcases order with less | same
  · exact absurd less (Nat.lt_irrefl _)
  · exact same

/-- A character that starts no token is reported twice: both reports are the same, and so is their line. -/
theorem two_reports_of_one_character :
    ∃ reports, ofSource "main.ir" "mov r0, $1" = .error reports ∧ reports.length = 2 ∧
      ¬ (reports.map (Report.line "mov r0, $1".toList)).Nodup ∧ ¬ reports.Nodup := by
  refine ⟨_, ofSource_of_dollar, rfl, ?_, ?_⟩
  · simp
  · simp

end Dollar

end Program

end CrossAsm
