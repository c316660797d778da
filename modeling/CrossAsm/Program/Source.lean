import CrossAsm.Program.Line

/-!
The parser on a whole source text, line by line. After a line that cannot be read the next one is tried; a
fault met while passing over a bad line is reported as well and ends the reading.
-/
namespace CrossAsm

namespace Reading

/-- The instructions of the lines that can be read, and the faults of the others. -/
def lines (places : LineMap) (w : Window) : List Instruction × List ParseFault :=
  match _read : line places w with
  | .ok (instructions, false) _ => (instructions, [])
  | .ok (instructions, true) after =>
    let rest := lines places after
    (instructions ++ rest.1, rest.2)
  | .error fault after =>
    match _skipped : skipLine after with
    | .finished => ([], [fault])
    | .failed second => ([], [fault, second])
    | .resumed next =>
      let rest := lines places next
      (rest.1, fault :: rest.2)
termination_by w.pending
decreasing_by
  · have bound := line_pending places w
    rw [_read] at bound
    exact bound rfl
  · have bound := line_pending places w
    rw [_read] at bound
    exact Nat.lt_of_lt_of_le (skipLine_pending _skipped) bound

end Reading

/-- The program that a source text holds, or why there is none. -/
def Program.parse (source : List Char) : Except (List ParseFault) (List Instruction) :=
  match Window.ofChars source with
  | .error fault => .error [.scan fault]
  | .ok w =>
    match Reading.lines (.ofChars source) w with
    | (instructions, []) => .ok instructions
    | (_, faults) => .error faults

/-- The log of a source text in which these faults are met one after another. -/
def ReportLog.ofFaults (name : String) (faults : List ParseFault) : ReportLog :=
  faults.foldl (fun log fault => log.add (fault.report log.source)) { source := name }

/-- Reads a source text of the given name; what its log holds at the end is handed out. -/
def Program.ofSource (name : String) (source : String) : Except (List Report) (List Instruction) :=
  (Program.parse source.toList).mapError fun faults => (ReportLog.ofFaults name faults).take.1

theorem ReportLog.foldl_add (faults : List ParseFault) (log : ReportLog) :
    faults.foldl (fun log fault => log.add (fault.report log.source)) log =
      ⟨log.source, log.reports ++ faults.map (ParseFault.report log.source)⟩ := by
  induction faults generalizing log with
  | nil => simp
  | cons fault faults ih =>
    rw [List.foldl_cons, ih]
    simp [add]

/-- There is one report for each fault, in their order. -/
theorem Program.ofSource_eq (name source : String) :
    ofSource name source = (parse source.toList).mapError (List.map (ParseFault.report name)) := by
  have taken : ∀ faults, (ReportLog.ofFaults name faults).take.1 = faults.map (ParseFault.report name) :=
    fun faults => congrArg ReportLog.reports (ReportLog.foldl_add faults { source := name })
  rw [ofSource, funext taken]

end CrossAsm
