import CrossAsm.Assembly
import CrossAsm.Proofs.Offence
import CrossAsm.Proofs.ReportLines

/-!
Where diagnostics point to. An instruction carries the line and column of its first word, and from these
one comes back to the offset of this word and to the end of its line (`Instruction.StartsAt.range`). So
what is said about a text without an image can always be drawn, and for an instruction that cannot be
generated it is drawn from its first character to the end of its line (`assemble_reports_placed`).
-/
namespace CrossAsm

variable {memory : Memory}

/-- The characters from an offset to the end of its line. -/
def restOfLine (source : List Char) (offset : Nat) : List Char :=
  (source.drop offset).takeWhile (· ≠ '\n')

namespace LineMap

variable {source : List Char} {offset : Nat}

/-- From a position one comes back to its offset, and to the end of its line. -/
theorem range_ofOffset (inside : offset ≤ source.length) (small : offset < 0xFFFFFFFF) :
    (ofChars source).range (.ofOffset source offset) =
      ⟨offset, max (offset + (restOfLine source offset).length) (offset + 1)⟩ := by
  obtain ⟨front, part, before, whole, single, reached, place⟩ := Position.exists_line inside
  have lines : front.count '\n' ≤ front.length := List.count_le_length
  have words : UInt32.size = 0x100000000 := rfl
  have found := range_of_line (p := ⟨UInt32.ofNat (front.count '\n' + 1), UInt32.ofNat (part.length + 1)⟩)
    whole single (source.drop offset) (UInt32.toNat_ofNat_of_lt (by omega))
    (UInt32.toNat_ofNat_of_lt (by omega))
  rw [← List.append_assoc, ← before, List.take_append_drop, reached] at found
  rw [place, found]
  rfl

/-- What belongs to no instruction is shown at the first line. -/
theorem range_nowhere (source : List Char) :
    (ofChars source).range .nowhere = (ofChars source).range (.ofOffset source 0) := rfl

end LineMap

/-- A span of some characters of a text of so many. -/
def Span.Within (length : Nat) (span : Span) : Prop := span.start < span.stop ∧ span.stop ≤ length

/-- The report and its remarks are about some characters of a text of so many. -/
def Report.Within (length : Nat) (r : Report) : Prop :=
  r.span.Within length ∧ ∀ l ∈ r.labels, l.span.Within length

section Bounds

variable {source : List Char} {offset : Nat}

theorem length_restOfLine_le (inside : offset ≤ source.length) :
    offset + (restOfLine source offset).length ≤ source.length := by
  have short : (restOfLine source offset).length ≤ (source.drop offset).length :=
    (List.takeWhile_prefix _).length_le
  rw [List.length_drop] at short
  omega

/-- What has no newline in it stands on one line. -/
theorem length_le_restOfLine {part : List Char} (stands : part <+: source.drop offset)
    (single : '\n' ∉ part) : part.length ≤ (restOfLine source offset).length := by
  obtain ⟨rest, same⟩ := stands
  have all : ∀ c ∈ part, decide (c ≠ '\n') = true := by
    intro c member
    rw [decide_eq_true_iff]
    rintro rfl
    exact single member
  rw [restOfLine, ← same, List.takeWhile_append_of_pos all, List.length_append]
  omega

/-- From the position of an instruction one comes to where it starts and where its line ends. -/
theorem Instruction.StartsAt.range {i : Instruction} (starts : i.StartsAt source offset)
    (small : source.length < 0x100000000) :
    (LineMap.ofChars source).range i.pos = ⟨offset, offset + (restOfLine source offset).length⟩ ∧
      ((LineMap.ofChars source).range i.pos).Within source.length := by
  obtain ⟨place, word, _, stands, _⟩ := starts
  have long := Lexeme.length_pos stands.valid
  have stop := stands.stop_le
  have held := length_le_restOfLine stands.spelled
    (Lexeme.newline_not_mem_chars stands.valid (by simp))
  have inside := length_restOfLine_le (show offset ≤ source.length by omega)
  rw [place, LineMap.range_ofOffset (by omega) (by omega), Nat.max_eq_left (by omega)]
  refine ⟨rfl, ?_, inside⟩
  change offset < offset + (restOfLine source offset).length
  omega

theorem LineMap.within_range_nowhere (some : 0 < source.length) :
    ((ofChars source).range .nowhere).Within source.length := by
  have inside := length_restOfLine_le (Nat.zero_le source.length)
  rw [range_nowhere, range_ofOffset (Nat.zero_le _) (by decide)]
  refine ⟨?_, ?_⟩
  · change 0 < max _ _
    omega
  · change max _ _ ≤ _
    omega

end Bounds

theorem Report.Within.drawable {length : Nat} {r : Report} (within : r.Within length) : r.Drawable := by
  intro l member
  exact Nat.le_of_lt (within.2 l member).1

theorem Report.within_single {length : Nat} {span : Span} (within : span.Within length) (name : String)
    (code : Code) (message remark : String) : (single name code message span remark).Within length := by
  refine ⟨within, ?_⟩
  intro l member
  cases List.mem_singleton.mp member
  exact within

/-- The reports on lines that cannot be read are about characters of the text. -/
theorem Program.within_of_ofSource {name source : String} {reports : List Report}
    (failed : ofSource name source = .error reports) :
    ∀ r ∈ reports, r.Within source.toList.length := by
  obtain ⟨faults, parsed, rfl⟩ := ofSource_eq_error failed
  intro r member
  obtain ⟨fault, among, rfl⟩ := List.mem_map.mp member
  obtain ⟨_, _, marks⟩ := (ordered_of_parse parsed).marks_of_mem fault among
  obtain ⟨span, labels⟩ := fault.report_span name
  have within : fault.span.Within source.toList.length := ⟨marks.order, marks.inside⟩
  refine ⟨by rw [span]; exact within, ?_⟩
  intro l here
  rw [labels l here]
  exact within

/-- There is always an image of no instructions. -/
theorem generate_nil (arch : Arch) : ∃ image, generate memory arch [] = .ok image := by
  have room : 0 < memory.limit := Nat.zero_lt_of_lt memory.enough
  cases arch with
  | mcs51 =>
    have made : Mcs51.generate memory [] = .ok _ :=
      Mcs51.generate_eq_ok_iff.mpr ⟨rfl, room, rfl, rfl⟩
    exact ⟨_, made⟩
  | x64 =>
    have made : X64.generate memory [] = .ok _ :=
      X64.generate_eq_ok_iff.mpr ⟨rfl, room, rfl, _, rfl, decide_eq_true room, rfl⟩
    exact ⟨_, made⟩

section Assembly

variable {arch : Arch} {name source : String} {program : List Instruction} {fault : FaultAt}

/-- Without an image there are reports: on the lines that cannot be read, or on one instruction. -/
theorem assemble_eq_error {failure : AssemblyFailure}
    (failed : assemble memory arch name source = .error failure) :
    (∃ reports, Program.ofSource name source = .error reports ∧ failure = .reported reports) ∨
      ∃ program fault, Program.ofSource name source = .ok program ∧
        generate memory arch program = .error (.rejected fault) ∧
        failure = .reported [.ofFault name (.ofChars source.toList) arch fault] := by
  unfold assemble at failed
  cases read : Program.ofSource name source with
  | error reports =>
    rw [read] at failed
    cases failed
    exact .inl ⟨reports, rfl, rfl⟩
  | ok program =>
    rw [read] at failed
    change (generate memory arch program).mapError _ = .error failure at failed
    cases made : generate memory arch program with
    | ok image =>
      rw [made] at failed
      cases failed
    | error reason =>
      obtain ⟨fault, rfl, _⟩ := generate_eq_error made
      rw [made] at failed
      cases failed
      exact .inr ⟨program, fault, rfl, made, rfl⟩

/-- The fault of an instruction is shown from where the instruction starts to the end of its line. -/
theorem range_of_generate (small : source.toList.length < 0x100000000)
    (parsed : Program.ofSource name source = .ok program)
    (failed : generate memory arch program = .error (.rejected fault)) :
    ((LineMap.ofChars source.toList).range fault.pos).Within source.toList.length ∧
      (fault.fault ≠ .outOfMemory → ∃ index i offset, program[index]? = some i ∧
        Offends memory arch program index i fault.fault ∧ i.StartsAt source.toList offset ∧
        (LineMap.ofChars source.toList).range fault.pos =
          ⟨offset, offset + (restOfLine source.toList offset).length⟩) := by
  have parsed := Program.ofSource_eq_ok_iff.mp parsed
  obtain ⟨report, same, cause⟩ := generate_eq_error failed
  cases same
  rcases cause with rfl | ⟨index, i, present, place, offends⟩
  · refine ⟨?_, fun other => absurd rfl other⟩
    apply LineMap.within_range_nowhere
    cases program with
    | nil =>
      obtain ⟨image, made⟩ := generate_nil arch
      cases failed.symm.trans made
    | cons i rest =>
      obtain ⟨offset, _, word, _, stands, _⟩ := Program.exists_startsAt parsed List.mem_cons_self
      have long := Lexeme.length_pos stands.valid
      have stop := stands.stop_le
      omega
  · obtain ⟨offset, starts⟩ := Program.exists_startsAt parsed (List.mem_of_getElem? present)
    obtain ⟨range, within⟩ := starts.range small
    rw [← place]
    exact ⟨within, fun _ => ⟨index, i, offset, present, offends, starts, range⟩⟩

/-- If a text has no image, all that is said about it can be drawn: each report and each of its remarks
covers some characters of the text. If it is a program for which no code can be generated, other than for
want of memory, the one report covers the line of the offending instruction from where this starts. -/
theorem assemble_reports_placed (small : source.toList.length < 0x100000000)
    {failure : AssemblyFailure} (failed : assemble memory arch name source = .error failure) :
    ∃ reports, failure = .reported reports ∧
      (∀ r ∈ reports, r.Drawable ∧ r.Within source.toList.length) ∧
      ∀ program fault, Program.ofSource name source = .ok program →
        generate memory arch program = .error (.rejected fault) → fault.fault ≠ .outOfMemory →
        ∃ index i offset, program[index]? = some i ∧ Offends memory arch program index i fault.fault ∧
          i.StartsAt source.toList offset ∧
          reports = [.single name .generation fault.fault.message
            ⟨offset, offset + (restOfLine source.toList offset).length⟩
            ("while generating code for " ++ arch.name)] := by
  rcases assemble_eq_error failed with ⟨reports, unread, rfl⟩ | ⟨program, fault, read, ungenerated, rfl⟩
  · refine ⟨reports, rfl, ?_, ?_⟩
    · intro r member
      have within := Program.within_of_ofSource unread r member
      exact ⟨within.drawable, within⟩
    · intro program fault read
      cases unread.symm.trans read
  · obtain ⟨within, placed⟩ := range_of_generate small read ungenerated
    refine ⟨_, rfl, ?_, ?_⟩
    · intro r member
      cases List.mem_singleton.mp member
      have within := Report.within_single within name .generation fault.fault.message
        ("while generating code for " ++ arch.name)
      exact ⟨within.drawable, within⟩
    · intro program' fault' read' ungenerated' other
      cases read.symm.trans read'
      cases ungenerated.symm.trans ungenerated'
      obtain ⟨index, i, offset, present, offends, starts, range⟩ := placed other
      refine ⟨index, i, offset, present, offends, starts, ?_⟩
      rw [Report.ofFault, range]

end Assembly

/-- A jump to nowhere is reported from its mnemonic to the end of its line. -/
theorem assemble_reports_placed_of_unresolved_jump :
    "nop\n  jmp away".toList.length < 0x100000000 ∧
      Program.ofSource "main.ir" "nop\n  jmp away" =
        .ok [⟨.nop, ⟨1, 1⟩⟩, ⟨.jmp "away", ⟨2, 3⟩⟩] ∧
      generate .ofProcess .x64 [⟨.nop, ⟨1, 1⟩⟩, ⟨.jmp "away", ⟨2, 3⟩⟩] =
        .error (.rejected ⟨⟨2, 3⟩, .unresolvedSymbol "away"⟩) ∧
      ∃ index i offset, [⟨.nop, ⟨1, 1⟩⟩, ⟨.jmp "away", ⟨2, 3⟩⟩][index]? = some i ∧
        Offends .ofProcess .x64 [⟨.nop, ⟨1, 1⟩⟩, ⟨.jmp "away", ⟨2, 3⟩⟩] index i
          (.unresolvedSymbol "away") ∧
        i.StartsAt "nop\n  jmp away".toList offset ∧
        assemble .ofProcess .x64 "main.ir" "nop\n  jmp away" = .error (.reported
          [.single "main.ir" .generation "unresolved symbol `away`"
            ⟨offset, offset + (restOfLine "nop\n  jmp away".toList offset).length⟩
            "while generating code for x86_64"]) := by
  have small : "nop\n  jmp away".toList.length < 0x100000000 := by decide
  have read : Program.ofSource "main.ir" "nop\n  jmp away" =
      .ok [⟨.nop, ⟨1, 1⟩⟩, ⟨.jmp "away", ⟨2, 3⟩⟩] := by
    let tokens : List Token := [⟨.word "nop", 0, 3⟩, ⟨.newline, 3, 4⟩, ⟨.word "jmp", 6, 9⟩,
      ⟨.word "away", 10, 14⟩]
    let lexemes : List Lexeme := [.word "nop", .newline, .blank, .blank, .word "jmp", .blank,
      .word "away"]
    have valid : ∀ l ∈ lexemes, l.Valid := by
      simp only [lexemes, List.forall_mem_cons]
      exact ⟨rfl, trivial, trivial, trivial, rfl, trivial, rfl, by simp⟩
    have scanned : Token.Stream.ofChars "nop\n  jmp away".toList = ⟨tokens.map .ok, none⟩ :=
      Lexeme.scan_chars valid rfl 0
    have first : Grammar.Line (.ofOffset "nop\n  jmp away".toList) [⟨.word "nop", 0, 3⟩]
        [⟨.nop, ⟨1, 1⟩⟩] :=
      .instruction (m := .nop) rfl rfl .nothing
    have second : Grammar.Line (.ofOffset "nop\n  jmp away".toList)
        [⟨.word "jmp", 6, 9⟩, ⟨.word "away", 10, 14⟩] [⟨.jmp "away", ⟨2, 3⟩⟩] :=
      .instruction (m := .jmp) rfl rfl (.symbol ⟨rfl, rfl⟩)
    have lines : Grammar.Lines (.ofOffset "nop\n  jmp away".toList) [⟨_, 3⟩, ⟨_, 14⟩] _ :=
      .cons first (.cons second .nil)
    rw [Program.ofSource_eq_ok_iff]
    exact (Program.parse_eq_ok_iff_lines scanned).mpr lines
  have ungenerated : generate .ofProcess .x64 [⟨.nop, ⟨1, 1⟩⟩, ⟨.jmp "away", ⟨2, 3⟩⟩] =
      .error (.rejected ⟨⟨2, 3⟩, .unresolvedSymbol "away"⟩) := rfl
  have failed : assemble .ofProcess .x64 "main.ir" "nop\n  jmp away" = .error (.reported
      [.ofFault "main.ir" (.ofChars "nop\n  jmp away".toList) .x64
        ⟨⟨2, 3⟩, .unresolvedSymbol "away"⟩]) := by
    rw [assemble, read]
    rfl
  obtain ⟨reports, same, _, placed⟩ := assemble_reports_placed small failed
  cases same
  obtain ⟨index, i, offset, present, offends, starts, said⟩ :=
    placed _ _ read ungenerated (by decide)
  refine ⟨small, read, ungenerated, index, i, offset, present, offends, starts, ?_⟩
  rw [failed, said]
  rfl

end CrossAsm
