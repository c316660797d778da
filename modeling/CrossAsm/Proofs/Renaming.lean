import CrossAsm.Proofs.Mcs51.Transcription
import CrossAsm.Proofs.Offence
import CrossAsm.Proofs.X64.Transcription

/-!
Renaming. Other names for the symbols of a program change the names in its symbol table and in what is
wrong with it, and nothing else, as long as no two names fall together (`generate_renamed`).
-/
namespace CrossAsm

variable {memory : Memory}

/-- The program with other names in it. -/
def renamed (f : String → String) (program : List Instruction) : List Instruction :=
  program.map fun i => { i with op := i.op.rename f }

theorem generate_transcribed (arch : Arch) (T : Transcription) {program : List Instruction}
    (injective : Set.InjOn T.name {name | name ∈ mentioned program}) :
    generate memory arch (program.map T.instruction) = T.outcome (generate memory arch program) := by
  cases arch with
  | mcs51 => exact Mcs51.generate_transcribed injective
  | x64 => exact X64.generate_transcribed injective

/-- Names do not matter. If no two names of a program fall together in a renaming, the renamed program
has an image exactly if the program has one. The two images have the same code and the same RAM, and
the same symbols under their new names; failures are of the same kind and at the same place. -/
theorem generate_renamed (arch : Arch) (program : List Instruction) (f : String → String)
    (injective : Set.InjOn f {name | name ∈ mentioned program}) :
    ((∃ image, generate memory arch (renamed f program) = .ok image) ↔
      ∃ image, generate memory arch program = .ok image) ∧
    (∀ image, generate memory arch program = .ok image →
      ∃ image', generate memory arch (renamed f program) = .ok image' ∧
        image'.code = image.code ∧ image'.codeSize = image.codeSize ∧ image'.ram = image.ram ∧
        image'.symbols.entries = image.symbols.entries.map fun entry => (f entry.1, entry.2)) ∧
    (∀ failure, generate memory arch program = .error failure →
      ∃ pos fault, failure = .rejected ⟨pos, fault⟩ ∧
        generate memory arch (renamed f program) = .error (.rejected ⟨pos, fault.rename f⟩) ∧
        (fault.rename f).ctorIdx = fault.ctorIdx) := by
  have outcome : generate memory arch (renamed f program) =
      (Transcription.ofNames f).outcome (generate memory arch program) :=
    generate_transcribed arch (.ofNames f) injective
  rw [outcome]
  cases generated : generate memory arch program with
  | ok image =>
    refine ⟨iff_of_true ⟨image.rename f, rfl⟩ ⟨image, rfl⟩, ?_, ?_⟩
    · intro _ same
      cases same
      exact ⟨image.rename f, rfl, rfl, rfl, rfl, rfl⟩
    · intro _ failed
      cases failed
  | error failure =>
    obtain ⟨⟨pos, fault⟩, rfl, _⟩ := generate_eq_error generated
    refine ⟨iff_of_false ?_ ?_, ?_, ?_⟩
    · rintro ⟨_, made⟩
      cases made
    · rintro ⟨_, made⟩
      cases made
    · intro _ made
      cases made
    · intro _ same
      cases same
      exact ⟨pos, fault, rfl, rfl, fault.ctorIdx_rename f⟩

/-- The names of a label and of a variable are exchanged. Where the label is jumped to there is code, and
where the variable is jumped to there is a fault; both are as before. -/
theorem generate_renamed_of_exchange :
    let exchange (name : String) := if name = "x" then "loop" else if name = "loop" then "x" else name
    let program : List Instruction := [⟨.label "loop", ⟨1, 1⟩⟩, ⟨.set "x" (.imm 5), ⟨2, 1⟩⟩,
      ⟨.jmp "loop", ⟨3, 1⟩⟩, ⟨.var "x" none, ⟨4, 1⟩⟩]
    let wrong : List Instruction := [⟨.var "x" none, ⟨1, 1⟩⟩, ⟨.jmp "x", ⟨2, 1⟩⟩]
    (∃ image image', generate .ofProcess .x64 program = .ok image ∧
      generate .ofProcess .x64 (renamed exchange program) = .ok image' ∧ image'.code = image.code ∧
      image'.symbols.entries = image.symbols.entries.map fun entry => (exchange entry.1, entry.2)) ∧
    generate .ofProcess .mcs51 wrong =
      .error (.rejected ⟨⟨2, 1⟩, .addressingMode (.notLabel "x" .var)⟩) ∧
    generate .ofProcess .mcs51 (renamed exchange wrong) =
      .error (.rejected ⟨⟨2, 1⟩, .addressingMode (.notLabel "loop" .var)⟩) := by
  intro exchange program wrong
  have apart : ∀ a ∈ ["loop", "x", "loop", "x"], ∀ b ∈ ["loop", "x", "loop", "x"],
      exchange a = exchange b → a = b := by decide
  have apart' : ∀ a ∈ ["x", "x"], ∀ b ∈ ["x", "x"], exchange a = exchange b → a = b := by decide
  constructor
  · obtain ⟨image, accepted⟩ : ∃ image, generate .ofProcess .x64 program = .ok image := ⟨_, rfl⟩
    obtain ⟨image', made, code, _, _, symbols⟩ :=
      (generate_renamed .x64 program exchange fun a ha b hb => apart a ha b hb).2.1 image accepted
    exact ⟨image, image', accepted, made, code, symbols⟩
  · have failed : generate .ofProcess .mcs51 wrong =
        .error (.rejected ⟨⟨2, 1⟩, .addressingMode (.notLabel "x" .var)⟩) := rfl
    obtain ⟨pos, fault, same, made, _⟩ :=
      (generate_renamed .mcs51 wrong exchange fun a ha b hb => apart' a ha b hb).2.2 _ failed
    cases same
    exact ⟨failed, made⟩

end CrossAsm
