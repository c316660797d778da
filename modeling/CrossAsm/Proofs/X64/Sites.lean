import CrossAsm.Proofs.X64.Emission

/-!
The displacements in x86-64 code. `site?` is a table of the operations that refer to a symbol and of
where in their code the displacement stands. Lowering keeps to it: such an operation becomes one
instruction with four zero bytes there, and no other operation refers to anything
(`relocationsOf_lower`, `holds_of_site`).
-/
namespace CrossAsm.X64

/-- The place of a displacement in the code of an operation, and the symbol that it reaches. -/
structure Site where
  name : String
  reference : Reference
  /-- How far the displacement is from the start of the code. -/
  field : Nat
  /-- The size of the code. -/
  width : Nat
  deriving DecidableEq, Repr

/-- The displacement of an operation, if its code has one. -/
def site? : Operation → Option Site
  | .jmp target | .call target => some ⟨target, .code, 1, 5⟩
  | .branch _ target => some ⟨target, .code, 2, 6⟩
  | .set name (.reg _) => some ⟨name, .data, 3, 7⟩
  | .set name (.imm _) => some ⟨name, .data, 3, 11⟩
  | .get _ name => some ⟨name, .data, 3, 7⟩
  | _ => none

namespace Site

variable {site : Site} {op : Operation}

/-- The relocation of code that starts at `start`. -/
def relocation (site : Site) (pos : Position) (start : Nat) : Relocation :=
  ⟨site.name, start + site.field, start + site.width, pos, site.reference⟩

/-- The instruction refers to the symbol of the site by a displacement that is still zero. -/
structure Fits (site : Site) (s : Step) : Prop where
  refers : s.refers = some (site.name, site.reference)
  field : s.instr.displacementOffset = some site.field
  width : s.bytes.length = site.width
  blank : ∃ front back, s.bytes = front ++ (Instr.zeroWord ++ back) ∧ front.length = site.field

theorem isCode_of_site? (referring : site? op = some site) : op.isCode := by
  cases op with
  | label | var | buffer | org => cases referring
  | _ => rfl

/-- The displacement ends inside the code. -/
theorem stop_le_width (referring : site? op = some site) : site.field + 4 ≤ site.width := by
  cases op with
  | jmp | call | branch | get =>
    cases referring
    dsimp only
    omega
  | set name src =>
    cases src <;> cases referring <;> dsimp only <;> omega
  | _ => cases referring

/-- Lowering keeps to the table. -/
theorem fits_of_lower {symbols : SymbolTable} {steps : List Step} (referring : site? op = some site)
    (all : lower symbols op = steps.map .ok) : ∃ s, steps = [s] ∧ site.Fits s := by
  cases op with
  | jmp | call =>
    cases referring
    obtain ⟨s, made, rfl⟩ := singleton_eq_map_ok all
    cases made
    exact ⟨_, rfl, rfl, rfl, rfl, [_], [], rfl, rfl⟩
  | branch condition =>
    cases referring
    obtain ⟨s, made, rfl⟩ := singleton_eq_map_ok all
    cases made
    exact ⟨_, rfl, rfl, rfl, rfl, [_, _], [], rfl, rfl⟩
  | set name src =>
    cases src with
    | reg r =>
      cases referring
      rw [lower] at all
      split at all
      · obtain ⟨_, made, _⟩ := singleton_eq_map_ok all
        cases made
      · obtain ⟨reg, _, all⟩ := require_eq_map_ok all
        obtain ⟨s, made, rfl⟩ := singleton_eq_map_ok all
        cases made
        exact ⟨_, rfl, rfl, rfl, rfl, [_, _, _], [], rfl, rfl⟩
    | imm n =>
      cases referring
      rw [lower] at all
      split at all
      · obtain ⟨_, made, _⟩ := singleton_eq_map_ok all
        cases made
      · obtain ⟨imm, _, all⟩ := require_eq_map_ok all
        obtain ⟨s, made, rfl⟩ := singleton_eq_map_ok all
        cases made
        exact ⟨_, rfl, rfl, rfl, rfl, [_, _, _], Instr.immBytes imm, rfl, rfl⟩
  | get dest name =>
    cases referring
    obtain ⟨d, _, all⟩ := require_eq_map_ok all
    split at all
    · obtain ⟨s, made, rfl⟩ := singleton_eq_map_ok all
      cases made
      exact ⟨_, rfl, rfl, rfl, rfl, [_, _, _], [], rfl, rfl⟩
    · obtain ⟨s, made, rfl⟩ := singleton_eq_map_ok all
      cases made
      exact ⟨_, rfl, rfl, rfl, rfl, [_, _, _], [], rfl, rfl⟩
  | _ => cases referring

end Site

/-- The step refers to no symbol. -/
def Silent (step : Except Fault Step) : Prop := ∀ s, step = .ok s → s.refers = none

theorem silent_plain (i : Except Fault Instr) : Silent (plain i) := by
  intro s made
  obtain ⟨instr, _, rfl⟩ := map_eq_ok_iff.mp made
  rfl

theorem silent_error (fault : Fault) : Silent (.error fault) := by
  intro s made
  cases made

/-- Operations that are not in the table refer to no symbol. -/
theorem silent_lower (symbols : SymbolTable) {op : Operation} (unreferring : site? op = none) :
    Each Silent (lower symbols op) := by
  cases op with
  | label | var | buffer | org => exact .nil
  | mov | store | binary | cmp =>
    exact each_withOperand (fun _ _ => silent_error _) (fun _ _ => silent_plain _)
      (fun _ _ => silent_plain _)
  | product op =>
    cases op with
    | mul =>
      exact each_withOperand (fun _ _ => silent_error _) (fun _ _ => silent_plain _)
        (fun _ _ => silent_plain _)
    | div | mod =>
      exact .require (fun _ _ => silent_error _) fun p _ =>
        each_division (fun _ _ i _ => silent_plain (.ok i)) (fun _ => silent_plain _)
          (fun _ => silent_plain _)
  | load | unary | shift | ret | halt | nop | push | pop | int => exact .single (silent_plain _)
  | bit | bitBranch | djnz => exact .single (silent_error _)
  | jmp | call | branch | get => cases unreferring
  | set name src => cases src <;> cases unreferring

theorem relocationsOf_of_silent {steps : List Step} (silent : Each Silent (steps.map .ok))
    (pos : Position) (start : Nat) : Output.relocationsOf pos start steps = [] := by
  induction steps generalizing start with
  | nil => rfl
  | cons s rest ih =>
    obtain ⟨first, later⟩ := List.forall_mem_cons.mp silent
    have unreferring : s.refers = none := first s rfl
    have unrelocated : Output.relocation? pos start s = none := by
      rw [Output.relocation?, unreferring]
      rfl
    rw [Output.relocationsOf, unrelocated, ih later]
    rfl

theorem Site.Fits.relocation? {site : Site} {s : Step} (fits : site.Fits s) (pos : Position)
    (start : Nat) : Output.relocation? pos start s = some (site.relocation pos start) := by
  have width : s.instr.bytes.length = site.width := fits.width
  rw [Output.relocation?, fits.refers, fits.field]
  simp only [Option.bind_eq_bind, Option.bind_some, Site.relocation, width]
  rfl

/-- The relocations of the code of an operation are those of the table. -/
theorem relocationsOf_lower {symbols : SymbolTable} {op : Operation} {steps : List Step}
    (all : lower symbols op = steps.map .ok) (pos : Position) (start : Nat) :
    Output.relocationsOf pos start steps =
      ((site? op).map fun site => site.relocation pos start).toList := by
  cases referring : site? op with
  | none => exact relocationsOf_of_silent (all ▸ silent_lower symbols referring) pos start
  | some site =>
    obtain ⟨s, rfl, fits⟩ := Site.fits_of_lower referring all
    rw [Output.relocationsOf, Output.relocationsOf, fits.relocation?]
    rfl

end CrossAsm.X64
