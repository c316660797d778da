import CrossAsm.Proofs.Behind
import CrossAsm.Proofs.X64.Acceptance

/-!
Programs one behind the other on x86-64. The second is emitted as it is alone, with its code and its
relocations behind those of the first (`Output.Behind.run`), and its data are moved by the code of both.
So the code of the two programs stands in the image unchanged, one behind the other
(`code_concatenates`).
-/
namespace CrossAsm.X64

variable {memory : Memory}

section Emission

variable {t u : SymbolTable} {op : Operation} {pos : Position} {i : Instruction}
  {front a a' b : Output}

theorem renameStep_id (step : Except Fault Step) : renameStep id step = step := by
  cases step with
  | ok s =>
    obtain ⟨instr, refers⟩ := s
    cases refers <;> rfl
  | error fault => exact congrArg Except.error fault.rename_id

/-- Lowering depends on the kinds of the symbols and not on where they are. -/
theorem lower_of_same_kinds (kinds : ∀ name, op.mentions? = some name →
      (u.get? name).map Symbol.kind = (t.get? name).map Symbol.kind) : lower u op = lower t op := by
  have renamed := lower_rename (f := id) kinds
  rw [Operation.rename_id] at renamed
  rw [renamed, List.map_congr_left fun step _ => renameStep_id step, List.map_id']

theorem relocation?_later (pos : Position) (start distance : Nat) (s : Step) :
    Output.relocation? pos (start + distance) s =
      (Output.relocation? pos start s).map (Relocation.later distance) := by
  unfold Output.relocation?
  cases s.refers with
  | none => rfl
  | some target =>
    cases s.instr.displacementOffset with
    | none => rfl
    | some field =>
      change some (Relocation.mk _ (start + distance + field) (start + distance + _) _ _) =
        some (Relocation.mk _ (start + field + distance) (start + _ + distance) _ _)
      rw [Nat.add_right_comm start distance, Nat.add_right_comm start distance]

theorem relocationsOf_later (pos : Position) (start distance : Nat) (steps : List Step) :
    Output.relocationsOf pos (start + distance) steps =
      (Output.relocationsOf pos start steps).map (Relocation.later distance) := by
  induction steps generalizing start with
  | nil => rfl
  | cons s rest ih =>
    rw [Output.relocationsOf, Output.relocationsOf, Nat.add_right_comm, ih, List.map_append,
      relocation?_later, Option.toList_map]

/-- The output of a program behind another one: `front` is that of the first program, `a` that of the
second alone. -/
structure Output.Behind (front : Output) (t : SymbolTable) (a b : Output) : Prop where
  symbols : a.symbols = t
  symbols' : b.symbols = front.symbols
  code : b.code = front.code.join a.code
  relocations : b.relocations =
    front.relocations ++ a.relocations.map (Relocation.later front.code.size)

theorem Output.Behind.emit (behind : Behind front t a b) (same : lower front.symbols op = lower t op)
    (room : front.code.size + a'.code.size < memory.limit)
    (ran : emit memory op pos a = .ok () a') :
    ∃ b', Output.emit memory op pos b = .ok () b' ∧ Behind front t a' b' := by
  obtain ⟨steps, lowered, rfl⟩ := emit_eq_ok ran
  have lowered' : lower b.symbols op = steps.map .ok := by
    rw [behind.symbols', same, ← behind.symbols, lowered]
  have size : b.code.size = a.code.size + front.code.size := by
    rw [behind.code, CodeBuffer.size_join, Nat.add_comm]
  have held : b.code.size + (steps.flatMap Step.bytes).length < memory.limit := by
    rw [CodeBuffer.size_append] at room
    omega
  obtain ⟨b', ran'⟩ := emitter_gives.emit op pos b _ (clear_iff.mpr ⟨steps, lowered'⟩)
    (lower_size lowered') held
  refine ⟨b', ran', ?_⟩
  obtain ⟨steps', again, rfl⟩ := emit_eq_ok ran'
  cases List.map_injective_iff.mpr (fun _ _ => Except.ok.inj) (lowered'.symm.trans again)
  refine ⟨behind.symbols, behind.symbols', ?_, ?_⟩
  · rw [behind.code, CodeBuffer.append_join]
  · rw [behind.relocations, List.map_append, size, relocationsOf_later, List.append_assoc]

theorem Output.Behind.emitOne (behind : Behind front t a b)
    (unmoved : ∀ address, i.op ≠ .org address) (same : lower front.symbols i.op = lower t i.op)
    (room : front.code.size + a'.code.size < memory.limit)
    (ran : (emitter memory).emitOne i a = .ok () a') :
    ∃ b', (emitter memory).emitOne i b = .ok () b' ∧ Behind front t a' b' := by
  cases Emitter.emitOne_eq_ok_iff.mp ran with
  | label | var | buffer => exact ⟨b, rfl, behind⟩
  | org => exact absurd rfl (unmoved _)
  | @code op pos size _ isCode sized emitted grown =>
    obtain ⟨b', emitted', behind'⟩ := behind.emit same room emitted
    refine ⟨b', Emitter.emitOne_eq_ok_iff.mpr (.code isCode sized emitted' ?_), behind'⟩
    change a'.code.size = a.code.size + size at grown
    change b'.code.size = b.code.size + size
    rw [behind'.code, behind.code, CodeBuffer.size_join, CodeBuffer.size_join, grown, Nat.add_assoc]

/-- A program behind another one is emitted as it is alone, if there is memory for both. -/
theorem Output.Behind.run {program : List Instruction} (behind : Behind front t a b)
    (unmoved : ∀ i ∈ program, ∀ address, i.op ≠ .org address)
    (same : ∀ i ∈ program, lower front.symbols i.op = lower t i.op)
    (emitted : ((emitter memory).run a program).2 = none)
    (room : front.code.size + ((emitter memory).run a program).1.code.size < memory.limit) :
    ∃ out, (emitter memory).run b program = (out, none) ∧
      Behind front t ((emitter memory).run a program).1 out := by
  rw [← Emitter.pass_run, ← Emitter.pass_run]
  refine Pass.run_follows behind fun index i b present behind => ?_
  have member := List.mem_of_getElem? present
  have within : index + 1 ≤ program.length := (List.getElem?_eq_some_iff.mp present).1
  have grown : ((emitter memory).before a program (index + 1)).code.size ≤
      ((emitter memory).run a program).1.code.size :=
    emitter_appends.offset_le_run emitted within
  rw [Emitter.pass_before] at behind
  obtain ⟨b', ran, behind'⟩ := behind.emitOne (unmoved i member) (same i member) (by omega)
    (Emitter.before_succ emitted present)
  rw [Emitter.pass_before]
  exact ⟨b', Emitter.pass_eq_none.mpr ran, behind'⟩

end Emission

/-- The names in the table of an image are names of the program. -/
theorem within_of_generate {program : List Instruction} {image : Image}
    (accepted : X64.generate memory program = .ok image) :
    image.symbols.Within {name | name ∈ mentioned program} := by
  obtain ⟨laid, _⟩ := generate_eq_ok_iff.mp accepted
  rw [symbols_of_generate accepted]
  exact ((layout_transcribes (T := .identity) (Set.injOn_id _)).2 laid).2.rebaseData _

theorem instructions_and_data {image : Image} {code : CodeBuffer} {data : List UInt8}
    (whole : image.code = (code.append data).bytes) (size : code.size = image.codeSize) :
    image.instructions = code.bytes.toList ∧ image.data = data := by
  have length : code.bytes.toList.length = image.codeSize := by
    rw [Array.length_toList]
    exact size
  rw [Image.instructions, Image.data, whole, CodeBuffer.toList_append, ← length]
  exact ⟨List.take_left, List.drop_left⟩

/-- The parts of an image: the emitted code with its relocations filled in, and the data. -/
theorem parts_of_generate {program : List Instruction} {image : Image}
    (accepted : X64.generate memory program = .ok image) :
    ∃ code, Relocation.resolveAll image.symbols (emissionOf memory program).1.code
        (emissionOf memory program).1.relocations = .resolved code ∧
      code.size = image.codeSize ∧ image.instructions = code.bytes.toList ∧
      image.data = (layoutOf memory program).1.storage.bytes ∧
      image.code.size = image.codeSize + (layoutOf memory program).1.storage.bytes.length := by
  obtain ⟨code, resolved, whole⟩ := resolved_of_generate accepted
  have size : code.size = image.codeSize := by
    rw [Relocation.size_of_resolveAll resolved, size_emissionOf accepted,
      codeSize_of_generate accepted]
  obtain ⟨instructions, data⟩ := instructions_and_data whole size
  refine ⟨code, resolved, size, instructions, data, ?_⟩
  rw [whole, ← size]
  exact CodeBuffer.size_append _ _

/-- Two programs with an image each, of which the second can stand behind the first: the first has no
data, the second no `org`, they share no name, and there is memory for both images. -/
structure Joinable (memory : Memory) (first second : List Instruction) (one two : Image) : Prop where
  ofFirst : X64.generate memory first = .ok one
  ofSecond : X64.generate memory second = .ok two
  unstored : ∀ i ∈ first, i.op.isStorage = false
  unmoved : ∀ i ∈ second, ∀ address, i.op ≠ .org address
  apart : ∀ name ∈ mentioned first, name ∉ mentioned second
  room : one.codeSize + two.code.size < memory.limit

/-- The symbols of the first image, and those of the second behind its code. -/
def joinedSymbols (one two : Image) : SymbolTable :=
  one.symbols.join (two.symbols.mapSymbols (Symbol.later one.codeSize))

namespace Joinable

variable {first second : List Instruction} {one two : Image}
  (joinable : Joinable memory first second one two)
include joinable

theorem get?_of_first {name : String} (among : name ∈ mentioned first) :
    (joinedSymbols one two).get? name = one.symbols.get? name := by
  have absent := (within_of_generate joinable.ofSecond).get?_eq_none (joinable.apart name among)
  rw [joinedSymbols, SymbolTable.get?_join, SymbolTable.get?_mapSymbols, absent]
  exact Option.or_none

theorem get?_of_second {name : String} (among : name ∈ mentioned second) :
    (joinedSymbols one two).get? name = (two.symbols.get? name).map (Symbol.later one.codeSize) := by
  have absent := (within_of_generate joinable.ofFirst).get?_eq_none
    (fun among' => joinable.apart name among' among)
  rw [joinedSymbols, SymbolTable.get?_join, SymbolTable.get?_mapSymbols, absent]
  exact Option.none_or

/-- The first program has no data, and all its symbols are labels, which keep their places. -/
theorem layout_of_first :
    (layoutOf memory first).1.storage = {} ∧ (layoutOf memory first).1.symbols = one.symbols ∧
      ∀ base, one.symbols.rebaseData base = one.symbols := by
  obtain ⟨laid, _⟩ := generate_eq_ok_iff.mp joinable.ofFirst
  obtain ⟨stored, labels⟩ := Layout.labels_run joinable.unstored laid
  have unmoved := SymbolTable.rebaseData_of_labels labels
  have symbols : one.symbols = (layoutOf memory first).1.symbols :=
    (symbols_of_generate joinable.ofFirst).trans (unmoved _)
  rw [symbols]
  exact ⟨stored, rfl, unmoved⟩

theorem layoutOf_append :
    ∃ l, layoutOf memory (first ++ second) = (l, none) ∧
      Layout.Behind (layoutOf memory first).1 (layoutOf memory second).1 l := by
  obtain ⟨laid, _⟩ := generate_eq_ok_iff.mp joinable.ofFirst
  obtain ⟨laid', _⟩ := generate_eq_ok_iff.mp joinable.ofSecond
  obtain ⟨stored, symbols, _⟩ := joinable.layout_of_first
  have start : Layout.Behind (layoutOf memory first).1 { storage := {} } (layoutOf memory first).1 :=
    ⟨(Nat.zero_add _).symm, stored, congrArg SymbolTable.mk (List.append_nil _).symm⟩
  have apart (name : String) (among : name ∈ mentioned second) :
      (layoutOf memory first).1.symbols.get? name = none := by
    rw [symbols]
    exact (within_of_generate joinable.ofFirst).get?_eq_none
      (fun among' => joinable.apart name among' among)
  obtain ⟨l, ran, behind⟩ := start.run rfl apart joinable.unmoved laid'
  refine ⟨l, ?_, behind⟩
  rw [layoutOf, ← Layout.pass_run, Pass.run_append, Layout.pass_run, Layout.pass_run]
  exact (if_pos laid).trans ran

/-- The layout of the two programs, one behind the other. -/
theorem layout_joined :
    (layoutOf memory (first ++ second)).2 = none ∧
      (layoutOf memory (first ++ second)).1.pc = two.codeSize + one.codeSize ∧
      (layoutOf memory (first ++ second)).1.storage = (layoutOf memory second).1.storage ∧
      (start memory (first ++ second)).symbols = joinedSymbols one two := by
  obtain ⟨l, laid, behind⟩ := joinable.layoutOf_append
  obtain ⟨_, labels, unmoved⟩ := joinable.layout_of_first
  have pc : l.pc = two.codeSize + one.codeSize := by
    rw [behind.pc, codeSize_of_generate joinable.ofFirst, codeSize_of_generate joinable.ofSecond]
  rw [start, laid]
  refine ⟨rfl, pc, behind.storage, ?_⟩
  dsimp only
  rw [behind.symbols, pc, SymbolTable.rebaseData_join, labels, unmoved,
    ← codeSize_of_generate joinable.ofFirst, SymbolTable.rebaseData_mapSymbols_labelLater,
    codeSize_of_generate joinable.ofSecond, ← symbols_of_generate joinable.ofSecond]
  rfl

/-- The first program is emitted as it is alone, with the symbols of both. -/
theorem emission_of_first :
    (emitter memory).run (start memory (first ++ second)) first =
      (⟨joinedSymbols one two, (emissionOf memory first).1.code,
        (emissionOf memory first).1.relocations⟩, none) := by
  obtain ⟨_, _, emitted, _⟩ := generate_eq_ok_iff.mp joinable.ofFirst
  obtain ⟨_, _, _, symbols⟩ := joinable.layout_joined
  have known (name : String) (among : name ∈ mentioned first) :=
    congrArg (Option.map Symbol.kind) (joinable.get?_of_first among)
  rw [symbols_of_generate joinable.ofFirst] at known
  have starts : Output.Alike .identity (start memory first).symbols (joinedSymbols one two)
      (start memory first) (start memory (first ++ second)) := ⟨rfl, symbols, rfl, rfl⟩
  obtain ⟨faults, reached⟩ := (emitter_transcribes (T := .identity) known).run starts
  rw [Transcription.map_identity] at faults reached
  refine Prod.ext ?_ ?_
  · rw [(reached emitted).eq]
    exact congrArg (Output.mk _ _) (List.map_id' _)
  · change (emissionOf memory first).2 = none at emitted
    rw [faults, ← emissionOf, emitted]
    rfl

/-- Behind it the second program is emitted as it is alone. -/
theorem emission_joined :
    ∃ out, emissionOf memory (first ++ second) = (out, none) ∧
      Output.Behind ⟨joinedSymbols one two, (emissionOf memory first).1.code,
        (emissionOf memory first).1.relocations⟩ two.symbols (emissionOf memory second).1 out := by
  obtain ⟨_, _, emitted, _⟩ := generate_eq_ok_iff.mp joinable.ofSecond
  obtain ⟨_, _, _, _, _, whole⟩ := parts_of_generate joinable.ofSecond
  have size : (emissionOf memory first).1.code.size = one.codeSize := by
    rw [size_emissionOf joinable.ofFirst, codeSize_of_generate joinable.ofFirst]
  have starts : Output.Behind ⟨joinedSymbols one two, (emissionOf memory first).1.code,
      (emissionOf memory first).1.relocations⟩ two.symbols (start memory second)
      ⟨joinedSymbols one two, (emissionOf memory first).1.code, (emissionOf memory first).1.relocations⟩ :=
    ⟨(symbols_of_generate joinable.ofSecond).symm, rfl,
      congrArg CodeBuffer.mk Array.append_empty.symm, (List.append_nil _).symm⟩
  have same (i : Instruction) (member : i ∈ second) :
      lower (joinedSymbols one two) i.op = lower two.symbols i.op := by
    refine lower_of_same_kinds fun name found => ?_
    rw [joinable.get?_of_second (List.mem_filterMap.mpr ⟨i, member, found⟩), Option.map_map]
    rfl
  have memory : (emissionOf memory first).1.code.size + (emissionOf memory second).1.code.size <
      memory.limit := by
    have room := joinable.room
    rw [size, size_emissionOf joinable.ofSecond, ← codeSize_of_generate joinable.ofSecond]
    omega
  obtain ⟨out, ran, behind⟩ := starts.run joinable.unmoved same emitted memory
  refine ⟨out, ?_, behind⟩
  rw [emissionOf, ← Emitter.pass_run, Pass.run_append, Emitter.pass_run, joinable.emission_of_first,
    if_pos rfl, Emitter.pass_run]
  exact ran

/-- In the joined code, all displacements are those of the two programs alone. -/
theorem resolveAll_joined {d e : CodeBuffer}
    (ofFirst : Relocation.resolveAll one.symbols (emissionOf memory first).1.code
      (emissionOf memory first).1.relocations = .resolved d)
    (ofSecond : Relocation.resolveAll two.symbols (emissionOf memory second).1.code
      (emissionOf memory second).1.relocations = .resolved e) :
    Relocation.resolveAll (joinedSymbols one two)
        ((emissionOf memory first).1.code.join (emissionOf memory second).1.code)
        ((emissionOf memory first).1.relocations ++
          (emissionOf memory second).1.relocations.map
            (Relocation.later (emissionOf memory first).1.code.size)) =
      .resolved (d.join e) := by
  obtain ⟨_, _, emitted, _⟩ := generate_eq_ok_iff.mp joinable.ofFirst
  obtain ⟨_, _, emitted', _⟩ := generate_eq_ok_iff.mp joinable.ofSecond
  have size : d.size = one.codeSize := by
    rw [Relocation.size_of_resolveAll ofFirst, size_emissionOf joinable.ofFirst,
      codeSize_of_generate joinable.ofFirst]
  have again : Relocation.resolveAll (joinedSymbols one two) (emissionOf memory first).1.code
      (emissionOf memory first).1.relocations = .resolved d := by
    have transcribed := Relocation.resolveAll_transcribed (T := .identity)
      (u := joinedSymbols one two) (fun r member => by
        obtain ⟨_, kept⟩ := (mem_relocations_iff emitted).mp member
        exact joinable.get?_of_first (name_mem_of_relocationAt kept)) (emissionOf memory first).1.code
    rw [ofFirst] at transcribed
    exact (congrArg _ (List.map_id' _).symm).trans transcribed
  rw [Relocation.resolveAll_append (Relocation.resolveAll_join_left again _),
    ← Relocation.size_of_resolveAll ofFirst]
  refine Relocation.resolveAll_join_right (fun r member word found => ?_) ofSecond
  obtain ⟨index, kept⟩ := (mem_relocations_iff emitted').mp member
  obtain ⟨_, reached, _⟩ := Relocation.displacement_eq_ok_iff.mp found
  obtain ⟨symbol, _, denotes, rfl⟩ := denotes_of_target joinable.ofSecond reached
  have known := joinable.get?_of_second (name_mem_of_relocationAt kept)
  rw [← size] at known
  exact Relocation.displacement_later reached (Relocation.target_later known reached) found

/-- The image of the two programs, one behind the other. -/
theorem generate_append {d e : CodeBuffer}
    (ofFirst : Relocation.resolveAll one.symbols (emissionOf memory first).1.code
      (emissionOf memory first).1.relocations = .resolved d)
    (ofSecond : Relocation.resolveAll two.symbols (emissionOf memory second).1.code
      (emissionOf memory second).1.relocations = .resolved e)
    (sizes : d.size = one.codeSize ∧ e.size = two.codeSize) :
    ∃ joined, X64.generate memory (first ++ second) = .ok joined ∧
      joined.code = ((d.join e).append (layoutOf memory second).1.storage.bytes).bytes ∧
      joined.codeSize = two.codeSize + one.codeSize ∧ joined.symbols = joinedSymbols one two := by
  obtain ⟨_, _, _, _, _, whole⟩ := parts_of_generate joinable.ofSecond
  obtain ⟨laid, pc, storage, _⟩ := joinable.layout_joined
  obtain ⟨out, emitted, behind⟩ := joinable.emission_joined
  have resolved := joinable.resolveAll_joined ofFirst ofSecond
  have room := joinable.room
  refine ⟨_, generate_eq_ok_iff.mpr ⟨laid, ?_, by rw [emitted], d.join e, ?_, ?_, rfl⟩, ?_, pc, ?_⟩
  · rw [pc, storage, Data.size]
    omega
  · rw [emitted, behind.symbols', behind.code, behind.relocations]
    exact resolved
  · rw [storage, CodeBuffer.fits, CodeBuffer.size_join, sizes.1, sizes.2, decide_eq_true_eq]
    omega
  · rw [storage]
  · rw [emitted, behind.symbols']

end Joinable

/-- Code for x86-64 does not depend on where it stands. If two programs have an image each, of which the
first declares no data and the second has no `org`, and they share no name, then as long as there is
memory the two programs in a row have an image: the instructions of the first and then of the second,
with the data of the second, and with the symbols of the first and those of the second as many bytes
later as the first has code. -/
theorem code_concatenates (first second : List Instruction) (one two : Image)
    (ofFirst : CrossAsm.generate memory .x64 first = .ok one)
    (ofSecond : CrossAsm.generate memory .x64 second = .ok two)
    (unstored : ∀ i ∈ first, i.op.isStorage = false)
    (unmoved : ∀ i ∈ second, ∀ address, i.op ≠ .org address)
    (apart : ∀ name ∈ mentioned first, name ∉ mentioned second)
    (room : one.codeSize + two.code.size < memory.limit) :
    ∃ joined, CrossAsm.generate memory .x64 (first ++ second) = .ok joined ∧
      joined.instructions = one.instructions ++ two.instructions ∧ joined.data = two.data ∧
      joined.codeSize = one.codeSize + two.codeSize ∧
      joined.symbols.entries = one.symbols.entries ++ two.symbols.entries.map fun entry =>
        (entry.1, ⟨entry.2.kind, entry.2.address + one.codeSize⟩) := by
  have joinable : Joinable memory first second one two :=
    ⟨ofFirst, ofSecond, unstored, unmoved, apart, room⟩
  obtain ⟨d, resolved, size, instructions, _⟩ := parts_of_generate ofFirst
  obtain ⟨e, resolved', size', instructions', data', _⟩ := parts_of_generate ofSecond
  obtain ⟨joined, made, code, codeSize, symbols⟩ :=
    joinable.generate_append resolved resolved' ⟨size, size'⟩
  have sizes : (d.join e).size = joined.codeSize := by
    rw [CodeBuffer.size_join, size, size', codeSize, Nat.add_comm]
  obtain ⟨whole, data⟩ := instructions_and_data code sizes
  refine ⟨joined, made, ?_, data.trans data'.symm, codeSize.trans (Nat.add_comm _ _), ?_⟩
  · rw [whole, instructions, instructions', CodeBuffer.join, Array.toList_append]
  · rw [symbols]
    rfl

/-- A loop that counts a variable down, behind a program that skips padding: its jump back, its way out
and the way to its data are the same as alone. -/
theorem code_concatenates_behind_padding :
    let first : List Instruction :=
      [⟨.jmp "end", ⟨1, 1⟩⟩, ⟨.org 16, ⟨2, 1⟩⟩, ⟨.label "end", ⟨3, 1⟩⟩]
    let second : List Instruction := [⟨.var "count" (some 3), ⟨4, 1⟩⟩, ⟨.label "again", ⟨5, 1⟩⟩,
      ⟨.get ⟨0⟩ "count", ⟨6, 1⟩⟩, ⟨.unary .dec ⟨0⟩, ⟨7, 1⟩⟩, ⟨.set "count" (.reg ⟨0⟩), ⟨8, 1⟩⟩,
      ⟨.cmp ⟨0⟩ (.imm 0), ⟨9, 1⟩⟩, ⟨.branch .notEqual "again", ⟨10, 1⟩⟩]
    ∃ one two joined, CrossAsm.generate .ofProcess .x64 first = .ok one ∧
      CrossAsm.generate .ofProcess .x64 second = .ok two ∧
      CrossAsm.generate .ofProcess .x64 (first ++ second) = .ok joined ∧
      joined.instructions = one.instructions ++ two.instructions ∧
      two.symbols.get? "again" = some ⟨.label, 0⟩ ∧
      joined.symbols.get? "again" = some ⟨.label, 16⟩ := by
  intro first second
  obtain ⟨one, ofFirst, sizeOne, entriesOne⟩ : ∃ one, CrossAsm.generate .ofProcess .x64 first = .ok one ∧
      one.codeSize = 16 ∧ one.symbols.entries = [("end", ⟨.label, 16⟩)] := ⟨_, rfl, rfl, rfl⟩
  obtain ⟨two, ofSecond, sizeTwo, entriesTwo⟩ : ∃ two, CrossAsm.generate .ofProcess .x64 second = .ok two ∧
      two.code.size = 38 ∧ two.symbols.entries = [("count", ⟨.var, 30⟩), ("again", ⟨.label, 0⟩)] :=
    ⟨_, rfl, rfl, rfl⟩
  obtain ⟨joined, made, instructions, _, _, entries⟩ := code_concatenates first second one two ofFirst
    ofSecond (by decide) (by simp [second]) (by decide) (by rw [sizeOne, sizeTwo]; decide)
  refine ⟨one, two, joined, ofFirst, ofSecond, made, instructions, ?_, ?_⟩
  · rw [SymbolTable.get?, entriesTwo]
    rfl
  · rw [SymbolTable.get?, entries, entriesOne, entriesTwo, sizeOne]
    rfl

end CrossAsm.X64
