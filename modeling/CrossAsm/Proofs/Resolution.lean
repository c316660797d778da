import CrossAsm.Proofs.Relocation

/-!
What filling in relocations comes to. A relocation `Qualifies` if it names a symbol of the right kind in
reach, and otherwise `Fails` for one of four reasons; distances are told modulo 2⁶⁴. If all qualify,
their windows are `Filled` and nothing else has changed, in whatever order they are filled in
(`resolveAll_perm`). If not, the first that does not qualify is reported, and what comes before it is
filled (`relocations_filled_up_to_fault`).
-/
namespace CrossAsm

/-- Whether a symbol of this kind may be referred to. -/
def Reference.admits : Reference → SymbolKind → Bool
  | code, kind => !kind.isData
  | data, kind => kind.isData

namespace Relocation

/-- How far an address is from the end of the instruction. The difference is known modulo 2⁶⁴ only, and
taken as a signed word. -/
def distance (r : Relocation) (address : Nat) : Int :=
  Int.bmod (address - r.stop) 0x10000000000000000

/-- The relocation names a symbol of the right kind, and its distance fits in a signed 32-bit word. -/
def Qualifies (symbols : SymbolTable) (r : Relocation) (distance : Int) : Prop :=
  ∃ symbol, symbols.get? r.name = some symbol ∧ r.reference.admits symbol.kind ∧
    distance = r.distance symbol.address ∧ -0x80000000 ≤ distance ∧ distance ≤ 0x7FFFFFFF

/-- Why a relocation cannot be filled in. -/
inductive Fails (symbols : SymbolTable) (r : Relocation) : Fault → Prop where
  | unknown : symbols.get? r.name = none → Fails symbols r (.unresolvedSymbol r.name)
  | notLabel {kind : SymbolKind} {address : Nat} : r.reference = .code →
      symbols.get? r.name = some ⟨kind, address⟩ → kind.isData →
      Fails symbols r (.addressingMode (.notLabel r.name kind))
  | notData {address : Nat} : r.reference = .data → symbols.get? r.name = some ⟨.label, address⟩ →
      Fails symbols r (.addressingMode (.notData r.name))
  | far {symbol : Symbol} : symbols.get? r.name = some symbol → r.reference.admits symbol.kind →
      ¬ (-0x80000000 ≤ r.distance symbol.address ∧ r.distance symbol.address ≤ 0x7FFFFFFF) →
      Fails symbols r
        (.branchOutOfRange r.name (r.distance symbol.address) (-0x80000000) 0x7FFFFFFF)

/-- The index belongs to the window of the relocation. -/
def Covers (r : Relocation) (index : Nat) : Prop := r.patch ≤ index ∧ index < r.patch + 4

/-- The windows of these relocations hold their distances, and all else is as before. -/
structure Filled (symbols : SymbolTable) (relocations : List Relocation) (code final : CodeBuffer) :
    Prop where
  size : final.size = code.size
  window : ∀ r ∈ relocations, Qualifies symbols r (signedWordAt final.bytes r.patch)
  outside : ∀ index, (∀ r ∈ relocations, ¬ r.Covers index) → final.bytes[index]? = code.bytes[index]?

variable {symbols : SymbolTable} {code final : CodeBuffer} {relocations permuted : List Relocation}
  {r : Relocation}

section One

/-- In the lower half of all addresses the distance is the difference. -/
theorem distance_of_lt {address : Nat} (low : address < 0x8000000000000000)
    (low' : r.stop < 0x8000000000000000) : r.distance address = (address : Int) - r.stop :=
  Int.bmod_eq_of_le (by omega) (by omega)

theorem target_eq_ok_iff {address : Nat} :
    r.target symbols = .ok address ↔
      ∃ kind, symbols.get? r.name = some ⟨kind, address⟩ ∧ r.reference.admits kind := by
  rw [target]
  cases r.reference with
  | code =>
    rw [SymbolTable.resolveLabel_eq_ok_iff]
    constructor
    · intro found
      exact ⟨.label, found, rfl⟩
    · rintro ⟨kind, found, admitted⟩
      cases kind with
      | label => exact found
      | var | buffer => cases admitted
  | data =>
    rw [map_eq_ok_iff]
    constructor
    · rintro ⟨⟨kind, _⟩, found, rfl⟩
      obtain ⟨found, data⟩ := SymbolTable.resolveData_eq_ok_iff.mp found
      exact ⟨kind, found, data⟩
    · rintro ⟨kind, found, data⟩
      exact ⟨⟨kind, address⟩, SymbolTable.resolveData_eq_ok_iff.mpr ⟨found, data⟩, rfl⟩

theorem qualifies_iff {distance : Int} :
    Qualifies symbols r distance ↔ ∃ d, r.displacement symbols = .ok d ∧ d.toInt = distance := by
  constructor
  · rintro ⟨⟨kind, address⟩, found, admitted, same, within⟩
    rw [same, Relocation.distance, ← signedDistance_eq_bmod] at within
    rw [same, Relocation.distance, ← signedDistance_eq_bmod]
    have target : r.target symbols = .ok address := target_eq_ok_iff.mpr ⟨kind, found, admitted⟩
    have made := displacement_eq_ok_iff.mpr ⟨address, target, within, rfl⟩
    obtain ⟨address', target', distance⟩ := toInt_of_displacement made
    cases target.symm.trans target'
    exact ⟨_, made, distance⟩
  · rintro ⟨d, made, rfl⟩
    obtain ⟨address, target, within, _⟩ := displacement_eq_ok_iff.mp made
    obtain ⟨address', target', distance⟩ := toInt_of_displacement made
    cases target.symm.trans target'
    obtain ⟨kind, found, admitted⟩ := target_eq_ok_iff.mp target
    refine ⟨⟨kind, address⟩, found, admitted, ?_, distance ▸ within⟩
    rw [distance, Relocation.distance, signedDistance_eq_bmod]

theorem displacement_of_target_error {fault : Fault} (failed : r.target symbols = .error fault) :
    r.displacement symbols = .error fault := by
  rw [displacement, failed]
  rfl

theorem displacement_of_far {address : Nat} (found : r.target symbols = .ok address)
    (far : ¬ (-0x80000000 ≤ r.distance address ∧ r.distance address ≤ 0x7FFFFFFF)) :
    r.displacement symbols =
      .error (.branchOutOfRange r.name (r.distance address) (-0x80000000) 0x7FFFFFFF) := by
  rw [displacement, bind_eq_error_iff]
  refine .inr ⟨address, found, ?_⟩
  rw [distance, ← signedDistance_eq_bmod] at far ⊢
  exact if_neg far

theorem target_of_none (unknown : symbols.get? r.name = none) :
    r.target symbols = .error (.unresolvedSymbol r.name) := by
  have resolved : symbols.resolve r.name = .error (.unresolvedSymbol r.name) := by
    rw [SymbolTable.resolve, unknown]
  rw [target]
  cases r.reference with
  | code =>
    rw [SymbolTable.resolveLabel, resolved]
    rfl
  | data =>
    rw [SymbolTable.resolveData, resolved]
    rfl

/-- A relocation whose symbol is of another kind is told so. -/
theorem target_of_other_kind {kind : SymbolKind} {address : Nat}
    (known : symbols.get? r.name = some ⟨kind, address⟩) (other : r.reference.admits kind = false) :
    ∃ fault, r.target symbols = .error fault ∧ Fails symbols r fault := by
  have resolved : symbols.resolve r.name = .ok ⟨kind, address⟩ := by
    rw [SymbolTable.resolve, known]
  rw [target]
  cases reference : r.reference with
  | code =>
    rw [SymbolTable.resolveLabel, resolved]
    cases kind with
    | label => simp [Reference.admits, reference, SymbolKind.isData] at other
    | var | buffer => exact ⟨_, rfl, .notLabel reference known rfl⟩
  | data =>
    rw [SymbolTable.resolveData, resolved]
    cases kind with
    | label => exact ⟨_, rfl, .notData reference known⟩
    | var | buffer => simp [Reference.admits, reference, SymbolKind.isData] at other

/-- A relocation has a displacement, or fails and says why. -/
theorem displacement_cases (symbols : SymbolTable) (r : Relocation) :
    (∃ d, r.displacement symbols = .ok d ∧ Qualifies symbols r d.toInt) ∨
      ∃ fault, r.displacement symbols = .error fault ∧ Fails symbols r fault := by
  cases known : symbols.get? r.name with
  | none => exact .inr ⟨_, displacement_of_target_error (target_of_none known), .unknown known⟩
  | some symbol =>
    cases admitted : r.reference.admits symbol.kind with
    | false =>
      obtain ⟨fault, failed, why⟩ := target_of_other_kind known admitted
      exact .inr ⟨fault, displacement_of_target_error failed, why⟩
    | true =>
      have found : r.target symbols = .ok symbol.address :=
        target_eq_ok_iff.mpr ⟨symbol.kind, known, admitted⟩
      by_cases within : -0x80000000 ≤ r.distance symbol.address ∧ r.distance symbol.address ≤ 0x7FFFFFFF
      · have qualifies : Qualifies symbols r (r.distance symbol.address) :=
          ⟨symbol, known, admitted, rfl, within⟩
        obtain ⟨d, made, same⟩ := qualifies_iff.mp qualifies
        exact .inl ⟨d, made, same ▸ qualifies⟩
      · exact .inr ⟨_, displacement_of_far found within, .far known admitted within⟩

theorem fails_of_displacement {fault : Fault} (failed : r.displacement symbols = .error fault) :
    Fails symbols r fault := by
  obtain ⟨d, made, _⟩ | ⟨fault', failed', why⟩ := displacement_cases symbols r
  · cases failed.symm.trans made
  · cases failed.symm.trans failed'
    exact why

/-- No relocation that fails qualifies. -/
theorem Fails.not_qualifies {fault : Fault} (fails : Fails symbols r fault) {distance : Int} :
    ¬ Qualifies symbols r distance := by
  rintro ⟨symbol, found, admitted, same, within⟩
  cases fails with
  | unknown unknown => cases unknown.symm.trans found
  | notLabel reference known data =>
    cases known.symm.trans found
    rw [reference] at admitted
    simp [Reference.admits, data] at admitted
  | notData reference known =>
    cases known.symm.trans found
    rw [reference] at admitted
    cases admitted
  | far known _ far =>
    cases known.symm.trans found
    rw [same] at within
    exact far within

end One

section All

theorem apart_comm {a b : Relocation} (apart : Apart a b) : Apart b a := Or.symm apart

/-- Relocations that all qualify are filled in. -/
theorem exists_resolveAll (inside : ∀ r ∈ relocations, r.patch + 4 ≤ code.size)
    (qualify : ∀ r ∈ relocations, ∃ distance, Qualifies symbols r distance) :
    ∃ final, resolveAll symbols code relocations = .resolved final := by
  cases outcome : resolveAll symbols code relocations with
  | resolved final => exact ⟨final, rfl⟩
  | outside => exact absurd outcome (resolveAll_ne_outside inside)
  | rejected stopped report =>
    obtain ⟨r, member, _, failed⟩ := exists_of_resolveAll_rejected outcome
    obtain ⟨distance, qualifies⟩ := qualify r member
    obtain ⟨d, made, _⟩ := qualifies_iff.mp qualifies
    cases failed.symm.trans made

theorem filled_of_resolveAll (resolved : resolveAll symbols code relocations = .resolved final)
    (apart : relocations.Pairwise Apart) : Filled symbols relocations code final where
  size := size_of_resolveAll resolved
  window r member := by
    obtain ⟨d, made, holds⟩ := holds_of_resolveAll resolved apart member
    rw [signedWordAt_of_holds holds]
    exact qualifies_iff.mpr ⟨d, made, rfl⟩
  outside index outside := by
    apply getElem?_of_resolveAll resolved
    intro r member
    have away := outside r member
    unfold Covers at away
    omega

/-- The order in which relocations are filled in does not matter. -/
theorem resolveAll_perm (resolved : resolveAll symbols code relocations = .resolved final)
    (inside : ∀ r ∈ relocations, r.patch + 4 ≤ code.size) (apart : relocations.Pairwise Apart)
    (perm : permuted.Perm relocations) : resolveAll symbols code permuted = .resolved final := by
  have filled := filled_of_resolveAll resolved apart
  have apart' : permuted.Pairwise Apart := (perm.pairwise_iff apart_comm).mpr apart
  obtain ⟨other, resolved'⟩ : ∃ other, resolveAll symbols code permuted = .resolved other := by
    apply exists_resolveAll
    · exact fun r member => inside r (perm.mem_iff.mp member)
    · exact fun r member => ⟨_, filled.window r (perm.mem_iff.mp member)⟩
  have filled' := filled_of_resolveAll resolved' apart'
  have same : other.bytes = final.bytes := by
    apply Array.ext_getElem?
    intro index
    by_cases covered : ∃ r ∈ relocations, r.Covers index
    · obtain ⟨r, member, low, high⟩ := covered
      obtain ⟨d, made, holds⟩ := holds_of_resolveAll resolved apart member
      obtain ⟨d', made', holds'⟩ := holds_of_resolveAll resolved' apart' (perm.mem_iff.mpr member)
      cases made.symm.trans made'
      have at_index : index = r.patch + (index - r.patch) := by omega
      have short : index - r.patch < (displacementBytes d).length := by
        rw [length_displacementBytes]
        omega
      rw [at_index, holds _ short, holds' _ short]
    · have away : ∀ r ∈ relocations, ¬ r.Covers index := by
        intro r member covers
        exact covered ⟨r, member, covers⟩
      rw [filled.outside index away,
        filled'.outside index fun r member => away r (perm.mem_iff.mp member)]
  rw [resolved']
  cases other
  cases final
  cases same
  rfl

/-- Relocations are filled in up to the first that does not qualify, and that one is reported. -/
theorem filled_of_rejected {stopped : CodeBuffer} {report : FaultAt}
    (rejected : resolveAll symbols code relocations = .rejected stopped report)
    (inside : ∀ r ∈ relocations, r.patch + 4 ≤ code.size) (apart : relocations.Pairwise Apart) :
    ∃ earlier r later, relocations = earlier ++ r :: later ∧ report.pos = r.pos ∧
      Fails symbols r report.fault ∧ Filled symbols earlier code stopped := by
  obtain ⟨earlier, r, later, rfl, resolvable, pos, failed⟩ :=
    exists_append_of_resolveAll_rejected rejected
  obtain ⟨middle, resolved⟩ : ∃ middle, resolveAll symbols code earlier = .resolved middle := by
    apply exists_resolveAll
    · exact fun other member => inside other (List.mem_append_left _ member)
    · intro other member
      obtain ⟨d, made⟩ := resolvable other member
      exact ⟨d.toInt, qualifies_iff.mpr ⟨d, made, rfl⟩⟩
  have left : stopped = middle := by
    rw [resolveAll_append resolved, resolveAll, failed] at rejected
    exact (Outcome.rejected.inj rejected).1.symm
  refine ⟨earlier, r, later, rfl, pos.symm, ?_, left ▸ filled_of_resolveAll resolved ?_⟩
  · exact fails_of_displacement failed
  · exact (List.pairwise_append.mp apart).1

end All

/-- For relocations whose windows lie inside the code and do not meet: all are filled in exactly if all of
them qualify. Then each window holds its distance, all else is as before, and another order gives the same
code. Otherwise the first that does not qualify is reported at its position, the windows before it are
filled, and all else is as before, its own window and the later ones too. Distances are told modulo 2⁶⁴,
but in the lower half of all addresses they are the differences themselves. -/
theorem relocations_filled_up_to_fault (inside : ∀ r ∈ relocations, r.patch + 4 ≤ code.size)
    (apart : relocations.Pairwise Apart) :
    ((∃ final, resolveAll symbols code relocations = .resolved final) ↔
      ∀ r ∈ relocations, ∃ distance, Qualifies symbols r distance) ∧
    (∀ final, resolveAll symbols code relocations = .resolved final →
      Filled symbols relocations code final ∧
      ∀ permuted, permuted.Perm relocations → resolveAll symbols code permuted = .resolved final) ∧
    ((¬ ∃ final, resolveAll symbols code relocations = .resolved final) →
      ∃ earlier r later fault stopped, relocations = earlier ++ r :: later ∧
        (∀ other ∈ earlier, ∃ distance, Qualifies symbols other distance) ∧
        (∀ distance, ¬ Qualifies symbols r distance) ∧ Fails symbols r fault ∧
        resolveAll symbols code relocations = .rejected stopped ⟨r.pos, fault⟩ ∧
        Filled symbols earlier code stopped ∧
        ∀ other ∈ r :: later, ∀ index, other.Covers index →
          stopped.bytes[index]? = code.bytes[index]?) ∧
    ∀ r ∈ relocations, ∀ address < 0x8000000000000000, r.stop < 0x8000000000000000 →
      r.distance address = (address : Int) - r.stop := by
  refine ⟨⟨?_, exists_resolveAll inside⟩, ?_, ?_, fun _ _ _ => distance_of_lt⟩
  · rintro ⟨final, resolved⟩ r member
    exact ⟨_, (filled_of_resolveAll resolved apart).window r member⟩
  · intro final resolved
    exact ⟨filled_of_resolveAll resolved apart, fun _ => resolveAll_perm resolved inside apart⟩
  · intro failed
    cases outcome : resolveAll symbols code relocations with
    | resolved final => exact absurd ⟨final, outcome⟩ failed
    | outside => exact absurd outcome (resolveAll_ne_outside inside)
    | rejected stopped report =>
      obtain ⟨earlier, r, later, rfl, pos, fails, filled⟩ := filled_of_rejected outcome inside apart
      refine ⟨earlier, r, later, report.fault, stopped, rfl, ?_, ?_, fails, by rw [← pos], filled, ?_⟩
      · exact fun other member => ⟨_, filled.window other member⟩
      · exact fun _ => fails.not_qualifies
      · intro other member index covers
        apply filled.outside
        intro before early covers'
        have away := (List.pairwise_append.mp apart).2.2 before early other member
        unfold Apart at away
        unfold Covers at covers covers'
        omega

/-- A jump back and a reference to data are filled in, in either order. -/
theorem relocations_filled_up_to_fault_in_either_order :
    let symbols : SymbolTable := ⟨[("top", ⟨.label, 0⟩), ("v", ⟨.var, 40⟩)]⟩
    let jump : Relocation := ⟨"top", 1, 5, ⟨1, 1⟩, .code⟩
    let load : Relocation := ⟨"v", 8, 12, ⟨2, 1⟩, .data⟩
    let code : CodeBuffer := ⟨#[0xE9, 0, 0, 0, 0, 0x48, 0x8B, 5, 0, 0, 0, 0]⟩
    ∃ final, resolveAll symbols code [jump, load] = .resolved final ∧
      resolveAll symbols code [load, jump] = .resolved final ∧
      Filled symbols [jump, load] code final := by
  intro symbols jump load code
  have inside : ∀ r ∈ [jump, load], r.patch + 4 ≤ code.size := by decide
  have apart : [jump, load].Pairwise Apart := by simp [jump, load, Apart]
  have back : Qualifies symbols jump (-5) :=
    ⟨⟨.label, 0⟩, rfl, rfl, by decide, by decide, by decide⟩
  have ahead : Qualifies symbols load 28 :=
    ⟨⟨.var, 40⟩, rfl, rfl, by decide, by decide, by decide⟩
  obtain ⟨resolves, filled, _, _⟩ := relocations_filled_up_to_fault inside apart
  obtain ⟨final, resolved⟩ : ∃ final, resolveAll symbols code [jump, load] = .resolved final := by
    apply resolves.mpr
    rw [List.forall_mem_cons, List.forall_mem_singleton]
    exact ⟨⟨_, back⟩, ⟨_, ahead⟩⟩
  obtain ⟨windows, reordered⟩ := filled final resolved
  exact ⟨final, resolved, reordered _ (.swap jump load []), windows⟩

/-- The last address of all counts as just below zero, so a jump reaches it although its distance,
counted up from zero, does not fit. -/
theorem last_address_is_filled :
    let symbols : SymbolTable := ⟨[("top", ⟨.label, 0xFFFFFFFFFFFFFFFF⟩)]⟩
    let jump : Relocation := ⟨"top", 1, 5, ⟨1, 1⟩, .code⟩
    let code : CodeBuffer := ⟨#[0xE9, 0, 0, 0, 0]⟩
    (∀ r ∈ [jump], r.patch + 4 ≤ code.size) ∧ [jump].Pairwise Apart ∧
    ¬ ((∃ final, resolveAll symbols code [jump] = .resolved final) ↔
      ∀ r ∈ [jump], ∃ symbol, symbols.get? r.name = some symbol ∧ r.reference.admits symbol.kind ∧
        -0x80000000 ≤ (symbol.address : Int) - r.stop ∧
        (symbol.address : Int) - r.stop ≤ 0x7FFFFFFF) := by
  intro symbols jump code
  have inside : ∀ r ∈ [jump], r.patch + 4 ≤ code.size := by decide
  refine ⟨inside, List.pairwise_singleton _ _, fun stated => ?_⟩
  have known : symbols.get? jump.name = some ⟨.label, 0xFFFFFFFFFFFFFFFF⟩ := rfl
  have below : Qualifies symbols jump (-6) := ⟨_, known, rfl, by decide, by decide, by decide⟩
  have resolved := exists_resolveAll inside (List.forall_mem_singleton.mpr ⟨_, below⟩)
  obtain ⟨symbol, found, _, _, high⟩ := stated.mp resolved jump List.mem_cons_self
  cases known.symm.trans found
  exact absurd high (by decide)

end Relocation

end CrossAsm
