import CrossAsm.Code.Emission
import CrossAsm.Code.Layout

/-!
Passes over a program. Layout and emission both go along the instructions and stop at the first that
fails, so each is `Pass.run` of what it does at one instruction. `Pass.before` is the state in which a
pass comes to an instruction; `Pass.invariant` carries a fact from each such state to the next, and
`Pass.fault_of_run` finds the instruction at which a pass has failed.
-/
namespace CrossAsm

/-- What becomes of a state at one instruction, and the fault if the pass ends there. -/
abbrev Pass (α : Type) := Instruction → α → α × Option Fault

namespace Pass

variable {α : Type} {p : Pass α} {s : α} {program : List Instruction}

/-- Goes along a program, or up to the first instruction that fails. -/
def run (p : Pass α) (s : α) : List Instruction → α × Option FaultAt
  | [] => (s, none)
  | i :: rest =>
    match p i s with
    | (next, none) => run p next rest
    | (next, some fault) => (next, some ⟨i.pos, fault⟩)

/-- The state in which the pass comes to the instruction at `index`. -/
def before (p : Pass α) (s : α) (program : List Instruction) (index : Nat) : α :=
  (p.run s (program.take index)).1

theorem run_append (p : Pass α) (s : α) (first second : List Instruction) :
    p.run s (first ++ second) =
      if (p.run s first).2 = none then p.run (p.run s first).1 second else p.run s first := by
  induction first generalizing s with
  | nil => rfl
  | cons i rest ih =>
    rw [List.cons_append, run, run]
    rcases p i s with ⟨next, _ | fault⟩
    · exact ih next
    · rfl

theorem run_take (succeeds : (p.run s program).2 = none) (index : Nat) :
    p.run s (program.take index) = (p.before s program index, none) := by
  have split := run_append p s (program.take index) (program.drop index)
  rw [List.take_append_drop] at split
  by_cases passed : (p.run s (program.take index)).2 = none
  · rw [← passed]
    rfl
  · rw [if_neg passed] at split
    rw [split] at succeeds
    exact absurd succeeds passed

/-- From each instruction a pass that succeeds comes to the next. -/
theorem before_succ (succeeds : (p.run s program).2 = none) {index : Nat} {i : Instruction}
    (present : program[index]? = some i) :
    p i (p.before s program index) = (p.before s program (index + 1), none) := by
  have here := run_take succeeds index
  have next := run_take succeeds (index + 1)
  rw [List.take_add_one, present, run_append, here] at next
  simp only [Option.toList_some, if_true, run] at next
  rcases step : p i (p.before s program index) with ⟨after, _ | fault⟩
  · rw [step] at next
    rw [show after = p.before s program (index + 1) from congrArg Prod.fst next]
  · rw [step] at next
    exact absurd (congrArg Prod.snd next) (by simp)

/-- What holds at the start and is kept at every instruction holds before each of them, and at the
end. -/
theorem invariant {P : Nat → α → Prop} (succeeds : (p.run s program).2 = none) (start : P 0 s)
    (keeps : ∀ index i next, program[index]? = some i → P index (p.before s program index) →
      p i (p.before s program index) = (next, none) → P (index + 1) next) :
    ∀ index ≤ program.length, P index (p.before s program index) := by
  intro index within
  induction index with
  | zero => exact start
  | succ index ih =>
    have present := List.getElem?_eq_getElem (Nat.lt_of_succ_le within)
    exact keeps index _ _ present (ih (Nat.le_of_succ_le within)) (before_succ succeeds present)

theorem before_of_length_le (p : Pass α) (s : α) {index : Nat} (past : program.length ≤ index) :
    p.before s program (index + 1) = p.before s program index := by
  rw [before, before, List.take_of_length_le past, List.take_of_length_le (Nat.le_succ_of_le past)]

/-- A relation that every step keeps to holds between an earlier and a later state. -/
theorem before_related {R : α → α → Prop} (refl : ∀ a, R a a)
    (trans : ∀ a b c, R a b → R b c → R a c) (succeeds : (p.run s program).2 = none)
    (steps : ∀ i a next, p i a = (next, none) → R a next) {first last : Nat}
    (order : first ≤ last) : R (p.before s program first) (p.before s program last) := by
  induction order with
  | refl => exact refl _
  | @step last _ ih =>
    cases present : program[last]? with
    | none =>
      rw [before_of_length_le p s (List.getElem?_eq_none_iff.mp present)]
      exact ih
    | some i => exact trans _ _ _ ih (steps i _ _ (before_succ succeeds present))

/-- Two passes, over a program and over the same one written otherwise. If they stay related at every
instruction and fail there alike, they do so over the whole program. -/
theorem run_related {β : Type} {q : Pass β} {R : α → β → Prop} {write : Instruction → Instruction}
    {place : Position → Position} {blame : Fault → Fault} {a : α} {b : β}
    (placed : ∀ i, (write i).pos = place i.pos)
    (steps : ∀ i ∈ program, ∀ a b, R a b → (q (write i) b).2 = (p i a).2.map blame ∧
      ((p i a).2 = none → R (p i a).1 (q (write i) b).1)) (start : R a b) :
    (q.run b (program.map write)).2 =
        (p.run a program).2.map (fun report => ⟨place report.pos, blame report.fault⟩) ∧
      ((p.run a program).2 = none → R (p.run a program).1 (q.run b (program.map write)).1) := by
  induction program generalizing a b with
  | nil => exact ⟨rfl, fun _ => start⟩
  | cons i rest ih =>
    obtain ⟨first, later⟩ := List.forall_mem_cons.mp steps
    obtain ⟨alike, related⟩ := first a b start
    rw [List.map_cons, run, run]
    rcases here : p i a with ⟨next, _ | fault⟩
    · rcases there : q (write i) b with ⟨next', _ | fault'⟩
      · rw [here, there] at related
        exact ih later (related rfl)
      · rw [here, there] at alike
        cases alike
    · rcases there : q (write i) b with ⟨next', _ | fault'⟩
      · rw [here, there] at alike
        cases alike
      · rw [here, there] at alike
        cases alike
        refine ⟨?_, fun passed => by cases passed⟩
        change some (⟨(write i).pos, blame fault⟩ : FaultAt) = some ⟨place i.pos, blame fault⟩
        rw [placed]

/-- A pass succeeds that can follow the states of another one from instruction to instruction. -/
theorem run_follows {β : Type} {q : Pass β} {R : α → β → Prop} {b : β} (start : R s b)
    (steps : ∀ index i b, program[index]? = some i → R (p.before s program index) b →
      ∃ next, q i b = (next, none) ∧ R (p.before s program (index + 1)) next) :
    ∃ final, q.run b program = (final, none) ∧ R (p.run s program).1 final := by
  have upTo (index : Nat) (within : index ≤ program.length) :
      ∃ mid, q.run b (program.take index) = (mid, none) ∧ R (p.before s program index) mid := by
    induction index with
    | zero => exact ⟨b, rfl, start⟩
    | succ index ih =>
      obtain ⟨mid, passed, related⟩ := ih (Nat.le_of_succ_le within)
      have present := List.getElem?_eq_getElem (Nat.lt_of_succ_le within)
      obtain ⟨next, stepped, related⟩ := steps index _ mid present related
      refine ⟨next, ?_, related⟩
      rw [List.take_add_one, present, run_append, passed]
      simp [run, stepped]
  obtain ⟨final, passed, related⟩ := upTo program.length (Nat.le_refl _)
  rw [List.take_length] at passed
  rw [before, List.take_length] at related
  exact ⟨final, passed, related⟩

/-- A pass that fails does so at the instruction it reports, and has passed those before. -/
theorem fault_of_run {report : FaultAt} (failed : (p.run s program).2 = some report) :
    ∃ index i, program[index]? = some i ∧ i.pos = report.pos ∧
      (p.run s (program.take index)).2 = none ∧
      (p i (p.before s program index)).2 = some report.fault := by
  induction program generalizing s with
  | nil => cases failed
  | cons first rest ih =>
    rw [run] at failed
    rcases step : p first s with ⟨next, _ | fault⟩
    · rw [step] at failed
      obtain ⟨index, i, present, place, passed, stopped⟩ := ih failed
      have reached : p.run s ((first :: rest).take (index + 1)) = p.run next (rest.take index) := by
        rw [List.take_succ_cons, run, step]
      refine ⟨index + 1, i, present, place, by rw [reached, passed], ?_⟩
      rw [before, reached]
      exact stopped
    · rw [step] at failed
      cases failed
      exact ⟨0, first, rfl, rfl, rfl, congrArg Prod.snd step⟩

end Pass

namespace Layout

variable {σ : Type} {sizer : Sizer} {allocator : Allocator σ} {l : Layout σ}
  {program : List Instruction}

def pass (sizer : Sizer) (allocator : Allocator σ) : Pass (Layout σ) := fun i l =>
  match step sizer allocator i.op l with
  | .ok _ next => (next, none)
  | .error fault left => (left, some fault)

theorem pass_run (sizer : Sizer) (allocator : Allocator σ) (l : Layout σ)
    (program : List Instruction) :
    (pass sizer allocator).run l program = run sizer allocator l program := by
  induction program generalizing l with
  | nil => rfl
  | cons i rest ih =>
    rw [Pass.run, run, pass]
    cases step sizer allocator i.op l with
    | ok _ next => exact ih next
    | error fault left => rfl

theorem pass_eq_none {i : Instruction} {next : Layout σ} :
    pass sizer allocator i l = (next, none) ↔ step sizer allocator i.op l = .ok () next := by
  unfold pass
  cases step sizer allocator i.op l <;> simp

/-- The layout before the instruction at `index`. -/
def before (sizer : Sizer) (allocator : Allocator σ) (l : Layout σ) (program : List Instruction)
    (index : Nat) : Layout σ :=
  (run sizer allocator l (program.take index)).1

theorem pass_before (sizer : Sizer) (allocator : Allocator σ) (l : Layout σ)
    (program : List Instruction) (index : Nat) :
    (pass sizer allocator).before l program index = before sizer allocator l program index := by
  rw [Pass.before, pass_run, before]

theorem before_length (sizer : Sizer) (allocator : Allocator σ) (l : Layout σ)
    (program : List Instruction) :
    before sizer allocator l program program.length = (run sizer allocator l program).1 := by
  rw [before, List.take_length]

theorem before_succ (laid : (run sizer allocator l program).2 = none) {index : Nat}
    {i : Instruction} (present : program[index]? = some i) :
    step sizer allocator i.op (before sizer allocator l program index) =
      .ok () (before sizer allocator l program (index + 1)) := by
  rw [← pass_run] at laid
  rw [← pass_before, ← pass_before]
  exact pass_eq_none.mp (Pass.before_succ laid present)

theorem invariant {P : Nat → Layout σ → Prop} (laid : (run sizer allocator l program).2 = none)
    (start : P 0 l)
    (keeps : ∀ index i next, program[index]? = some i →
      P index (before sizer allocator l program index) →
      step sizer allocator i.op (before sizer allocator l program index) = .ok () next →
      P (index + 1) next) :
    ∀ index ≤ program.length, P index (before sizer allocator l program index) := by
  rw [← pass_run] at laid
  simp only [← pass_before] at keeps ⊢
  exact Pass.invariant laid start fun index i next present holds stepped =>
    keeps index i next present holds (pass_eq_none.mp stepped)

theorem before_related {R : Layout σ → Layout σ → Prop} (refl : ∀ a, R a a)
    (trans : ∀ a b c, R a b → R b c → R a c) (laid : (run sizer allocator l program).2 = none)
    (steps : ∀ op a next, step sizer allocator op a = .ok () next → R a next) {first last : Nat}
    (order : first ≤ last) :
    R (before sizer allocator l program first) (before sizer allocator l program last) := by
  rw [← pass_run] at laid
  rw [← pass_before, ← pass_before]
  exact Pass.before_related refl trans laid
    (fun i a next stepped => steps i.op a next (pass_eq_none.mp stepped)) order

theorem fault_of_run {report : FaultAt}
    (failed : (run sizer allocator l program).2 = some report) :
    ∃ index i left, program[index]? = some i ∧ i.pos = report.pos ∧
      (run sizer allocator l (program.take index)).2 = none ∧
      step sizer allocator i.op (before sizer allocator l program index) =
        .error report.fault left := by
  rw [← pass_run] at failed
  obtain ⟨index, i, present, place, passed, stopped⟩ := Pass.fault_of_run failed
  rw [pass_run] at passed
  rw [pass_before, pass] at stopped
  cases stepped : step sizer allocator i.op (before sizer allocator l program index) with
  | ok _ next =>
    rw [stepped] at stopped
    cases stopped
  | error fault left =>
    rw [stepped] at stopped
    exact ⟨index, i, left, present, place, passed, by rw [stepped, Option.some.inj stopped]⟩

end Layout

namespace Emitter

variable {σ : Type} {e : Emitter σ} {s : σ} {program : List Instruction}

def pass (e : Emitter σ) : Pass σ := fun i s =>
  match e.emitOne i s with
  | .ok _ after => (after, none)
  | .error fault after => (after, some fault)

theorem pass_run (e : Emitter σ) (s : σ) (program : List Instruction) :
    e.pass.run s program = e.run s program := by
  induction program generalizing s with
  | nil => rfl
  | cons i rest ih =>
    rw [Pass.run, run, pass]
    cases e.emitOne i s with
    | ok _ after => exact ih after
    | error fault after => rfl

theorem pass_eq_none {i : Instruction} {after : σ} :
    e.pass i s = (after, none) ↔ e.emitOne i s = .ok () after := by
  unfold pass
  cases e.emitOne i s <;> simp

/-- The state of emission before the instruction at `index`. -/
def before (e : Emitter σ) (s : σ) (program : List Instruction) (index : Nat) : σ :=
  (e.run s (program.take index)).1

theorem pass_before (e : Emitter σ) (s : σ) (program : List Instruction) (index : Nat) :
    e.pass.before s program index = e.before s program index := by
  rw [Pass.before, pass_run, before]

theorem before_length (e : Emitter σ) (s : σ) (program : List Instruction) :
    e.before s program program.length = (e.run s program).1 := by
  rw [before, List.take_length]

theorem before_succ (emitted : (e.run s program).2 = none) {index : Nat} {i : Instruction}
    (present : program[index]? = some i) :
    e.emitOne i (e.before s program index) = .ok () (e.before s program (index + 1)) := by
  rw [← pass_run] at emitted
  rw [← pass_before, ← pass_before]
  exact pass_eq_none.mp (Pass.before_succ emitted present)

theorem invariant {P : Nat → σ → Prop} (emitted : (e.run s program).2 = none) (start : P 0 s)
    (keeps : ∀ index i next, program[index]? = some i → P index (e.before s program index) →
      e.emitOne i (e.before s program index) = .ok () next → P (index + 1) next) :
    ∀ index ≤ program.length, P index (e.before s program index) := by
  rw [← pass_run] at emitted
  simp only [← pass_before] at keeps ⊢
  exact Pass.invariant emitted start fun index i next present holds stepped =>
    keeps index i next present holds (pass_eq_none.mp stepped)

theorem before_related {R : σ → σ → Prop} (refl : ∀ a, R a a)
    (trans : ∀ a b c, R a b → R b c → R a c) (emitted : (e.run s program).2 = none)
    (steps : ∀ i a next, e.emitOne i a = .ok () next → R a next) {first last : Nat}
    (order : first ≤ last) : R (e.before s program first) (e.before s program last) := by
  rw [← pass_run] at emitted
  rw [← pass_before, ← pass_before]
  exact Pass.before_related refl trans emitted
    (fun i a next stepped => steps i a next (pass_eq_none.mp stepped)) order

theorem fault_of_run {report : FaultAt} (failed : (e.run s program).2 = some report) :
    ∃ index i after, program[index]? = some i ∧ i.pos = report.pos ∧
      (e.run s (program.take index)).2 = none ∧
      e.emitOne i (e.before s program index) = .error report.fault after := by
  rw [← pass_run] at failed
  obtain ⟨index, i, present, place, passed, stopped⟩ := Pass.fault_of_run failed
  rw [pass_run] at passed
  rw [pass_before, pass] at stopped
  cases emitted : e.emitOne i (e.before s program index) with
  | ok _ next =>
    rw [emitted] at stopped
    cases stopped
  | error fault after =>
    rw [emitted] at stopped
    exact ⟨index, i, after, present, place, passed, by rw [emitted, Option.some.inj stopped]⟩

end Emitter

end CrossAsm
