import CrossAsm.Code.Emission
import CrossAsm.Proofs.Checked
import CrossAsm.Proofs.CodeBuffer

/-!
Sequences of steps, each of which is an instruction to put or a fault. Putting a sequence succeeds only
if no step is a fault, and then all its instructions have been put (`putAll_eq_ok`). `Each` says
something of every step, `Clear` that none is a fault, and `Takes` how many bytes the instructions come
to; all are proved along the way a sequence is built.
-/
namespace CrossAsm

section Putting

variable {σ ι : Type} {put : ι → EStateM Fault σ Unit} {steps : List (Except Fault ι)} {s after : σ}

theorem putAll_eq_ok {next : ι → σ → σ}
    (puts : ∀ i s after, put i s = .ok () after → after = next i s)
    (ran : putAll put steps s = .ok () after) :
    ∃ instrs : List ι, steps = instrs.map .ok ∧ after = instrs.foldl (fun s i => next i s) s := by
  induction steps generalizing s with
  | nil =>
    cases ran
    exact ⟨[], rfl, rfl⟩
  | cons step rest ih =>
    cases step with
    | error fault => cases ran
    | ok i =>
      rw [putAll] at ran
      change EStateM.bind (put i) (fun _ => putAll put rest) s = _ at ran
      unfold EStateM.bind at ran
      cases first : put i s with
      | error fault stopped => simp [first] at ran
      | ok _ reached =>
        rw [first] at ran
        obtain ⟨instrs, rfl, rfl⟩ := ih ran
        refine ⟨i :: instrs, rfl, ?_⟩
        rw [List.foldl_cons, puts i s reached first]

/-- As long as there is memory, instructions can be put one after the other. -/
theorem putAll_of_room {memory : Memory} {code : σ → CodeBuffer} {bytes : ι → List UInt8}
    (puts : ∀ i s, (code s).size + (bytes i).length < memory.limit →
      ∃ after, put i s = .ok () after ∧ (code after).size = (code s).size + (bytes i).length)
    (instrs : List ι) (s : σ)
    (room : (code s).size + (instrs.flatMap bytes).length < memory.limit) :
    ∃ after, putAll put (instrs.map .ok) s = .ok () after := by
  induction instrs generalizing s with
  | nil => exact ⟨s, rfl⟩
  | cons i instrs ih =>
    rw [List.flatMap_cons, List.length_append] at room
    obtain ⟨next, put_ok, grown⟩ := puts i s (by omega)
    obtain ⟨after, ran⟩ := ih next (by omega)
    refine ⟨after, ?_⟩
    rw [List.map_cons, putAll]
    change EStateM.bind (put i) (fun _ => putAll put (instrs.map .ok)) s = _
    simp only [EStateM.bind, put_ok, ran]

/-- A sequence fails by one of its own faults or because an instruction cannot be put. -/
theorem putAll_eq_error {fault : Fault} (failed : putAll put steps s = .error fault after) :
    .error fault ∈ steps ∨ ∃ i earlier later, put i earlier = .error fault later := by
  induction steps generalizing s with
  | nil => cases failed
  | cons step rest ih =>
    cases step with
    | error first =>
      cases failed
      exact .inl List.mem_cons_self
    | ok i =>
      rw [putAll] at failed
      change EStateM.bind (put i) (fun _ => putAll put rest) s = _ at failed
      unfold EStateM.bind at failed
      cases first : put i s with
      | error earlier stopped =>
        rw [first] at failed
        cases failed
        exact .inr ⟨i, s, after, first⟩
      | ok _ reached =>
        rw [first] at failed
        obtain inside | outside := ih failed
        · exact .inl (List.mem_cons_of_mem _ inside)
        · exact .inr outside

end Putting

section Instructions

variable {ι : Type} {step : Except Fault ι} {rest : List (Except Fault ι)} {instrs : List ι}

theorem cons_eq_map_ok (all : step :: rest = instrs.map .ok) :
    ∃ i later, step = .ok i ∧ rest = later.map .ok ∧ instrs = i :: later := by
  obtain ⟨i, later, rfl, made, others⟩ := List.map_eq_cons_iff.mp all.symm
  exact ⟨i, later, made.symm, others.symm, rfl⟩

theorem singleton_eq_map_ok (all : [step] = instrs.map .ok) : ∃ i, step = .ok i ∧ instrs = [i] := by
  obtain ⟨i, later, made, others, rfl⟩ := cons_eq_map_ok all
  rw [List.map_eq_nil_iff.mp others.symm]
  exact ⟨i, made, rfl⟩

theorem require_eq_map_ok {α : Type} {value : Except Fault α} {steps : α → List (Except Fault ι)}
    (all : require value steps = instrs.map .ok) :
    ∃ a, value = .ok a ∧ steps a = instrs.map .ok := by
  cases value with
  | ok a => exact ⟨a, rfl, all⟩
  | error fault =>
    obtain ⟨i, made, _⟩ := singleton_eq_map_ok all
    cases made

end Instructions

/-- Every step, an instruction or a fault, is as `P` says. -/
def Each {ι : Type} (P : Except Fault ι → Prop) (steps : List (Except Fault ι)) : Prop :=
  ∀ step ∈ steps, P step

namespace Each

variable {ι : Type} {P : Except Fault ι → Prop} {step : Except Fault ι}
  {steps rest : List (Except Fault ι)}

theorem nil : Each P [] := by
  intro step member
  cases member

theorem cons (first : P step) (more : Each P rest) : Each P (step :: rest) :=
  List.forall_mem_cons.mpr ⟨first, more⟩

theorem single (only : P step) : Each P [step] := cons only nil

theorem append (first : Each P steps) (second : Each P rest) : Each P (steps ++ rest) :=
  List.forall_mem_append.mpr ⟨first, second⟩

theorem map {α : Type} {f : α → Except Fault ι} {items : List α} (all : ∀ a, P (f a)) :
    Each P (items.map f) :=
  List.forall_mem_map.mpr fun a _ => all a

theorem require {α : Type} {value : Except Fault α} {steps : α → List (Except Fault ι)}
    (unmet : ∀ fault, value = .error fault → P (.error fault))
    (met : ∀ a, value = .ok a → Each P (steps a)) : Each P (require value steps) := by
  cases value with
  | error fault => exact single (unmet fault rfl)
  | ok a => exact met a rfl

end Each

/-- No step is a fault. -/
def Clear {ι : Type} (steps : List (Except Fault ι)) : Prop :=
  Each (fun step => ∃ i, step = .ok i) steps

section Clear

variable {ι : Type} {step : Except Fault ι} {steps rest : List (Except Fault ι)}

theorem clear_iff : Clear steps ↔ ∃ instrs : List ι, steps = instrs.map .ok := by
  constructor
  · intro clear
    induction steps with
    | nil => exact ⟨[], rfl⟩
    | cons step rest ih =>
      obtain ⟨⟨i, rfl⟩, later⟩ := List.forall_mem_cons.mp clear
      obtain ⟨instrs, rfl⟩ := ih later
      exact ⟨i :: instrs, rfl⟩
  · rintro ⟨instrs, rfl⟩
    exact Each.map fun i => ⟨i, rfl⟩

@[simp] theorem clear_nil : Clear ([] : List (Except Fault ι)) := Each.nil

@[simp] theorem clear_cons : Clear (step :: rest) ↔ (∃ i, step = .ok i) ∧ Clear rest :=
  List.forall_mem_cons

@[simp] theorem clear_append : Clear (steps ++ rest) ↔ Clear steps ∧ Clear rest :=
  List.forall_mem_append

@[simp] theorem clear_require {α : Type} {value : Except Fault α}
    {steps : α → List (Except Fault ι)} :
    Clear (require value steps) ↔ ∃ a, value = .ok a ∧ Clear (steps a) := by
  cases value with
  | ok a => simp [require]
  | error fault => simp [require]

theorem clear_map_ok {α : Type} (items : List α) (instr : α → ι) :
    Clear (items.map fun a => .ok (instr a)) := Each.map fun a => ⟨instr a, rfl⟩

theorem clear_replicate_ok (count : Nat) (i : ι) : Clear (List.replicate count (.ok i)) := by
  intro step member
  exact ⟨i, List.eq_of_mem_replicate member⟩

end Clear

/-- The steps, unless one of them is a fault, are instructions of `size` bytes in all. -/
def Takes {ι : Type} (bytes : ι → List UInt8) (steps : List (Except Fault ι)) (size : Nat) : Prop :=
  ∀ instrs : List ι, steps = instrs.map .ok → (instrs.flatMap bytes).length = size

namespace Takes

variable {ι : Type} {bytes : ι → List UInt8} {steps rest : List (Except Fault ι)} {m n : Nat}

theorem nil : Takes bytes [] 0 := by
  intro instrs all
  rw [List.map_eq_nil_iff.mp all.symm]
  rfl

theorem cons {step : Except Fault ι} (first : ∀ i, step = .ok i → (bytes i).length = m)
    (more : Takes bytes rest n) : Takes bytes (step :: rest) (m + n) := by
  intro instrs all
  cases instrs with
  | nil => cases all
  | cons i instrs =>
    obtain ⟨head, tail⟩ := List.cons_eq_cons.mp all
    rw [List.flatMap_cons, List.length_append, first i head, more instrs tail]

theorem ok {i : ι} (m : Nat) (first : (bytes i).length = m) (more : Takes bytes rest n) :
    Takes bytes (.ok i :: rest) (m + n) :=
  cons (fun _ same => by cases same; exact first) more

/-- A step that makes an instruction of `m` bytes from a checked value. -/
theorem map {α : Type} {value : Except Fault α} {instr : α → ι} (m : Nat)
    (first : ∀ a, (bytes (instr a)).length = m) (more : Takes bytes rest n) :
    Takes bytes (value.map instr :: rest) (m + n) := by
  refine cons (fun i made => ?_) more
  obtain ⟨a, _, rfl⟩ := map_eq_ok_iff.mp made
  exact first a

theorem error (fault : Fault) : Takes bytes (.error fault :: rest) n := by
  intro instrs all
  cases instrs with
  | nil => cases all
  | cons i instrs => cases (List.cons_eq_cons.mp all).1

theorem append (first : Takes bytes steps m) (second : Takes bytes rest n) :
    Takes bytes (steps ++ rest) (m + n) := by
  intro instrs all
  obtain ⟨before, after, rfl, left, right⟩ := List.map_eq_append_iff.mp all.symm
  rw [List.flatMap_append, List.length_append, first before left.symm, second after right.symm]

theorem require {α : Type} {value : Except Fault α} {steps : α → List (Except Fault ι)}
    (all : ∀ a, value = .ok a → Takes bytes (steps a) n) :
    Takes bytes (require value steps) n := by
  cases value with
  | error fault => exact error fault
  | ok a => exact all a rfl

/-- One instruction of `m` bytes for each item of a list. -/
theorem each {α : Type} {instr : α → ι} (m : Nat) (same : ∀ a, (bytes (instr a)).length = m)
    (items : List α) : Takes bytes (items.map fun a => .ok (instr a)) (items.length * m) := by
  induction items with
  | nil => simpa using nil
  | cons a items ih =>
    rw [List.length_cons, Nat.succ_mul, Nat.add_comm]
    exact ok m (same a) ih

theorem replicate {i : ι} (m : Nat) (same : (bytes i).length = m) (count : Nat) :
    Takes bytes (List.replicate count (.ok i)) (count * m) := by
  simpa using each m (fun _ : Unit => same) (List.replicate count ())

theorem of_eq (sized : Takes bytes steps m) (same : m = n) : Takes bytes steps n := same ▸ sized

end Takes

/-- As long as there is memory, steps that are clear can be put. -/
theorem putAll_of_clear {σ ι : Type} {put : ι → EStateM Fault σ Unit} {memory : Memory}
    {code : σ → CodeBuffer} {bytes : ι → List UInt8}
    (puts : ∀ i s, (code s).size + (bytes i).length < memory.limit →
      ∃ after, put i s = .ok () after ∧ (code after).size = (code s).size + (bytes i).length)
    {steps : List (Except Fault ι)} (clear : Clear steps) {size : Nat} (sized : Takes bytes steps size)
    {s : σ} (room : (code s).size + size < memory.limit) :
    ∃ after, putAll put steps s = .ok () after := by
  obtain ⟨instrs, rfl⟩ := clear_iff.mp clear
  rw [← sized instrs rfl] at room
  exact putAll_of_room puts instrs s room

end CrossAsm
