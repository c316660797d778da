import CrossAsm.Proofs.Pass

/-!
Guarded computations. Where a number has to fit a word, where an array is indexed and where a case is
held to be impossible, a guard stands; a computation that meets one trips. `Safe` says that it does not,
and what holds of its result. `Agrees` says that without its guards it is a given computation.
-/
namespace CrossAsm

/-- What a guard stops at. -/
inductive Trip where
  /-- A number leaves its word. -/
  | overflow
  /-- Bytes are meant that are not there. -/
  | outside
  /-- A case that should not arise. -/
  | unreachable
  deriving DecidableEq, Repr

/-- Why a guarded computation has no result: for a reason that it reports, or because it trips. -/
inductive Stop (ε : Type) where
  | fault (reason : ε)
  | trip (at_ : Trip)
  deriving DecidableEq, Repr

abbrev Guarded (ε α : Type) := Except (Stop ε) α

namespace Guarded

variable {ε δ α β σ ι : Type}

/-- A computation that needs no guards. -/
def unguarded : Except ε α → Guarded ε α
  | .ok a => .ok a
  | .error reason => .error (.fault reason)

/-- A number that has to fit a word with so many values. -/
def below (bound : Nat) (n : Int) : Guarded ε Nat :=
  if 0 ≤ n ∧ n < bound then .ok n.toNat else .error (.trip .overflow)

/-- A number that has to fit an unsigned word of 64 bits. -/
def unsigned (n : Int) : Guarded ε Nat := below 0x10000000000000000 n

/-- A number that has to fit a signed word of 64 bits. -/
def signed (n : Int) : Guarded ε Int :=
  if -0x8000000000000000 ≤ n ∧ n < 0x8000000000000000 then .ok n else .error (.trip .overflow)

def inside (there : Prop) [Decidable there] : Guarded ε Unit :=
  if there then .ok () else .error (.trip .outside)

/-- An item that has to be there. -/
def item (list : List α) (index : Nat) : Guarded ε α :=
  match list[index]? with
  | some a => .ok a
  | none => .error (.trip .outside)

def unreachable : Guarded ε α := .error (.trip .unreachable)

/-- What a step that keeps its state comes to. -/
def finished : EStateM.Result δ σ Unit → Except δ σ
  | .ok _ s => .ok s
  | .error fault _ => .error fault

/-- What a request to a state comes to: an answer and the state after it. -/
def answered : EStateM.Result δ σ α → Except δ (α × σ)
  | .ok a s => .ok (a, s)
  | .error fault _ => .error fault

/-- Reports are about a position of the source. -/
def atPos (pos : Position) : Guarded Fault α → Guarded FaultAt α
  | .ok a => .ok a
  | .error (.fault reason) => .error (.fault ⟨pos, reason⟩)
  | .error (.trip at_) => .error (.trip at_)

/-- Goes along a program, or up to the first instruction that fails. -/
def each (step : Instruction → σ → Guarded Fault σ) : List Instruction → σ → Guarded FaultAt σ
  | [], s => .ok s
  | i :: rest, s => do
    let next ← atPos i.pos (step i s)
    each step rest next

/-- Puts instructions one after the other. -/
def putAll (put : ι → σ → Guarded Fault σ) : List (Guarded Fault ι) → σ → Guarded Fault σ
  | [], s => .ok s
  | step :: rest, s => do
    let next ← put (← step) s
    putAll put rest next

/-- Steps that need a value; without it they come to what it stops at. -/
def require (value : Guarded Fault α) (steps : α → List (Guarded Fault ι)) : List (Guarded Fault ι) :=
  match value with
  | .ok a => steps a
  | .error stop => [.error stop]

theorem below_eq_ok {bound : Nat} {n : Int} (low : 0 ≤ n) (high : n < bound) :
    (below bound n : Guarded ε Nat) = .ok n.toNat :=
  if_pos ⟨low, high⟩

theorem unguarded_ok_bind (a : α) (f : α → Guarded ε β) : (unguarded (.ok a) >>= f) = f a := rfl

/-- The computation does not trip, and its result, if it has one, is as `P` says. -/
inductive Safe (P : α → Prop) : Guarded ε α → Prop
  | ok {a : α} (holds : P a) : Safe P (.ok a)
  | fault (reason : ε) : Safe P (.error (.fault reason))

namespace Safe

variable {x : Guarded ε α} {P R : α → Prop} {Q : β → Prop}

theorem bind {f : α → Guarded ε β} (safe : Safe P x) (next : ∀ a, P a → Safe Q (f a)) :
    Safe Q (x >>= f) := by
  cases safe with
  | ok holds => exact next _ holds
  | fault reason => exact .fault reason

theorem map {f : α → β} (safe : Safe (fun a => Q (f a)) x) : Safe Q (x.map f) := by
  cases safe with
  | ok holds => exact .ok holds
  | fault reason => exact .fault reason

theorem imp (safe : Safe P x) (weaker : ∀ a, P a → R a) : Safe R x := by
  cases safe with
  | ok holds => exact .ok (weaker _ holds)
  | fault reason => exact .fault reason

theorem unguarded {y : Except ε α} (holds : ∀ a, y = .ok a → P a) : Safe P (unguarded y) := by
  cases y with
  | ok a => exact .ok (holds a rfl)
  | error reason => exact .fault reason

theorem atPos {x : Guarded Fault α} (safe : Safe P x) (pos : Position) : Safe P (atPos pos x) := by
  cases safe with
  | ok holds => exact .ok holds
  | fault reason => exact .fault _

theorem below {bound : Nat} {n : Int} (low : 0 ≤ n) (high : n < bound) :
    Safe (fun word : Nat => (word : Int) = n) (below bound n : Guarded ε Nat) := by
  rw [below_eq_ok low high]
  exact .ok (Int.toNat_of_nonneg low)

theorem unsigned {n : Int} (low : 0 ≤ n) (high : n < 0x10000000000000000) :
    Safe (fun word : Nat => (word : Int) = n) (unsigned n : Guarded ε Nat) :=
  below low high

theorem signed {n : Int} (low : -0x8000000000000000 ≤ n) (high : n < 0x8000000000000000) :
    Safe (fun word => word = n) (signed n : Guarded ε Int) := by
  rw [Guarded.signed, if_pos ⟨low, high⟩]
  exact .ok rfl

theorem inside {there : Prop} [Decidable there] (holds : there) :
    Safe (fun _ => True) (inside there : Guarded ε Unit) := by
  rw [Guarded.inside, if_pos holds]
  exact .ok trivial

theorem item {list : List α} {index : Nat} {a : α} (there : list[index]? = some a) :
    Safe (fun b => b = a) (item list index : Guarded ε α) := by
  rw [Guarded.item, there]
  exact .ok rfl

/-- What holds at the start and is kept at every instruction holds at the end. -/
theorem each {step : Instruction → σ → Guarded Fault σ} {program : List Instruction}
    {P : Nat → σ → Prop} {s : σ} (start : P 0 s)
    (keeps : ∀ index i s, program[index]? = some i → P index s → Safe (P (index + 1)) (step i s)) :
    Safe (P program.length) (each step program s) := by
  induction program generalizing P s with
  | nil => exact .ok start
  | cons i rest ih =>
    refine ((keeps 0 i s rfl start).atPos i.pos).bind fun next holds => ?_
    exact ih holds fun index j s present => keeps (index + 1) j s present

theorem require {value : Guarded Fault α} {steps : α → List (Guarded Fault ι)} {R : ι → Prop}
    (safe : Safe P value) (next : ∀ a, P a → ∀ step ∈ steps a, Safe R step) :
    ∀ step ∈ require value steps, Safe R step := by
  cases safe with
  | ok holds => exact next _ holds
  | fault reason => exact List.forall_mem_singleton.mpr (.fault reason)

theorem putAll {put : ι → σ → Guarded Fault σ} {steps : List (Guarded Fault ι)} {P : σ → Prop} {s : σ}
    (start : P s) (made : ∀ step ∈ steps, Safe (fun _ => True) step)
    (keeps : ∀ i s, P s → Safe P (put i s)) : Safe P (putAll put steps s) := by
  induction steps generalizing s with
  | nil => exact .ok start
  | cons step rest ih =>
    obtain ⟨first, later⟩ := List.forall_mem_cons.mp made
    refine first.bind fun i _ => (keeps i s start).bind fun next holds => ?_
    exact ih holds later

end Safe

/-- Unless it trips, the guarded computation comes to the same as the other, whose errors are those
reported. -/
inductive Agrees (error : ε → δ) : Guarded ε α → Except δ α → Prop
  | ok (a : α) : Agrees error (.ok a) (.ok a)
  | fault (reason : ε) : Agrees error (.error (.fault reason)) (.error (error reason))
  | trip (at_ : Trip) (y : Except δ α) : Agrees error (.error (.trip at_)) y

namespace Agrees

variable {error : ε → δ} {x : Guarded ε α} {y : Except δ α}

theorem bind {f : α → Guarded ε β} {g : α → Except δ β} (same : Agrees error x y)
    (next : ∀ a, Agrees error (f a) (g a)) : Agrees error (x >>= f) (y >>= g) := by
  cases same with
  | ok a => exact next a
  | fault reason => exact .fault reason
  | trip at_ => exact .trip at_ _

theorem unguarded (y : Except ε α) : Agrees id (unguarded y) y := by
  cases y with
  | ok a => exact .ok a
  | error reason => exact .fault reason

/-- A guard that is passed changes nothing. -/
theorem below {bound : Nat} {n : Int} {f : Nat → Guarded ε α}
    (next : ∀ word : Nat, (word : Int) = n → Agrees error (f word) y) :
    Agrees error (below bound n >>= f) y := by
  unfold Guarded.below
  split
  next fits => exact next n.toNat (Int.toNat_of_nonneg fits.1)
  next => exact .trip _ _

theorem unsigned {n : Int} {f : Nat → Guarded ε α}
    (next : ∀ word : Nat, (word : Int) = n → Agrees error (f word) y) :
    Agrees error (unsigned n >>= f) y :=
  below next

theorem signed {n : Int} {f : Int → Guarded ε α}
    (next : -0x8000000000000000 ≤ n ∧ n < 0x8000000000000000 → Agrees error (f n) y) :
    Agrees error (signed n >>= f) y := by
  unfold Guarded.signed
  split
  next fits => exact next fits
  next => exact .trip _ _

theorem item {list : List α} {index : Nat} {f : α → Guarded ε β} {y : Except δ β}
    (next : ∀ a, list[index]? = some a → Agrees error (f a) y) :
    Agrees error (item list index >>= f) y := by
  unfold Guarded.item
  cases found : list[index]? with
  | some a => exact next a found
  | none => exact .trip _ _

theorem inside {there : Prop} [Decidable there] {f : Unit → Guarded ε α}
    (next : there → Agrees error (f ()) y) : Agrees error (inside there >>= f) y := by
  unfold Guarded.inside
  split
  next holds => exact next holds
  next => exact .trip _ _

end Agrees

end Guarded

end CrossAsm
