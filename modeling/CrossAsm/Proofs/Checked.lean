import CrossAsm.Fault

/-!
Checked values: what it takes for a check, or a chain of checks, to give a value or to fail.
-/
namespace CrossAsm

theorem ok_bind {ε α β : Type} (a : α) (next : α → Except ε β) : (Except.ok a >>= next) = next a := rfl

theorem bind_eq_ok_iff {ε α β : Type} {first : Except ε α} {second : α → Except ε β} {b : β} :
    (first >>= second) = .ok b ↔ ∃ a, first = .ok a ∧ second a = .ok b := by
  cases first with
  | error fault => simp [bind, Except.bind]
  | ok a => simp [bind, Except.bind]

theorem bind_eq_error_iff {ε α β : Type} {first : Except ε α} {second : α → Except ε β} {e : ε} :
    (first >>= second) = .error e ↔
      first = .error e ∨ ∃ a, first = .ok a ∧ second a = .error e := by
  cases first with
  | error fault => simp [bind, Except.bind]
  | ok a => simp [bind, Except.bind]

theorem map_eq_ok_iff {ε α β : Type} {value : Except ε α} {f : α → β} {b : β} :
    value.map f = .ok b ↔ ∃ a, value = .ok a ∧ f a = b := by
  cases value with
  | error fault => simp [Except.map]
  | ok a => simp [Except.map]

/-- What is made of a checked value is there if the value is. -/
@[simp] theorem exists_map_eq_ok {ε α β : Type} {value : Except ε α} {f : α → β} :
    (∃ b, value.map f = .ok b) ↔ ∃ a, value = .ok a := by
  cases value with
  | error fault => simp [Except.map]
  | ok a => simp [Except.map]

/-- What is made of two checked values is there if both are. -/
@[simp] theorem exists_bind_map_eq_ok {ε α β γ : Type} {first : Except ε α} {second : Except ε β}
    {f : α → β → γ} :
    (∃ c, (first >>= fun a => f a <$> second) = .ok c) ↔
      (∃ a, first = .ok a) ∧ ∃ b, second = .ok b := by
  cases first with
  | error fault => simp [bind, Except.bind]
  | ok a => cases second <;> simp [bind, Except.bind, Functor.map, Except.map]

theorem checkRange_eq_ok_iff {value low high result : Int} :
    checkRange value low high = .ok result ↔ (low ≤ value ∧ value ≤ high) ∧ result = value := by
  unfold checkRange
  split
  next within => simp [within, eq_comm]
  next outside => simp [outside]

theorem checkRange_eq_error_iff {value low high : Int} {fault : Fault} :
    checkRange value low high = .error fault ↔
      ¬ (low ≤ value ∧ value ≤ high) ∧ fault = .immediateOutOfRange value low high := by
  unfold checkRange
  split
  next within => simp [within]
  next outside => simp [outside, eq_comm]

theorem exists_checkRange_eq_ok {value low high : Int} :
    (∃ result, checkRange value low high = .ok result) ↔ low ≤ value ∧ value ≤ high := by
  simp [checkRange_eq_ok_iff]

end CrossAsm
