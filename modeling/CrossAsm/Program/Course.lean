import CrossAsm.Program.Reading

/-!
The course that reading takes. Every step of reading is put together from taking tokens, so what holds
between a window and the one that taking a token leaves, and goes on from step to step, holds for every
step.
-/
namespace CrossAsm.Reading

variable {α β : Type} {kept lost : Window → Window → Prop}

/-- The step leads from a window to one that is `kept` if it succeeds, and else to one that is `lost`. -/
structure Follows (kept lost : Window → Window → Prop) (step : Reading α) : Prop where
  ok : ∀ {w a after}, step w = .ok a after → kept w after
  error : ∀ {w fault after}, step w = .error fault after → lost w after

/-- Relations that hold for taking a token and go on from step to step. -/
structure Course (kept lost : Window → Window → Prop) : Prop where
  kept_refl : ∀ w, kept w w
  lost_refl : ∀ w, lost w w
  kept_trans : ∀ {w middle after}, kept w middle → kept middle after → kept w after
  lost_trans : ∀ {w middle after}, kept w middle → lost middle after → lost w after
  take : Follows kept lost take

theorem take_eq_ok {w after : Window} {token : Option Token} (taken : take w = .ok token after) :
    Window.take w = .ok token after := by
  unfold take at taken
  split at taken
  next moved =>
    cases taken
    exact moved
  next => cases taken

theorem take_eq_error {w after : Window} {fault : ParseFault} (failed : take w = .error fault after) :
    ∃ reason, fault = .scan reason ∧ Window.take w = .error reason after := by
  unfold take at failed
  split at failed
  next => cases failed
  next reason _ moved =>
    cases failed
    exact ⟨reason, rfl, moved⟩

theorem bind_eq_ok {step : Reading α} {next : α → Reading β} {w after : Window} {b : β}
    (ran : (step >>= next) w = .ok b after) :
    ∃ a middle, step w = .ok a middle ∧ next a middle = .ok b after := by
  change EStateM.bind step next w = _ at ran
  unfold EStateM.bind at ran
  split at ran
  next a middle first => exact ⟨a, middle, first, ran⟩
  next => cases ran

theorem bind_eq_error {step : Reading α} {next : α → Reading β} {w after : Window} {fault : ParseFault}
    (ran : (step >>= next) w = .error fault after) :
    step w = .error fault after ∨
      ∃ a middle, step w = .ok a middle ∧ next a middle = .error fault after := by
  change EStateM.bind step next w = _ at ran
  unfold EStateM.bind at ran
  split at ran
  next a middle first => exact .inr ⟨a, middle, first, ran⟩
  next first =>
    cases ran
    exact .inl first

namespace Course

variable (course : Course kept lost)
include course

theorem pure (a : α) : Follows kept lost (Pure.pure a) where
  ok {w _ _} ran := by
    cases ran
    exact course.kept_refl w
  error ran := by cases ran

theorem throw (fault : ParseFault) : Follows kept lost (MonadExcept.throw fault : Reading α) where
  ok ran := by cases ran
  error {w _ _} ran := by
    cases ran
    exact course.lost_refl w

theorem get : Follows kept lost (MonadState.get : Reading Window) where
  ok {w _ _} ran := by
    cases ran
    exact course.kept_refl w
  error ran := by cases ran

theorem bind {step : Reading α} {next : α → Reading β} (first : Follows kept lost step)
    (second : ∀ a, Follows kept lost (next a)) : Follows kept lost (step >>= next) where
  ok ran := by
    obtain ⟨a, middle, here, there⟩ := bind_eq_ok ran
    exact course.kept_trans (first.ok here) ((second a).ok there)
  error ran := by
    obtain here | ⟨a, middle, here, there⟩ := bind_eq_error ran
    · exact first.error here
    · exact course.lost_trans (first.ok here) ((second a).error there)

theorem takeOperand : Follows kept lost takeOperand := by
  refine course.bind course.get fun w => ?_
  split
  · exact course.throw _
  · split
    · exact course.throw _
    · exact course.bind course.take fun _ => course.pure _

theorem register : Follows kept lost register := by
  refine course.bind course.takeOperand fun token => ?_
  split
  · split
    · exact course.pure _
    · exact course.throw _
  · exact course.throw _

theorem operand : Follows kept lost operand := by
  refine course.bind course.takeOperand fun token => ?_
  split
  · exact course.pure _
  · split
    · exact course.pure _
    · exact course.throw _
  · exact course.throw _

theorem number : Follows kept lost number := by
  refine course.bind course.takeOperand fun token => ?_
  split
  · exact course.pure _
  · exact course.throw _

theorem symbol : Follows kept lost symbol := by
  refine course.bind course.takeOperand fun token => ?_
  split
  · split
    · exact course.throw _
    · exact course.pure _
  · exact course.throw _

theorem punct (p : Punct) (wanted : Expected) : Follows kept lost (punct p wanted) := by
  refine course.bind course.takeOperand fun token => ?_
  split
  · exact course.pure _
  · exact course.throw _

theorem comma : Follows kept lost comma := course.punct _ _

theorem pointer : Follows kept lost pointer :=
  course.bind (course.punct _ _) fun _ => course.bind course.register fun _ =>
    course.bind (course.punct _ _) fun _ => course.pure _

theorem comma? : Follows kept lost comma? := by
  refine course.bind course.get fun w => ?_
  split
  · exact course.bind course.take fun _ => course.pure _
  · exact course.pure _

theorem registerAndOperand : Follows kept lost registerAndOperand :=
  course.bind course.register fun _ => course.bind course.comma fun _ =>
    course.bind course.operand fun _ => course.pure _

theorem operation (m : Mnemonic) : Follows kept lost (operation m) := by
  cases m with
  | mov | binary | product | shift | cmp =>
    exact course.bind course.registerAndOperand fun _ => course.pure _
  | load =>
    exact course.bind course.register fun _ => course.bind course.comma fun _ =>
      course.bind course.pointer fun _ => course.pure _
  | store =>
    exact course.bind course.pointer fun _ => course.bind course.comma fun _ =>
      course.bind course.operand fun _ => course.pure _
  | unary | push | pop => exact course.bind course.register fun _ => course.pure _
  | jmp | call | branch => exact course.bind course.symbol fun _ => course.pure _
  | ret | halt | nop => exact course.pure _
  | int | org | bit => exact course.bind course.number fun _ => course.pure _
  | var =>
    refine course.bind course.symbol fun _ => course.bind course.comma? fun _ => ?_
    split
    · exact course.bind course.number fun _ => course.pure _
    · exact course.pure _
  | buffer =>
    exact course.bind course.symbol fun _ => course.bind course.comma fun _ =>
      course.bind course.number fun _ => course.pure _
  | set =>
    exact course.bind course.symbol fun _ => course.bind course.comma fun _ =>
      course.bind course.operand fun _ => course.pure _
  | get | djnz =>
    exact course.bind course.register fun _ => course.bind course.comma fun _ =>
      course.bind course.symbol fun _ => course.pure _
  | bitBranch =>
    exact course.bind course.number fun _ => course.bind course.comma fun _ =>
      course.bind course.symbol fun _ => course.pure _

theorem endOfLine : Follows kept lost endOfLine := by
  refine course.bind course.take fun token => ?_
  split
  · exact course.pure _
  · split
    · exact course.pure _
    · exact course.throw _

theorem instruction (pos : Position) (word : String) (span : Span) :
    Follows kept lost (instruction pos word span) := by
  unfold Reading.instruction
  split
  · exact course.throw _
  · exact course.bind (course.operation _) fun _ => course.bind course.endOfLine fun _ =>
      course.pure _

end Course

end CrossAsm.Reading
