import CrossAsm.Files.Path

/-!
Names of files and their stems. What a stem is can be said by its dots alone (`IsStem`), and every name
has exactly one (`isStem_iff`). A stem that gets another extension loses what stands after its own last
dot (`withExtension_of_isStem`), and one whose stem is a single dot names a directory afterwards.
-/
namespace CrossAsm.Path

section Division

variable {name stem extension : List Char}

/-- All of a name that has no dot past its first character, and otherwise what stands before its last
dot. -/
def IsStem (name stem : List Char) : Prop :=
  '.' ∉ name.tail ∧ stem = name ∨
    stem ≠ [] ∧ ∃ extension, '.' ∉ extension ∧ name = stem ++ '.' :: extension

/-- What has no dot is passed over from behind. -/
theorem passed_of_undotted {cs : List Char} (undotted : '.' ∉ cs) :
    ∀ d ∈ cs.reverse, decide (d ≠ '.') := by
  intro d member
  simp only [decide_eq_true_eq]
  rintro rfl
  exact undotted (List.mem_reverse.mp member)

theorem divide_of_undotted (undotted : '.' ∉ name.tail) : divide name = (name, none) := by
  cases name with
  | nil => rfl
  | cons c cs =>
    rw [List.tail_cons] at undotted
    unfold divide
    rw [List.reverse_cons, List.dropWhile_append_of_pos (passed_of_undotted undotted)]
    by_cases dot : c = '.'
    · simp [dot]
    · simp [dot]

theorem divide_append (named : stem ≠ []) (undotted : '.' ∉ extension) :
    divide (stem ++ '.' :: extension) = (stem, some extension) := by
  have rest : (stem ++ '.' :: extension).reverse.dropWhile (fun d => decide (d ≠ '.')) =
      '.' :: stem.reverse := by
    rw [List.reverse_append, List.reverse_cons, List.append_assoc,
      List.dropWhile_append_of_pos (passed_of_undotted undotted)]
    simp
  unfold divide
  rw [rest]
  split
  next none => cases none
  next single =>
    simp only [List.cons.injEq, List.reverse_eq_nil_iff] at single
    exact absurd single.2 named
  next before _ same =>
    simp only [List.cons.injEq] at same
    rw [← same.2, List.reverse_reverse, List.length_reverse, ← List.drop_drop, List.drop_left]
    rfl

/-- A name with a dot past its first character is divided at its last dot. -/
theorem exists_last_dot (dotted : '.' ∈ name.tail) :
    ∃ stem extension, stem ≠ [] ∧ '.' ∉ extension ∧ name = stem ++ '.' :: extension := by
  cases name with
  | nil => cases dotted
  | cons c cs =>
    -- the last dot is the first one from behind
    obtain ⟨behind, before, parts, undotted⟩ :=
      List.eq_append_cons_of_mem (List.mem_reverse.mpr dotted)
    refine ⟨c :: before.reverse, behind.reverse, by simp, by simpa using undotted, ?_⟩
    have turned := congrArg List.reverse parts
    simp only [List.tail_cons, List.reverse_reverse, List.reverse_append, List.reverse_cons,
      List.append_assoc, List.singleton_append] at turned
    rw [turned, List.cons_append]

theorem isStem_iff : IsStem name stem ↔ (divide name).1 = stem := by
  constructor
  · rintro (⟨undotted, rfl⟩ | ⟨named, extension, undotted, rfl⟩)
    · rw [divide_of_undotted undotted]
    · rw [divide_append named undotted]
  · rintro rfl
    by_cases dotted : '.' ∈ name.tail
    · obtain ⟨stem, extension, named, undotted, rfl⟩ := exists_last_dot dotted
      rw [divide_append named undotted]
      exact .inr ⟨named, extension, undotted, rfl⟩
    · rw [divide_of_undotted dotted]
      exact .inl ⟨dotted, rfl⟩

/-- A stem is the whole name exactly if the name has no dot past its first character. -/
theorem IsStem.eq_iff (isStem : IsStem name stem) : stem = name ↔ '.' ∉ name.tail := by
  rcases isStem with ⟨undotted, rfl⟩ | ⟨named, extension, undotted, rfl⟩
  · exact ⟨fun _ => undotted, fun _ => rfl⟩
  · constructor
    · intro same
      simp at same
    · intro absent
      cases stem with
      | nil => exact absurd rfl named
      | cons c cs => simp at absent

theorem IsStem.ne_nil (isStem : IsStem name stem) (named : name ≠ []) : stem ≠ [] := by
  rcases isStem with ⟨_, rfl⟩ | ⟨some, _⟩
  · exact named
  · exact some

theorem IsStem.subset (isStem : IsStem name stem) : stem ⊆ name := by
  rcases isStem with ⟨_, rfl⟩ | ⟨_, extension, _, rfl⟩
  · exact List.Subset.refl _
  · exact List.subset_append_left _ _

end Division

section Parts

variable {sep : Char} {cs front : List Char}

theorem splitAt_ne_nil (sep : Char) (cs : List Char) : splitAt sep cs ≠ [] := by
  induction cs with
  | nil => simp [splitAt]
  | cons c cs ih =>
    rw [splitAt]
    split
    next none => exact absurd none ih
    next => split <;> simp

theorem splitAt_cons_sep (sep : Char) (cs : List Char) :
    splitAt sep (sep :: cs) = [] :: splitAt sep cs := by
  rw [splitAt]
  split
  next none => exact absurd none (splitAt_ne_nil sep cs)
  next same => rw [if_pos rfl, same]

theorem splitAt_of_not_mem (whole : sep ∉ cs) : splitAt sep cs = [cs] := by
  induction cs with
  | nil => rfl
  | cons c cs ih =>
    obtain ⟨other, whole⟩ : sep ≠ c ∧ sep ∉ cs := by simpa using whole
    rw [splitAt, ih whole]
    exact if_neg (Ne.symm other)

theorem splitAt_append (whole : sep ∉ front) (cs : List Char) :
    splitAt sep (front ++ sep :: cs) = front :: splitAt sep cs := by
  induction front with
  | nil => exact splitAt_cons_sep sep cs
  | cons c front ih =>
    obtain ⟨other, whole⟩ : sep ≠ c ∧ sep ∉ front := by simpa using whole
    rw [List.cons_append, splitAt, ih whole]
    exact if_neg (Ne.symm other)

theorem not_mem_of_mem_splitAt {part : List Char} (member : part ∈ splitAt sep cs) : sep ∉ part := by
  induction cs generalizing part with
  | nil =>
    cases List.mem_singleton.mp member
    simp
  | cons c cs ih =>
    rw [splitAt] at member
    split at member
    next => cases member
    next first parts same =>
      split at member
      next =>
        rcases List.mem_cons.mp member with rfl | member
        · simp
        · exact ih (same ▸ member)
      next other =>
        rcases List.mem_cons.mp member with rfl | member
        · exact List.not_mem_cons_of_ne_of_not_mem (Ne.symm other) (ih (same ▸ List.mem_cons_self))
        · exact ih (same ▸ List.mem_cons_of_mem _ member)

end Parts

section Names

variable {path name stem inner : String}

/-- A name without a slash is the only part of its path. -/
theorem steps_of_plain (plain : '/' ∉ name.toList) (named : name ≠ "") : steps name = [name] := by
  simp [steps, parts, splitAt_of_not_mem plain, named]

/-- A name in a directory is the step after it. -/
theorem steps_within {directory : String} (directoryPlain : '/' ∉ directory.toList)
    (directoryNamed : directory ≠ "") (plain : '/' ∉ name.toList) (named : name ≠ "") :
    steps (directory ++ "/" ++ name) = [directory, name] := by
  have spelled : (directory ++ "/" ++ name).toList = directory.toList ++ '/' :: name.toList := by simp
  simp [steps, parts, spelled, splitAt_append directoryPlain, splitAt_of_not_mem plain, directoryNamed,
    named]

theorem fileName?_of_plain (plain : '/' ∉ name.toList) (named : name ≠ "") :
    fileName? name = if name = "." ∨ name = ".." then none else some name := by
  rw [fileName?, components, steps_of_plain plain named]
  by_cases dot : name = "."
  · simp [dot]
  · simp [dot]

/-- The name of a file is neither empty nor a single or a double dot, and has no slash. -/
theorem of_fileName? (known : fileName? path = some name) :
    name ≠ "" ∧ name ≠ "." ∧ name ≠ ".." ∧ '/' ∉ name.toList := by
  unfold fileName? at known
  split at known
  next => cases known
  next last found =>
    split at known
    next => cases known
    next up =>
      cases known
      have member := List.mem_of_getLast? found
      simp only [components, steps, parts, List.mem_filter, List.mem_map, decide_eq_true_eq] at member
      obtain ⟨⟨⟨part, listed, rfl⟩, named⟩, here⟩ := member
      refine ⟨named, here, up, ?_⟩
      rw [String.toList_ofList]
      exact not_mem_of_mem_splitAt listed

theorem exists_isStem (name : String) : ∃ stem : String, IsStem name.toList stem.toList :=
  ⟨String.ofList (divide name.toList).1, isStem_iff.mpr (by rw [String.toList_ofList])⟩

theorem fileStem?_eq_some_iff : fileStem? path = some stem ↔
    ∃ name, fileName? path = some name ∧ IsStem name.toList stem.toList := by
  rw [fileStem?, Option.map_eq_some_iff]
  simp only [isStem_iff, String.ext_iff, String.toList_ofList]

/-- The stem of a file is not empty, and has no slash. -/
theorem of_fileStem? (known : fileStem? path = some stem) : stem ≠ "" ∧ '/' ∉ stem.toList := by
  obtain ⟨name, known, isStem⟩ := fileStem?_eq_some_iff.mp known
  obtain ⟨named, _, _, plain⟩ := of_fileName? known
  constructor
  · have some := isStem.ne_nil (by simpa using named)
    simpa using some
  · intro slash
    exact plain (isStem.subset slash)

end Names

section Extensions

variable {name stem inner : String} {extension : List Char}

theorem withoutExtension_of_undotted (undotted : '.' ∉ name.toList.tail) :
    withoutExtension name = name := by
  rw [withoutExtension, divide_of_undotted undotted]

theorem withoutExtension_of_dotted (named : stem ≠ "") (undotted : '.' ∉ extension)
    (spelled : name.toList = stem.toList ++ '.' :: extension) : withoutExtension name = stem ++ "." := by
  rw [withoutExtension, spelled, divide_append (by simpa using named) undotted]
  apply String.ext
  rw [String.toList_ofList, String.toList_append]
  rfl

theorem withExtension_eq (name new : String) : withExtension name new =
    (fileStem? (withoutExtension name)).elim (withoutExtension name) (· ++ "." ++ new) := by
  -- its own equation takes seconds to derive
  delta withExtension
  dsimp only
  cases fileStem? (withoutExtension name) <;> rfl

/-- What stood before the last dot of a proper stem stands alone once the extension is gone. -/
theorem fileStem?_withoutExtension (plain : '/' ∉ stem.toList) (named : stem ≠ "")
    (isStem : IsStem stem.toList inner.toList) (proper : inner ≠ ".") :
    fileStem? (withoutExtension stem) = some inner := by
  rw [fileStem?_eq_some_iff]
  rcases isStem with ⟨undotted, same⟩ | ⟨some, extension, undotted, spelled⟩
  · obtain rfl : inner = stem := String.ext same
    have once : inner ≠ ".." := by
      rintro rfl
      exact undotted (by decide)
    rw [withoutExtension_of_undotted undotted, fileName?_of_plain plain named,
      if_neg (by simp [proper, once])]
    exact ⟨inner, rfl, .inl ⟨undotted, rfl⟩⟩
  · have kept : (inner ++ ".").toList = inner.toList ++ ['.'] := String.toList_append
    have slashless : '/' ∉ (inner ++ ".").toList := by
      have front : '/' ∉ inner.toList := fun slash => plain (spelled ▸ List.mem_append_left _ slash)
      rw [kept, List.mem_append]
      simp [front]
    have directory : ¬(inner ++ "." = "." ∨ inner ++ "." = "..") := by
      simp only [String.ext_iff, kept]
      rintro (single | double)
      · have single : inner.toList ++ ['.'] = [] ++ ['.'] := single
        exact some (List.append_cancel_right single)
      · have double : inner.toList ++ ['.'] = ['.'] ++ ['.'] := double
        exact proper (String.ext (List.append_cancel_right double))
    rw [withoutExtension_of_dotted (by simpa using some) undotted spelled,
      fileName?_of_plain slashless (by simp), if_neg directory]
    exact ⟨_, rfl, .inr ⟨some, [], by simp, kept⟩⟩

/-- A stem loses what stands after its last dot, and gets the new extension. -/
theorem withExtension_of_isStem (plain : '/' ∉ stem.toList) (named : stem ≠ "")
    (isStem : IsStem stem.toList inner.toList) (proper : inner ≠ ".") (new : String) :
    withExtension stem new = inner ++ "." ++ new := by
  rw [withExtension_eq, fileStem?_withoutExtension plain named isStem proper]
  rfl

/-- A stem whose own stem is a single dot comes to name a directory. -/
theorem withExtension_of_isStem_dot (isStem : IsStem stem.toList ".".toList) (new : String) :
    withExtension stem new = "." ∨ withExtension stem new = ".." := by
  rcases isStem with ⟨undotted, same⟩ | ⟨some, extension, undotted, spelled⟩
  · obtain rfl : "." = stem := String.ext same
    exact .inl rfl
  · have kept : withoutExtension stem = "." ++ "." :=
      withoutExtension_of_dotted (by decide) undotted spelled
    rw [withExtension_eq, kept]
    exact .inr rfl

end Extensions

end CrossAsm.Path
