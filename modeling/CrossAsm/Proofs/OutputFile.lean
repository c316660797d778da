import CrossAsm.Command.Run
import CrossAsm.Files.Disk
import CrossAsm.Proofs.Checked
import CrossAsm.Proofs.Stems

/-!
Where an image goes for which no output file is named. A run first sees to the target directory
(`run_makeTarget`), then writes one file in it or none (`execute_of_received`, `execute_of_refused`). The
file is not named by the stem of the source but by the stem of that stem (`image_goes_by_inner_stem`), so
sources with different stems can share it (`images_of_two_stems_collide`).
-/
namespace CrossAsm

variable {memory : Memory}

namespace Command

/-- The file in the target directory that a stem and a machine name. -/
def imageName (arch : Arch) (stem : String) : String := stem ++ "." ++ arch.name ++ ".bin"

theorem toList_imageName (arch : Arch) (stem : String) :
    (imageName arch stem).toList = stem.toList ++ '.' :: (arch.name ++ ".bin").toList := by
  simp [imageName]

theorem imageName_inj {arch other : Arch} {stem further : String} :
    imageName arch stem = imageName other further ↔ arch = other ∧ stem = further := by
  constructor
  · intro same
    have spelled := congrArg String.toList same
    rw [toList_imageName, toList_imageName] at spelled
    have arches : arch = other := by
      have behind := congrArg List.reverse spelled
      cases arch <;> cases other <;> simp [Arch.name] at behind ⊢
    subst arches
    exact ⟨rfl, String.ext (List.append_cancel_right spelled)⟩
  · rintro ⟨rfl, rfl⟩
    rfl

end Command

namespace Disk

open Command (targetDirectory)

section Steps

variable {d : Disk} {path : String} {place : Place}

/-- The disk once the target directory is there. -/
def withTarget (d : Disk) : Disk :=
  if (d.entry? [targetDirectory]).isSome then d
  else { d with directories := [targetDirectory] :: d.directories }

theorem files_withTarget (d : Disk) : d.withTarget.files = d.files := by
  unfold withTarget
  split <;> rfl

theorem resolve_of_relative (zeroless : '\x00' ∉ path.toList) (named : path ≠ "")
    (short : path.utf8ByteSize ≤ Path.longestPath) (relative : Path.isAbsolute path = false) :
    d.resolve path = (Path.steps path).foldlM (enter d) (.inside []) := by
  rw [resolve, if_neg (by simpa using zeroless), if_neg named, if_neg (Nat.not_lt.mpr short), relative]
  rfl

theorem readable_of_resolve (resolved : d.resolve path = .ok place) :
    '\x00' ∉ path.toList ∧ path.utf8ByteSize ≤ Path.longestPath := by
  unfold resolve at resolved
  split at resolved
  next => cases resolved
  next zeroless =>
    split at resolved
    next => cases resolved
    next =>
      split at resolved
      next => cases resolved
      next short => exact ⟨by simpa using zeroless, Nat.not_lt.mp short⟩

theorem look_start (d : Disk) : d.look (.inside []) = .ok (some .directory) := by
  simp [look, Place.name?, entry?]

theorem enter_start (d : Disk) (step : String) :
    d.enter (.inside []) step = .ok (Place.next (.inside []) step) := by
  rw [enter, look_start]
  rfl

theorem resolve_target (d : Disk) :
    d.resolve targetDirectory = .ok (.inside [targetDirectory]) := by
  have steps : Path.steps targetDirectory = [targetDirectory] := by decide
  rw [resolve_of_relative (by decide) (by decide) (by decide) (by decide), steps, List.foldlM_cons,
    enter_start]
  rfl

theorem look_target (d : Disk) :
    d.look (.inside [targetDirectory]) = .ok (d.entry? [targetDirectory]) := rfl

theorem isPresent_target (d : Disk) :
    d.isPresent targetDirectory = (d.entry? [targetDirectory]).isSome := by
  rw [isPresent, readFile, resolve_target, ok_bind, look_target, ok_bind]
  cases d.entry? [targetDirectory] with
  | none => rfl
  | some entry => cases entry <;> rfl

theorem makeDirectory_target {d : Disk} (absent : d.entry? [targetDirectory] = none) :
    d.makeDirectory targetDirectory =
      .ok { d with directories := [targetDirectory] :: d.directories } := by
  rw [makeDirectory, resolve_target, ok_bind, look_target, ok_bind, absent]
  rfl

theorem run_makeTarget (d : Disk) :
    (Command.makeTarget : StateM Disk (Except FileError Unit)) d = (.ok (), d.withTarget) := by
  have asked : (Command.makeTarget : StateM Disk (Except FileError Unit)) d =
      if d.isPresent targetDirectory then (.ok (), d)
      else change (·.makeDirectory targetDirectory) d := by
    change (if d.isPresent targetDirectory then
      (pure (.ok ()) : StateM Disk (Except FileError Unit)) else _) d = _
    split <;> rfl
  rw [asked, isPresent_target, withTarget]
  split
  next => rfl
  next absent => rw [change, makeDirectory_target (by simpa using absent)]

end Steps

section Writing

variable {d : Disk} {name : String}

/-- A file of this name can be written into the target directory. -/
structure Admits (d : Disk) (name : String) : Prop where
  directory : d.entry? [targetDirectory] = some .directory
  free : [targetDirectory, name] ∉ d.directories
  short : name.utf8ByteSize ≤ Path.longestName
  zeroless : '\x00' ∉ name.toList

theorem enter_target_eq_ok_iff {place : Place} :
    d.enter (.inside [targetDirectory]) name = .ok place ↔
      d.entry? [targetDirectory] = some .directory ∧
      place = Place.next (.inside [targetDirectory]) name := by
  rw [enter, look_target, ok_bind]
  constructor
  · intro entered
    cases found : d.entry? [targetDirectory] with
    | none =>
      rw [found] at entered
      cases entered
    | some entry =>
      rw [found] at entered
      cases entry with
      | directory =>
        cases entered
        exact ⟨rfl, rfl⟩
      | file contents => cases entered
  · rintro ⟨directory, rfl⟩
    rw [directory]
    rfl

theorem resolve_within_eq_ok_iff (plain : '/' ∉ name.toList) (named : name ≠ "") {place : Place} :
    d.resolve (targetDirectory ++ "/" ++ name) = .ok place ↔
      ('\x00' ∉ name.toList ∧ name.utf8ByteSize + 8 ≤ Path.longestPath) ∧
      d.entry? [targetDirectory] = some .directory ∧
      place = Place.next (.inside [targetDirectory]) name := by
  have steps : Path.steps (targetDirectory ++ "/" ++ name) = [targetDirectory, name] :=
    Path.steps_within (by decide) (by decide) plain named
  have size : (targetDirectory ++ "/" ++ name).utf8ByteSize = name.utf8ByteSize + 8 := by
    rw [String.utf8ByteSize_append, Nat.add_comm]
    rfl
  have zero : '\x00' ∈ (targetDirectory ++ "/" ++ name).toList ↔ '\x00' ∈ name.toList := by
    simp [targetDirectory]
  have filled : targetDirectory ++ "/" ++ name ≠ "" := by simp
  have relative : Path.isAbsolute (targetDirectory ++ "/" ++ name) = false := by
    simp [Path.isAbsolute, targetDirectory]
  by_cases readable : '\x00' ∉ name.toList ∧ name.utf8ByteSize + 8 ≤ Path.longestPath
  · rw [resolve_of_relative (mt zero.mp readable.1) filled (size ▸ readable.2) relative, steps,
      List.foldlM_cons, enter_start, ok_bind]
    change (d.enter (.inside [targetDirectory]) name >>= pure) = _ ↔ _
    rw [bind_pure, enter_target_eq_ok_iff, and_iff_right readable]
  · constructor
    · intro resolved
      obtain ⟨zeroless, short⟩ := readable_of_resolve resolved
      exact absurd ⟨mt zero.mpr zeroless, size ▸ short⟩ readable
    · rintro ⟨fine, _⟩
      exact absurd fine readable

theorem writeFile_of_resolve {path : String} {inside : List String} (contents : Array UInt8)
    (resolved : d.resolve path = .ok (.inside inside)) (slashless : Path.endsInSlash path = false) :
    d.writeFile path contents = (d.look (.inside inside) >>= fun found =>
      if found = some .directory then .error .isDirectory else .ok (d.put inside contents)) := by
  rw [writeFile, resolved, ok_bind, slashless]
  cases d.look (.inside inside) with
  | error e => rfl
  | ok found =>
    cases found with
    | none => rfl
    | some entry => cases entry <;> rfl

theorem found_directory_iff {path : List String} (below : path ≠ []) :
    d.entry? path = some .directory ↔ path ∈ d.directories := by
  by_cases listed : path ∈ d.directories
  · simp [listed, entry?]
  · simp [listed, below, entry?]

theorem endsInSlash_within (plain : '/' ∉ name.toList) (named : name ≠ "") :
    Path.endsInSlash (targetDirectory ++ "/" ++ name) = false := by
  rw [Path.endsInSlash, beq_eq_false_iff_ne, String.toList_append, List.getLast?_append]
  intro last
  cases found : name.toList.getLast? with
  | none => exact named (by simpa using found)
  | some c =>
    rw [found, Option.some_or] at last
    cases last
    exact plain (List.mem_of_getLast? found)

theorem next_within (here : name ≠ ".") (up : name ≠ "..") :
    Place.next (.inside [targetDirectory]) name = .inside [targetDirectory, name] := by
  simp [Place.next, here, up]

theorem look_within (d : Disk) (name : String) : d.look (.inside [targetDirectory, name]) =
    if Path.longestName < name.utf8ByteSize then .error .nameTooLong
    else .ok (d.entry? [targetDirectory, name]) := by
  simp [look, Place.name?]

/-- A name in the target directory is written exactly if the directory admits it. -/
theorem writeFile_within_eq_ok_iff (plain : '/' ∉ name.toList) (named : name ≠ "")
    (here : name ≠ ".") (up : name ≠ "..") {contents : Array UInt8} {after : Disk} :
    d.writeFile (targetDirectory ++ "/" ++ name) contents = .ok after ↔
      d.Admits name ∧ after = d.put [targetDirectory, name] contents := by
  have slashless := endsInSlash_within plain named
  constructor
  · intro written
    obtain ⟨place, resolved, _⟩ := bind_eq_ok_iff.mp written
    obtain ⟨⟨zeroless, _⟩, directory, rfl⟩ := (resolve_within_eq_ok_iff plain named).mp resolved
    rw [next_within here up] at resolved
    rw [writeFile_of_resolve contents resolved slashless, look_within] at written
    split at written
    next => cases written
    next short =>
      rw [ok_bind] at written
      split at written
      next => cases written
      next other =>
        cases written
        have free := mt (found_directory_iff (by simp)).mpr other
        exact ⟨⟨directory, free, Nat.not_lt.mp short, zeroless⟩, rfl⟩
  · rintro ⟨⟨directory, free, short, zeroless⟩, rfl⟩
    have resolved : d.resolve (targetDirectory ++ "/" ++ name) =
        .ok (.inside [targetDirectory, name]) :=
      (resolve_within_eq_ok_iff plain named).mpr
        ⟨⟨zeroless, Nat.le_trans (Nat.add_le_add_right short 8) (by decide)⟩, directory,
          (next_within here up).symm⟩
    rw [writeFile_of_resolve contents resolved slashless, look_within, if_neg (Nat.not_lt.mpr short),
      ok_bind, if_neg (mt (found_directory_iff (by simp)).mp free)]

/-- Dots lead to a directory, and directories are not written. -/
theorem writeFile_within_ne_ok (dots : name = "." ∨ name = "..") (contents : Array UInt8) (after : Disk) :
    d.writeFile (targetDirectory ++ "/" ++ name) contents ≠ .ok after := by
  have plain : '/' ∉ name.toList := by rcases dots with rfl | rfl <;> decide
  have named : name ≠ "" := by rcases dots with rfl | rfl <;> decide
  intro written
  obtain ⟨place, resolved, _⟩ := bind_eq_ok_iff.mp written
  obtain ⟨_, directory, rfl⟩ := (resolve_within_eq_ok_iff plain named).mp resolved
  obtain ⟨inside, next, look⟩ : ∃ inside, Place.next (.inside [targetDirectory]) name = .inside inside ∧
      d.look (.inside inside) = .ok (some .directory) := by
    rcases dots with rfl | rfl
    · exact ⟨_, rfl, (look_target d).trans (congrArg Except.ok directory)⟩
    · exact ⟨[], rfl, look_start d⟩
  rw [next] at resolved
  rw [writeFile_of_resolve contents resolved (endsInSlash_within plain named), look, ok_bind,
    if_pos rfl] at written
  cases written

theorem lookup_filter_ne {place path : List String} (other : path ≠ place)
    (files : List (List String × Array UInt8)) :
    (files.filter fun file => file.1 ≠ place).lookup path = files.lookup path := by
  induction files with
  | nil => rfl
  | cons file files ih =>
    obtain ⟨key, contents⟩ := file
    by_cases kept : key = place
    · have passed : (path == key) = false := beq_false_of_ne (kept ▸ other)
      rw [List.filter_cons_of_neg (by simp [kept]), ih, List.lookup_cons, passed]
    · rw [List.filter_cons_of_pos (by simp [kept]), List.lookup_cons, List.lookup_cons, ih]

/-- Writing gives one file new contents, and leaves all others. -/
theorem lookup_put (d : Disk) (place path : List String) (contents : Array UInt8) :
    (d.put place contents).files.lookup path =
      if path = place then some contents else d.files.lookup path := by
  rw [put, List.lookup_cons]
  split
  next same => rw [if_pos (beq_iff_eq.mp same)]
  next other =>
    rw [if_neg (ne_of_beq_false other)]
    exact lookup_filter_ne (ne_of_beq_false other) d.files

end Writing

section Images

variable {d : Disk} {options : Options} {image : Image} {out : String}

/-- What the source of a run is assembled to. -/
def Makes (memory : Memory) (d : Disk) (options : Options) (image : Image) : Prop :=
  ∃ contents, d.readFile options.file = .ok contents ∧
    assembleContents memory options.arch options.file contents = .ok image

/-- An image is made that can be written into the target directory under the name that a stem gives
it. A single dot gives none. -/
structure Receives (memory : Memory) (d : Disk) (options : Options) (inner : String) (image : Image) :
    Prop where
  made : d.Makes memory options image
  proper : inner ≠ "."
  admitted : d.Admits (Command.imageName options.arch inner)

theorem bind_apply {α β : Type} (first : StateM Disk α) (next : α → StateM Disk β) (d : Disk) :
    (first >>= next) d = next (first d).1 (first d).2 := rfl

theorem read_apply (path : String) (d : Disk) :
    (Files.read path : StateM Disk (Except FileError (Array UInt8))) d = (d.readFile path, d) := rfl

theorem write_apply (path : String) (contents : Array UInt8) (d : Disk) :
    (Files.write path contents : StateM Disk (Except FileError Unit)) d =
      change (·.writeFile path contents) d := rfl

theorem run_assembleFile_of_written {after : Disk} (makes : d.Makes memory options image)
    (written : d.writeFile out image.code = .ok after) :
    (assembleFile memory options.arch .raw options.file out : StateM Disk (Except FileFailure Image)) d =
      (.ok image, after) := by
  obtain ⟨contents, read, assembled⟩ := makes
  rw [assembleFile, bind_apply, read_apply, read]
  dsimp only
  rw [assembled]
  dsimp only
  rw [bind_apply, write_apply, change, written]
  rfl

theorem run_assembleFile_of_unwritten
    (unwritten : ∀ image after, d.Makes memory options image → d.writeFile out image.code ≠ .ok after) :
    ∃ failure,
      (assembleFile memory options.arch .raw options.file out : StateM Disk (Except FileFailure Image)) d =
        (.error failure, d) := by
  rw [assembleFile, bind_apply, read_apply]
  cases read : d.readFile options.file with
  | error e => exact ⟨_, rfl⟩
  | ok contents =>
    dsimp only
    cases assembled : assembleContents memory options.arch options.file contents with
    | error failure => exact ⟨_, rfl⟩
    | ok image =>
      dsimp only
      rw [bind_apply, write_apply, change]
      cases written : d.writeFile out image.code with
      | error e => exact ⟨_, rfl⟩
      | ok after => exact absurd written (unwritten image after ⟨contents, read, assembled⟩)

theorem run_assembleTo_of_written {after : Disk} (makes : d.Makes memory options image)
    (written : d.writeFile out image.code = .ok after) (colours : Bool) (stem : String) :
    (Command.assembleTo memory colours options stem out : StateM Disk Outcome) d =
      ({ exit := 0, output := Command.announce colours options stem out image }, after) := by
  rw [Command.assembleTo, bind_apply, run_assembleFile_of_written makes written]
  rfl

theorem run_assembleTo_of_unwritten
    (unwritten : ∀ image after, d.Makes memory options image → d.writeFile out image.code ≠ .ok after)
    (colours : Bool) (stem : String) :
    ∃ failure, (Command.assembleTo memory colours options stem out : StateM Disk Outcome) d =
      (Command.failed failure, d) := by
  obtain ⟨failure, failed⟩ := run_assembleFile_of_unwritten unwritten
  rw [Command.assembleTo, bind_apply, failed]
  exact ⟨.assembly failure, rfl⟩

/-- Without an output file the image goes where the stem says, once the target directory is there. -/
theorem run_execute {arguments : List String} {stem : String}
    (asked : Options.ofArguments? arguments = some (.assemble options)) (unnamed : options.output = none)
    (known : Path.fileStem? options.file = some stem) (colours : Bool) (d : Disk) :
    (Command.execute memory colours arguments : StateM Disk Outcome) d =
      (Command.assembleTo memory colours options stem (Command.defaultOutput options.arch stem) :
        StateM Disk Outcome) d.withTarget := by
  rw [Command.execute, asked]
  dsimp only
  rw [Command.run, known]
  dsimp only
  rw [unnamed]
  dsimp only
  rw [bind_apply, run_makeTarget]

end Images

end Disk

namespace Command

section DefaultOutput

variable {stem inner : String}

theorem not_mem_imageName {arch : Arch} (plain : '/' ∉ inner.toList) :
    '/' ∉ (imageName arch inner).toList := by
  have behind : '/' ∉ '.' :: (arch.name ++ ".bin").toList := by cases arch <;> decide
  rw [toList_imageName, List.mem_append, not_or]
  exact ⟨plain, behind⟩

/-- The name of an image is never one of a directory. -/
theorem imageName_ne {arch : Arch} {short : String} (inner : String) (few : short.toList.length ≤ 2) :
    imageName arch inner ≠ short := by
  rintro rfl
  rw [toList_imageName] at few
  cases arch <;> simp [Arch.name] at few

/-- An image is named by what stands before the last dot of the stem. -/
theorem defaultOutput_of_isStem (arch : Arch) (plain : '/' ∉ stem.toList) (named : stem ≠ "")
    (isStem : Path.IsStem stem.toList inner.toList) (proper : inner ≠ ".") :
    defaultOutput arch stem = targetDirectory ++ "/" ++ imageName arch inner := by
  have joined : inner ++ "." ++ (arch.name ++ ".bin") = imageName arch inner :=
    String.append_assoc.symm
  rw [defaultOutput, Path.withExtension_of_isStem plain named isStem proper, joined]

/-- What is written to the default output of a stem. -/
theorem writeFile_defaultOutput_eq_ok_iff {d after : Disk} {arch : Arch} {contents : Array UInt8}
    (plain : '/' ∉ stem.toList) (named : stem ≠ "") (isInner : Path.IsStem stem.toList inner.toList) :
    d.writeFile (defaultOutput arch stem) contents = .ok after ↔
      (inner ≠ "." ∧ d.Admits (imageName arch inner)) ∧
      after = d.put [targetDirectory, imageName arch inner] contents := by
  by_cases proper : inner = "."
  · subst proper
    have dots := Path.withExtension_of_isStem_dot isInner (arch.name ++ ".bin")
    constructor
    · intro written
      exact absurd written (Disk.writeFile_within_ne_ok dots contents after)
    · rintro ⟨⟨proper, _⟩, _⟩
      exact absurd rfl proper
  · have slashless : '/' ∉ (imageName arch inner).toList :=
      not_mem_imageName fun slash => plain (isInner.subset slash)
    rw [defaultOutput_of_isStem arch plain named isInner proper, and_iff_right proper,
      Disk.writeFile_within_eq_ok_iff slashless (imageName_ne inner (by decide))
        (imageName_ne inner (by decide)) (imageName_ne inner (by decide))]

end DefaultOutput

section Runs

variable {arguments : List String} {options : Options} {stem inner : String} {d : Disk}

theorem execute_of_received (asked : Options.ofArguments? arguments = some (.assemble options))
    (unnamed : options.output = none) (known : Path.fileStem? options.file = some stem)
    (isInner : Path.IsStem stem.toList inner.toList) {image : Image}
    (received : d.withTarget.Receives memory options inner image) (colours : Bool) :
    (execute memory colours arguments : StateM Disk Outcome) d =
      ({ exit := 0, output := announce colours options stem
          (targetDirectory ++ "/" ++ imageName options.arch inner) image },
        d.withTarget.put [targetDirectory, imageName options.arch inner] image.code) := by
  obtain ⟨named, plain⟩ := Path.of_fileStem? known
  obtain ⟨made, proper, admitted⟩ := received
  have written : d.withTarget.writeFile (defaultOutput options.arch stem) image.code =
      .ok (d.withTarget.put [targetDirectory, imageName options.arch inner] image.code) :=
    (writeFile_defaultOutput_eq_ok_iff plain named isInner).mpr ⟨⟨proper, admitted⟩, rfl⟩
  rw [Disk.run_execute asked unnamed known, Disk.run_assembleTo_of_written made written,
    defaultOutput_of_isStem options.arch plain named isInner proper]

theorem execute_of_refused (asked : Options.ofArguments? arguments = some (.assemble options))
    (unnamed : options.output = none) (known : Path.fileStem? options.file = some stem)
    (isInner : Path.IsStem stem.toList inner.toList)
    (refused : ∀ image, ¬d.withTarget.Receives memory options inner image) (colours : Bool) :
    ∃ failure, (execute memory colours arguments : StateM Disk Outcome) d =
      (failed failure, d.withTarget) := by
  obtain ⟨named, plain⟩ := Path.of_fileStem? known
  rw [Disk.run_execute asked unnamed known]
  apply Disk.run_assembleTo_of_unwritten
  intro image after made written
  obtain ⟨⟨proper, admitted⟩, _⟩ :=
    (writeFile_defaultOutput_eq_ok_iff plain named isInner).mp written
  exact refused image ⟨made, proper, admitted⟩

/-- Without an output file, an image is named by the stem of the stem of its source, for what stands
after the last dot of the stem is lost. It is written into the target directory under this name, which
is the whole stem only if the stem has no dot past its first character. If there is no image, or it
cannot be written there, no file changes. Two images go to the same file if they are for the same
machine and the stems of the stems are the same, and only then. -/
theorem image_goes_by_inner_stem {name : String}
    (asked : Options.ofArguments? arguments = some (.assemble options))
    (unnamed : options.output = none) (file : Path.fileName? options.file = some name)
    (isStem : Path.IsStem name.toList stem.toList) :
    ∃ inner : String, Path.IsStem stem.toList inner.toList ∧
      (inner = stem ↔ '.' ∉ stem.toList.tail) ∧
      (∀ (colours : Bool) (d : Disk) (outcome : Outcome) (after : Disk),
        (execute memory colours arguments : StateM Disk Outcome) d = (outcome, after) →
        (∀ image, d.withTarget.Receives memory options inner image →
          outcome.exit = 0 ∧
          outcome.output = announce colours options stem
            (targetDirectory ++ "/" ++ imageName options.arch inner) image ∧
          ∀ path, after.files.lookup path =
            if path = [targetDirectory, imageName options.arch inner] then some image.code
            else d.files.lookup path) ∧
        ((∀ image, ¬d.withTarget.Receives memory options inner image) →
          outcome.exit = 1 ∧ after.files = d.files)) ∧
      ∀ arch other, imageName options.arch inner = imageName arch other ↔
        options.arch = arch ∧ inner = other := by
  have known : Path.fileStem? options.file = some stem :=
    Path.fileStem?_eq_some_iff.mpr ⟨name, file, isStem⟩
  obtain ⟨inner, isInner⟩ := Path.exists_isStem stem
  refine ⟨inner, isInner, by rw [← isInner.eq_iff, String.ext_iff], ?_, fun _ _ => imageName_inj⟩
  intro colours d outcome after ran
  constructor
  · intro image received
    rw [execute_of_received asked unnamed known isInner received] at ran
    cases ran
    refine ⟨rfl, rfl, fun path => ?_⟩
    rw [Disk.lookup_put, Disk.files_withTarget]
  · intro refused
    obtain ⟨failure, failing⟩ := execute_of_refused asked unnamed known isInner refused colours
    rw [failing] at ran
    cases ran
    exact ⟨rfl, d.files_withTarget⟩

/-- Two sources with stems that differ after their last dots, of a `nop` and of a `ret`. -/
def twoSources : Disk where
  files := [(["foo.bar.ir"], #[0x6E, 0x6F, 0x70]), (["foo.baz.ir"], #[0x72, 0x65, 0x74])]

/-- The files that a run without an output file leaves. -/
def filesAfter (file : String) (d : Disk) : Disk :=
  ((execute .ofProcess false [file] : StateM Disk Outcome) d).2

theorem image_goes_by_inner_stem_of_dotted_stem :
    (filesAfter "foo.bar.ir" twoSources).files.lookup ["ctarget", "foo.x86_64.bin"] = some #[0x90] ∧
    (filesAfter "foo.bar.ir" twoSources).files.lookup ["ctarget", "foo.bar.x86_64.bin"] = none := by
  have asked : Options.ofArguments? ["foo.bar.ir"] = some (.assemble { file := "foo.bar.ir" }) := by
    decide
  have isStem : Path.IsStem "foo.bar.ir".toList "foo.bar".toList :=
    .inr ⟨by decide, ['i', 'r'], by decide, by decide⟩
  obtain ⟨inner, isInner, _, runs, _⟩ := image_goes_by_inner_stem asked rfl (by decide) isStem
  obtain rfl : inner = "foo" := String.ext ((Path.isStem_iff.mp isInner).symm.trans (by decide))
  have read : twoSources.withTarget.readFile "foo.bar.ir" = .ok #[0x6E, 0x6F, 0x70] := rfl
  have code : (assembleContents .ofProcess .x64 "foo.bar.ir" #[0x6E, 0x6F, 0x70]).toOption.map Image.code =
      some #[0x90] := by decide +kernel
  cases assembled : assembleContents .ofProcess .x64 "foo.bar.ir" #[0x6E, 0x6F, 0x70] with
  | error failure =>
    rw [assembled] at code
    cases code
  | ok image =>
    rw [assembled] at code
    have received : twoSources.withTarget.Receives .ofProcess { file := "foo.bar.ir" } "foo" image :=
      ⟨⟨_, read, assembled⟩, by decide, by decide, by decide, by decide, by decide⟩
    obtain ⟨_, _, files⟩ :=
      (runs false twoSources _ (filesAfter "foo.bar.ir" twoSources) rfl).1 image received
    rw [files, files, ← code]
    exact ⟨rfl, rfl⟩

/-- The image of one source is lost when the other is assembled, though their stems differ. -/
theorem images_of_two_stems_collide :
    Path.fileStem? "foo.bar.ir" = some "foo.bar" ∧ Path.fileStem? "foo.baz.ir" = some "foo.baz" ∧
    (filesAfter "foo.bar.ir" twoSources).files.lookup ["ctarget", "foo.bar.x86_64.bin"] = none ∧
    (filesAfter "foo.bar.ir" twoSources).files.lookup ["ctarget", "foo.x86_64.bin"] = some #[0x90] ∧
    (filesAfter "foo.baz.ir" (filesAfter "foo.bar.ir" twoSources)).files.lookup
      ["ctarget", "foo.x86_64.bin"] = some #[0xC3] := by
  decide +kernel

end Runs

end Command

end CrossAsm
