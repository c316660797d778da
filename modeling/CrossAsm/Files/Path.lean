/-!
Paths of files: names divided by slashes. Empty parts and single dots do not count. A file name that
starts with its only dot has no extension.
-/
namespace CrossAsm.Path

/-- Divides at each `sep`; there is always a part, if only an empty one. -/
def splitAt (sep : Char) : List Char → List (List Char)
  | [] => [[]]
  | c :: cs =>
    match splitAt sep cs with
    | [] => []
    | part :: parts => if c = sep then [] :: part :: parts else (c :: part) :: parts

/-- All parts between slashes. -/
def parts (path : String) : List String := (splitAt '/' path.toList).map String.ofList

/-- The parts that lead on from one directory to another. -/
def steps (path : String) : List String := (parts path).filter (· ≠ "")

/-- The steps that do not stay where they are. -/
def components (path : String) : List String := (steps path).filter (· ≠ ".")

def isAbsolute (path : String) : Bool := path.toList.head? == some '/'

/-- What ends in a slash can only be a directory. -/
def endsInSlash (path : String) : Bool := path.toList.getLast? == some '/'

/-- The most bytes that a name has. -/
def longestName : Nat := 255

/-- The most bytes that a path has. -/
def longestPath : Nat := 4095

/-- The last component, unless it leads upwards. -/
def fileName? (path : String) : Option String :=
  match (components path).getLast? with
  | none => none
  | some name => if name = ".." then none else some name

/-- A file name up to its last dot, and what follows the dot. A name whose last dot is its first
character has no extension, and neither has a name without a dot. -/
def divide (name : List Char) : List Char × Option (List Char) :=
  match name.reverse.dropWhile (· ≠ '.') with
  | [] | [_] => (name, none)
  | _ :: before => (before.reverse, some (name.drop (before.length + 1)))

def fileStem? (path : String) : Option String :=
  (fileName? path).map fun name => String.ofList (divide name.toList).1

/-- A file name without its extension, whose dot stays. -/
def withoutExtension (name : String) : String :=
  match divide name.toList with
  | (_, none) => name
  | (stem, some _) => String.ofList (stem ++ ['.'])

/-- Replaces the extension of a file name, or adds one. If the name without its extension leads
upwards, as that of `..a` does, it names no file any more and gets none. -/
def withExtension (name extension : String) : String :=
  let kept := withoutExtension name
  match fileStem? kept with
  | none => kept
  | some stem => stem ++ "." ++ extension

end CrossAsm.Path
