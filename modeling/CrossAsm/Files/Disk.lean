import CrossAsm.Files.Access
import CrossAsm.Files.Path

/-!
Files kept in memory: the contents of a working directory as a value. Paths that lead out of the
directory find nothing there to read, and what is written there is not kept.
-/
namespace CrossAsm

structure Disk where
  /-- The directories, by their components; the working directory itself is not listed. -/
  directories : List (List String) := []
  files : List (List String × Array UInt8) := []
  deriving DecidableEq, Repr

namespace Disk

inductive Entry where
  | directory
  | file (contents : Array UInt8)
  deriving DecidableEq, Repr

def entry? (d : Disk) (path : List String) : Option Entry :=
  if path = [] ∨ path ∈ d.directories then some .directory
  else (d.files.lookup path).map .file

/-- Where a path leads. -/
inductive Place where
  | inside (path : List String)
  /-- A directory around the working directory. -/
  | around
  /-- An entry of such a directory. -/
  | beyond (name : String)
  deriving DecidableEq, Repr

namespace Place

/-- Where one step leads from a directory. -/
def next (place : Place) (step : String) : Place :=
  if step = "." then place
  else
    match place with
    | .around => if step = ".." then .around else .beyond step
    | .beyond _ => .beyond step
    | .inside path =>
      if step ≠ ".." then .inside (path ++ [step])
      else if path = [] then .around
      else .inside path.dropLast

/-- The name by which a place is looked up. -/
def name? : Place → Option String
  | .inside path => path.getLast?
  | .around => none
  | .beyond name => some name

end Place

/-- Looks up what there is at a place. -/
def look (d : Disk) (place : Place) : Except FileError (Option Entry) :=
  if place.name?.any (Path.longestName < ·.utf8ByteSize) then .error .nameTooLong
  else
    match place with
    | .inside path => .ok (d.entry? path)
    | .around => .ok (some .directory)
    | .beyond _ => .ok none

/-- Goes one step on from a place, which must be a directory. -/
def enter (d : Disk) (place : Place) (step : String) : Except FileError Place := do
  match ← d.look place with
  | none => throw .notFound
  | some (.file _) => throw .notDirectory
  | some .directory => return place.next step

/-- Follows a path up to the place that its last step leads to, whatever is there. -/
def resolve (d : Disk) (path : String) : Except FileError Place :=
  if path.toList.contains '\x00' then .error .zeroInPath
  else if path = "" then .error .notFound
  else if Path.longestPath < path.utf8ByteSize then .error .nameTooLong
  else (Path.steps path).foldlM (enter d) (if Path.isAbsolute path then .around else .inside [])

def readFile (d : Disk) (path : String) : Except FileError (Array UInt8) := do
  match ← d.look (← d.resolve path) with
  | none => throw .notFound
  | some .directory => throw .isDirectory
  | some (.file contents) => if Path.endsInSlash path then throw .notDirectory else return contents

/-- Gives a file new contents. -/
def put (d : Disk) (path : List String) (contents : Array UInt8) : Disk :=
  { d with files := (path, contents) :: d.files.filter fun file => file.1 ≠ path }

/-- Writes a file. That a path names a directory shows at its last slash, before anything is looked
up there. -/
def writeFile (d : Disk) (path : String) (contents : Array UInt8) : Except FileError Disk := do
  let place ← d.resolve path
  if Path.endsInSlash path then throw .isDirectory
  match ← d.look place, place with
  | some .directory, _ => throw .isDirectory
  | _, .inside p => return d.put p contents
  | _, _ => return d

/-- Whether there is a file or a directory. -/
def isPresent (d : Disk) (path : String) : Bool :=
  match d.readFile path with
  | .ok _ | .error .isDirectory => true
  | .error _ => false

def makeDirectory (d : Disk) (path : String) : Except FileError Disk := do
  let place ← d.resolve path
  match ← d.look place, place with
  | some _, _ => throw .alreadyExists
  | none, .inside p => return { d with directories := p :: d.directories }
  | none, _ => return d

/-- Keeps the files after a change, or those before it if it fails. -/
def change (act : Disk → Except FileError Disk) : StateM Disk (Except FileError Unit) := fun d =>
  match act d with
  | .ok after => (.ok (), after)
  | .error e => (.error e, d)

instance : Files (StateM Disk) where
  read path := fun d => (d.readFile path, d)
  write path contents := change (·.writeFile path contents)
  present path := fun d => (d.isPresent path, d)
  createDirectory path := change (·.makeDirectory path)

end Disk

end CrossAsm
