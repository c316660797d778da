import CrossAsm.Arch

/-!
The command line. Arguments are read from left to right, and the first that is wrong decides. Options
come in any order around the one file; each is given at most once, `-v` apart.
-/
namespace CrossAsm

structure Options where
  file : String
  arch : Arch := .x64
  output : Option String := none
  hex : Bool := false
  symbols : Bool := false
  verbosity : Nat := 0
  deriving DecidableEq, Repr

/-- What the command line asks for. -/
inductive Request where
  | assemble (options : Options)
  | version
  | help
  deriving DecidableEq, Repr

namespace Options

/-- The options given so far. -/
structure Given where
  file : Option String := none
  arch : Option Arch := none
  output : Option String := none
  hex : Bool := false
  symbols : Bool := false
  verbosity : Nat := 0
  deriving DecidableEq, Repr

/-- Options that take a value. -/
inductive Valued where
  | arch | output
  deriving DecidableEq, Repr

/-- Options that take none. -/
inductive Flag where
  | hex | symbols | verbose | version | help
  deriving DecidableEq, Repr

def longName? : List Char → Option (Valued ⊕ Flag)
  | ['a', 'r', 'c', 'h'] => some (.inl .arch)
  | ['o', 'u', 't', 'p', 'u', 't'] => some (.inl .output)
  | ['h', 'e', 'x'] => some (.inr .hex)
  | ['s', 'y', 'm', 'b', 'o', 'l', 's'] => some (.inr .symbols)
  | ['v', 'e', 'r', 'b', 'o', 's', 'e'] => some (.inr .verbose)
  | ['v', 'e', 'r', 's', 'i', 'o', 'n'] => some (.inr .version)
  | ['h', 'e', 'l', 'p'] => some (.inr .help)
  | _ => none

def shortName? : Char → Option (Valued ⊕ Flag)
  | 'a' => some (.inl .arch)
  | 'o' => some (.inl .output)
  | 'v' => some (.inr .verbose)
  | 'V' => some (.inr .version)
  | 'h' => some (.inr .help)
  | _ => none

/-- What reading an argument comes to. -/
inductive Progress where
  | given (g : Given)
  /-- The next argument is the value of an option. -/
  | awaiting (option : Valued) (g : Given)
  /-- Nothing after this argument counts. -/
  | settled (request : Request)
  | wrong
  deriving DecidableEq, Repr

def setValue (option : Valued) (value : String) (g : Given) : Progress :=
  match option with
  | .arch =>
    match g.arch, Arch.ofName? value with
    | none, some arch => .given { g with arch := some arch }
    | _, _ => .wrong
  | .output =>
    if g.output.isSome ∨ value = "" then .wrong else .given { g with output := some value }

def setFlag (flag : Flag) (g : Given) : Progress :=
  match flag with
  | .hex => if g.hex then .wrong else .given { g with hex := true }
  | .symbols => if g.symbols then .wrong else .given { g with symbols := true }
  | .verbose => .given { g with verbosity := g.verbosity + 1 }
  | .version => .settled .version
  | .help => .settled .help

def setFile (file : String) (g : Given) : Progress :=
  if g.file.isSome ∨ file = "" then .wrong else .given { g with file := some file }

/-- An option with two dashes, whose value may follow an equals sign. -/
def long (body : List Char) (g : Given) : Progress :=
  let name := body.takeWhile (· ≠ '=')
  match longName? name, body.drop name.length with
  | some (.inl option), [] => .awaiting option g
  | some (.inl option), _ :: value => setValue option (String.ofList value) g
  | some (.inr flag), [] => setFlag flag g
  | _, _ => .wrong

/-- Options of one letter each after a single dash. The value of the last one may follow at once. -/
def short (g : Given) : List Char → Progress
  | [] => .given g
  | c :: rest =>
    match shortName? c with
    | none => .wrong
    | some (.inl option) =>
      match rest with
      | [] => .awaiting option g
      | '=' :: value => setValue option (String.ofList value) g
      | value => setValue option (String.ofList value) g
    | some (.inr flag) =>
      match setFlag flag g with
      | .given g => short g rest
      | other => other

/-- Whether an argument is an option; a single dash is not. -/
def isOption (argument : String) : Bool :=
  match argument.toList with
  | '-' :: _ :: _ => true
  | _ => false

def argument (text : String) (g : Given) : Progress :=
  match text.toList with
  | '-' :: '-' :: body => long body g
  | '-' :: c :: rest => short g (c :: rest)
  | _ => setFile text g

/-- All arguments are read. -/
def finish (g : Given) : Option Request :=
  g.file.map fun file =>
    .assemble ⟨file, g.arch.getD .x64, g.output, g.hex, g.symbols, g.verbosity⟩

/-- After two dashes there are no more options. -/
def filesOnly (g : Given) : List String → Option Request
  | [] => finish g
  | file :: rest =>
    match setFile file g with
    | .given g => filesOnly g rest
    | _ => none

/-- Reads arguments; `wanting` is an option whose value is the next one. -/
def read (wanting : Option Valued) (g : Given) : List String → Option Request
  | [] => if wanting.isSome then none else finish g
  | text :: rest =>
    match wanting with
    | some option =>
      if isOption text then none
      else match setValue option text g with
      | .given g => read none g rest
      | _ => none
    | none =>
      if text = "--" then filesOnly g rest
      else match argument text g with
      | .given g => read none g rest
      | .awaiting option g => read (some option) g rest
      | .settled request => some request
      | .wrong => none

/-- The request of a command line, if it is one. -/
def ofArguments? (arguments : List String) : Option Request := read none {} arguments

end Options

end CrossAsm
