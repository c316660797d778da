/-!
The architectures of the synthesis: the machines that programs are assembled for.
-/
namespace CrossAsm

inductive Arch where
  | mcs51 | x64
  deriving DecidableEq, Repr

namespace Arch

def name : Arch → String
  | mcs51 => "8051"
  | x64 => "x86_64"

/-- The name used within a sentence. -/
def prose : Arch → String
  | mcs51 => "the 8051"
  | x64 => "x86-64"

/-- All names of a machine, in lower case. -/
def names : Arch → List String
  | mcs51 => ["8051", "mcs51", "mcs-51"]
  | x64 => ["x86_64", "x64", "x86-64", "amd64"]

def all : List Arch := [mcs51, x64]

/-- The machine of a given name, ASCII letters of either case being the same. -/
def ofName? (name : String) : Option Arch :=
  let lower := name.toList.map Char.toLower
  all.find? fun arch => arch.names.any fun known => known.toList == lower

end Arch

end CrossAsm
