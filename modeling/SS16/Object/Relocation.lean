/-!
# SS16.Object.Relocation — what the linker has left to do

A relocation asks the linker to add the address of a symbol table entry to the word at an offset.
-/

namespace SS16

/-- What is added to a word: an address, or its distance from the word. -/
inductive RelocationKind
  | absolute | relative
  deriving DecidableEq

def RelocationKind.name : RelocationKind → String
  | .absolute => "R_16"
  | .relative => "R_PC16"

/-- The word at `offset` waits for the address of entry number `entry`. -/
structure Relocation where
  offset : UInt16
  kind : RelocationKind
  entry : UInt16
  deriving DecidableEq

/-- Whether a relocation counts from the word it is for. -/
def Relocation.isRelative (r : Relocation) : Bool := r.kind = .relative

end SS16
