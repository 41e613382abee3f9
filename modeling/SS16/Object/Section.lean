/-!
# SS16.Object.Section — the four sections of an object

A section is named by a directive of the same spelling and has a fixed number among the symbol
table's entries.  `.bss` reserves space without contents.
-/

namespace SS16

inductive Section
  | text | data | rodata | bss
  deriving DecidableEq

namespace Section

def all : List Section := [text, data, rodata, bss]

/-- The directive that opens a section, which is also the name of its entry. -/
def name : Section → String
  | text => ".text"
  | data => ".data"
  | rodata => ".rodata"
  | bss => ".bss"

def parse? (s : String) : Option Section :=
  all.find? fun k => k.name == s

def number : Section → UInt16
  | text => 1
  | data => 2
  | rodata => 3
  | bss => 4

def hasContents : Section → Bool
  | bss => false
  | text | data | rodata => true

theorem parse?_name (k : Section) : parse? k.name = some k := by
  cases k <;> decide

theorem name_inj {k l : Section} : k.name = l.name ↔ k = l := by
  cases k <;> cases l <;> decide

theorem number_inj {k l : Section} : k.number = l.number ↔ k = l := by
  cases k <;> cases l <;> decide

end Section

/-- A finished section: where it is loaded and how many bytes it takes. -/
structure Extent where
  kind : Section
  address : UInt16
  length : UInt16
  deriving DecidableEq

/-- A section of a given length.  Its load address stays 0 until it is linked. -/
def Extent.unplaced (kind : Section) (length : UInt16) : Extent := ⟨kind, 0, length⟩

end SS16
