import SS16.Object.BySection
import SS16.Object.Relocation

/-!
# SS16.Assembly.Output — what the second sweep lays down

Relocations and bytes by section, and a listing with one entry for each line that laid something
down.  All three only grow.
-/

namespace SS16

/-- What one line laid down.  In `.bss` it has an offset but no bytes. -/
structure Entry where
  row : Nat
  kind : Section
  offset : UInt16
  bytes : List UInt8
  deriving DecidableEq

structure Output where
  relocations : BySection Relocation
  code : BySection UInt8
  listing : Array Entry
  deriving DecidableEq

namespace Output

def empty : Output := ⟨.empty, .empty, #[]⟩

/-- Nothing is laid down in the sections with contents, which are listed from the start. -/
def fresh : Output :=
  { empty with code := .ofSections (Section.all.filter Section.hasContents) (by decide) }

/-- Adds relocations to a section.  It comes up with its first one. -/
def relocate (out : Output) (k : Section) (rs : List Relocation) : Output :=
  if rs.isEmpty then out else { out with relocations := out.relocations.append k rs }

/-- Adds a listing entry and its bytes.  A section with contents comes up even if there are none. -/
def enter (out : Output) (e : Entry) : Output where
  relocations := out.relocations
  code := if e.kind.hasContents then out.code.append e.kind e.bytes else out.code
  listing := out.listing.push e

end Output

end SS16
