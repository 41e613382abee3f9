import SS16.Object.BySection
import SS16.Object.Relocation
import SS16.Object.SymbolTable

/-!
# SS16.Object.Basic — relocatable objects

What the assembler makes of a source: sections with their lengths, the symbol table, and relocations
and bytes by section.
-/

namespace SS16

structure Object where
  sections : List Extent
  symbols : SymbolTable
  relocations : BySection Relocation
  code : BySection UInt8
  deriving DecidableEq

def Object.contents (o : Object) (k : Section) : List UInt8 := o.code.get k

end SS16
