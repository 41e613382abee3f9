import SS16.Object.SymbolTable
import SS16.Text.Column
import SS16.Text.Hex

/-!
# SS16.Object.Dump — the symbol table as text

One row per entry under a row of headings, in five columns.
-/

namespace SS16

def Symbol.homeName (s : Symbol) : String :=
  (s.home.map Section.name).getD "UND"

namespace SymbolTable

def dumpRow (number name home offset binding : String) : String :=
  Column.right 4 number ++ " " ++ Column.left 16 name ++ " " ++ Column.left 8 home ++ " " ++
    Column.right 6 offset ++ " " ++ binding

def dumpHead : String := dumpRow "num" "name" "section" "offset" "binding"

def dumpEntry (s : Symbol) : String :=
  dumpRow (toString s.number.toNat) s.name s.homeName (Hex.word s.offset) s.binding.name

def dumpRows (t : SymbolTable) : List String :=
  dumpHead :: t.toList.map dumpEntry

end SymbolTable

end SS16
