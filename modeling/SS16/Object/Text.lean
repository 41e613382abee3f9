import SS16.Object.Basic
import SS16.Object.Dump
import SS16.Text.Lines

/-!
# SS16.Object.Text — the text format of objects

Three kinds of block, each under a heading that starts with `#`: the symbol table, the relocations
of a section, the bytes of a section.  A block with no rows is left out, except the symbol table.
-/

namespace SS16.Object

def relocationRow (offset kind entry : String) : String :=
  Column.left 6 offset ++ " " ++ Column.left 6 kind ++ " " ++ entry

def relocationLine (r : Relocation) : String :=
  relocationRow (Hex.word r.offset) r.kind.name (toString r.entry.toNat)

def relocationBlock (k : Section) (rs : List Relocation) : List String :=
  if rs.isEmpty then []
  else ("#.rel" ++ k.name) :: relocationRow "offset" "type" "entry" :: rs.map relocationLine

def rowWidth : Nat := 16

/-- Bytes cut into rows, up to a number of rows. -/
def byteRows : Nat → List UInt8 → List (List UInt8)
  | 0, _ => []
  | count + 1, bs => bs.take rowWidth :: byteRows count (bs.drop rowWidth)

def codeBlock (k : Section) (bs : List UInt8) : List String :=
  if bs.isEmpty then []
  else ("#" ++ k.name) :: (byteRows ((bs.length + rowWidth - 1) / rowWidth) bs).map Hex.dump

def textLines (o : Object) : List String :=
  "#.symbols" :: o.symbols.dumpRows ++
    o.relocations.toList.flatMap (fun g => relocationBlock g.1 g.2) ++
    o.code.toList.flatMap (fun g => codeBlock g.1 g.2)

def toText (o : Object) : String := Text.unlines o.textLines

end SS16.Object
