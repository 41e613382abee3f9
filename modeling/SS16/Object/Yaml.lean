import SS16.Object.Basic
import SS16.Text.YamlScalar

/-!
# SS16.Object.Yaml — objects as YAML

Block style.  Items of a sequence stand at the depth of their key, entries of a mapping one step
deeper, and an empty collection is written in brackets after its key.  A key of several lines or of
more than 128 bytes is marked as a complex key.
-/

namespace SS16.Yaml

/-- Bytes that a simple key may have. -/
def simpleKeyLimit : Nat := 128

/-- A collection under its key: what stands for it when it is empty, or its lines. -/
def collection (indent key empty : String) (lines : List String) : List String :=
  if lines.isEmpty then [indent ++ key ++ ": " ++ empty] else (indent ++ key ++ ":") :: lines

/-- A sequence under its key, each item given by its fields. -/
def sequence (indent key : String) (items : List (List (String × String))) : List String :=
  collection indent key "[]" <| items.flatMap fun fields =>
    fields.zipIdx.map fun f =>
      indent ++ (if f.2 = 0 then "- " else "  ") ++ f.1.1 ++ ": " ++ f.1.2

def numbers (indent key : String) (ns : List Nat) : List String :=
  collection indent key "[]" <| ns.map fun n => indent ++ "- " ++ toString n

/-- Whether a key can stand before its colon on one line. -/
def isSimpleKey (key : String) : Bool :=
  key.utf8ByteSize ≤ simpleKeyLimit && !key.toList.any YamlScalar.isBreak

/-- A mapping inside a mapping at depth 2, its own entries at depth 4. -/
def entry (key : String) (fields : List (String × String)) : List String :=
  let line (f : String × String) : String := f.1 ++ ": " ++ f.2
  if isSimpleKey key then
    ("  " ++ YamlScalar.render 4 key ++ ":") :: fields.map fun f => "    " ++ line f
  else
    ("  ? " ++ YamlScalar.render 4 key) :: fields.zipIdx.map fun f =>
      (if f.2 = 0 then "  : " else "    ") ++ line f.1

/-- A line with its end.  A scalar of several lines may have brought its own. -/
def closed (line : String) : String :=
  if line.toList.getLast?.any YamlScalar.isBreak then line else line ++ "\n"

end SS16.Yaml

namespace SS16.Object

open Yaml

def extentFields (e : Extent) : List (String × String) :=
  [("kind", e.kind.name), ("address", toString e.address.toNat),
   ("length", toString e.length.toNat)]

def symbolFields (s : Symbol) : List (String × String) :=
  [("name", YamlScalar.render 6 s.name), ("section", (s.home.map Section.name).getD "null"),
   ("offset", toString s.offset.toNat), ("binding", s.binding.name),
   ("number", toString s.number.toNat)]

def relocationFields (r : Relocation) : List (String × String) :=
  [("offset", toString r.offset.toNat), ("kind", r.kind.name),
   ("symbol", toString r.entry.toNat)]

def yamlLines (o : Object) : List String :=
  sequence "" "sections" (o.sections.map extentFields) ++
    collection "" "symbols" "\x7b\x7d"
      (o.symbols.toList.flatMap fun s => entry s.name (symbolFields s)) ++
    collection "" "relocs" "\x7b\x7d"
      (o.relocations.toList.flatMap fun g => sequence "  " g.1.name (g.2.map relocationFields)) ++
    collection "" "code" "\x7b\x7d"
      (o.code.toList.flatMap fun g => numbers "  " g.1.name (g.2.map UInt8.toNat))

def toYaml (o : Object) : String := String.join (o.yamlLines.map closed)

end SS16.Object
