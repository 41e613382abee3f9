import SS16.Assembly.Output
import SS16.Machine.Instruction
import SS16.Object.Dump
import SS16.Text.Hex
import SS16.Text.Lines
import SS16.Text.Words

/-!
# SS16.Assembly.Listing — the source with what was laid down beside it

Every row of the source is printed under its number from one.  A row with a listing entry shows the
entry's offset, its first four bytes and, in `.text`, the instruction that its bytes hold.
-/

namespace SS16.Listing

def shownBytes : Nat := 4

/-- Width of everything left of the row number. -/
def margin : Nat := 19

def head (path : String) : String :=
  Column.fill margin '-' ++ "+------[" ++ path ++ "]" ++
    Column.fill (45 - path.utf8ByteSize) '-'

def rule : String := Column.fill margin '-' ++ "+" ++ Column.fill 53 '-'

def instruction? (e : Entry) : Option Instruction :=
  match e.kind, e.bytes with
  | .text, high :: low :: _ => some (.ofWord (Instruction.wordOf high low))
  | _, _ => none

def decoded (e : Entry) : String :=
  match instruction? e with
  | some i => "    ; " ++ i.render
  | none => ""

def laidDown (e : Entry) : String :=
  "[" ++ Style.green ++ Hex.word e.offset ++ Style.plain ++ "] " ++
    Column.left 11 (Hex.dump (e.bytes.take shownBytes)) ++
    (if shownBytes < e.bytes.length then "+" else " ")

def line (row : Nat) (raw : String) (entry : Option Entry) : String :=
  let numbered := "| " ++ Column.right 4 (toString (row + 1)) ++ ": " ++ raw
  match entry with
  | some e => laidDown e ++ numbered ++ decoded e
  | none => Column.fill margin ' ' ++ numbered

/-- Takes the first entry off a list if it belongs to a row. -/
def takeEntry (row : Nat) : List Entry → Option Entry × List Entry
  | [] => (none, [])
  | e :: es => if e.row = row then (some e, es) else (none, e :: es)

def printRow (state : List Entry × Array String) (raw : String × Nat) : List Entry × Array String :=
  let (entry, rest) := takeEntry raw.2 state.1
  (rest, state.2.push (line raw.2 raw.1 entry))

def body (source : String) (entries : List Entry) : List String :=
  ((Text.rows source).zipIdx.foldl printRow (entries, #[])).2.toList

/-- The source with its entries beside it. -/
def render (path source : String) (entries : List Entry) : String :=
  Text.unlines (head path :: body source entries)

def print (path source : String) (entries : List Entry) (symbols : SymbolTable) : String :=
  render path source entries ++ Text.unlines (rule :: symbols.dumpRows)

end SS16.Listing
