import SS16.Source.Statement

/-!
# SS16.Source.Program — the lines of a source that count

Reading stops after the first `.end` line, or before the first row that is no line.  Both sweeps
over a source go through its program, so what comes later cannot matter to either.  Main statement:
`Program.ofRows_cons` (how reading goes on from row to row).
-/

namespace SS16

/-- Lines up to the end of a source, and the row and fault that cut them short, if any. -/
structure Program where
  lines : List Line
  fault : Option (Nat × Fault)
  deriving DecidableEq

namespace Program

def empty : Program := ⟨[], none⟩

def prepend (raw : String) (row : Nat) (rest : Program) : Program :=
  match Line.parse row raw with
  | .error f => ⟨[], some (row, f)⟩
  | .ok line =>
    if line.statement = some .stop then ⟨[line], none⟩ else ⟨line :: rest.lines, rest.fault⟩

/-- The program of rows counted from a given number. -/
def ofRows (rows : List String) (first : Nat) : Program :=
  (rows.zipIdx first).foldr (fun r rest => prepend r.1 r.2 rest) empty

def ofSource (source : String) : Program :=
  ofRows (Text.rows source) 0

@[simp] theorem ofRows_cons (raw : String) (rows : List String) (first : Nat) :
    ofRows (raw :: rows) first = prepend raw first (ofRows rows (first + 1)) := rfl

end Program

end SS16
