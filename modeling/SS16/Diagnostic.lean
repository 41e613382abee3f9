import SS16.Fault
import SS16.Text.Column
import SS16.Text.Lines
import SS16.Text.Style
import SS16.Text.Words

/-!
# SS16.Diagnostic — a fault as it is shown to the user

The wording of the fault, the place it was found in and the row itself between two bars.
-/

namespace SS16.Diagnostic

/-- A heading for something that went wrong. -/
def alarm (what : String) : String :=
  Style.red ++ Style.bold ++ what ++ Style.plain ++ Style.light ++ ": "

def bar : String := "      " ++ Style.blue ++ "|" ++ Style.plain

def arrow (place : String) : String :=
  "     " ++ Style.blue ++ "-->" ++ Style.plain ++ " " ++ Style.underline ++ place ++ Style.level

/-- A row between bars, under its number from one. -/
def excerpt (number : Nat) (raw : String) : List String :=
  [bar,
   " " ++ Style.blue ++ Column.right 4 (toString number) ++ " |" ++ Style.plain ++ " " ++ raw,
   bar]

def lines (file source : String) (l : Located) : List String :=
  (alarm "error" ++ l.fault.message) ::
    match l.row with
    | none => [arrow file]
    | some row =>
      arrow (file ++ ":" ++ toString (row + 1)) ::
        excerpt (row + 1) ((Text.rows source)[row]?.getD "")

/-- A diagnostic for a fault in a source. -/
def render (file source : String) (l : Located) : String :=
  Text.unlines (lines file source l)

end SS16.Diagnostic
