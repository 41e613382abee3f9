/-!
# SS16.Text.Column — fixed-width columns

A text shorter than its column is filled with blanks; a longer one is kept whole.  Widths count
characters.
-/

namespace SS16.Column

def fill (n : Nat) (c : Char) : String :=
  String.ofList (List.replicate n c)

def left (width : Nat) (s : String) : String :=
  s ++ fill (width - s.length) ' '

def right (width : Nat) (s : String) : String :=
  fill (width - s.length) ' ' ++ s

end SS16.Column
