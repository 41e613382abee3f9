import SS16.Text.Blank

/-!
# SS16.Text.Words — rows of a text and words of a row

A text is cut into rows at line feeds, and the code of a row into words at white space and commas.
A semicolon starts a comment.
-/

namespace SS16.Text

/-- A row that ended in a line feed, less the carriage return right before it. -/
def dropReturn (row : List Char) : List Char :=
  if row.getLast? = some '\r' then row.dropLast else row

/-- The rows between line feeds.  The last piece is a row only if it holds something, and it keeps
a carriage return at its end. -/
def rowsOf (cs : List Char) : List (List Char) :=
  let pieces := cs.splitOnP (· == '\n')
  pieces.dropLast.map dropReturn ++ (pieces.getLast?.filter (!·.isEmpty)).toList

def rows (text : String) : List String :=
  (rowsOf text.toList).map String.ofList

def isSeparator (c : Char) : Bool :=
  Blank.isBlank c || c == ','

def wordsOf (cs : List Char) : List (List Char) :=
  (cs.splitOnP isSeparator).filter (!·.isEmpty)

def words (text : String) : List String :=
  (wordsOf text.toList).map String.ofList

/-- The part of a row before its comment. -/
def code (row : List Char) : List Char :=
  row.takeWhile (· != ';')

/-- The words of a row, comment left out. -/
def codeWords (row : String) : List String :=
  (wordsOf (code row.toList)).map String.ofList

end SS16.Text
