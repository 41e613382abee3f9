import SS16.Text.Hex
import SS16.Text.YamlNumber

/-!
# SS16.Text.YamlScalar — text as a YAML scalar

A text is written plain if it is then read back as the same text.  One that would be read as null,
a truth value or a number, or that holds an indicator where it counts, is put in single quotes.  One
of several lines is written as a literal block.  One with a character that neither form can show is
put in double quotes, with escapes.
-/

namespace SS16.YamlScalar

/-! ### Characters -/

def isBreak (c : Char) : Bool :=
  [0x0A, 0x0D, 0x85, 0x2028, 0x2029].contains c.toNat

def isPrintable (c : Char) : Bool :=
  let n := c.toNat
  n = 0x0A || (0x20 ≤ n && n ≤ 0x7E) || (0xA0 ≤ n && n ≤ 0xFFFD && n != 0xFEFF) || 0x10000 ≤ n

/-- Characters that mean something else at the start of a scalar. -/
def indicators : List Char := "#,[]\x7b\x7d&*!|>'\"%@`".toList

/-! ### Texts that cannot be written plain -/

/-- Plain words for null, truth values, infinities and no number. -/
def reserved : List String :=
  ["", "~", "null", "Null", "NULL", "true", "True", "TRUE", "false", "False", "FALSE",
   ".inf", ".Inf", ".INF", "+.inf", "+.Inf", "+.INF", "-.inf", "-.Inf", "-.INF",
   ".nan", ".NaN", ".NAN"]

/-- Whether a scalar may not start like this. -/
def opensOther : List Char → Bool
  | '-' :: '-' :: '-' :: _ | '.' :: '.' :: '.' :: _ => true
  | [c] => indicators.contains c || c = '?' || c = '-'
  | c :: d :: _ => indicators.contains c || ((c = '?' || c = '-') && d = ' ')
  | [] => false

/-- Whether a colon ends a key, or a hash after a blank starts a comment. -/
def breaksOff : List Char → Bool
  | [] => false
  | [c] => c = ':'
  | c :: d :: cs => (c = ':' && d = ' ') || (c = ' ' && d = '#') || breaksOff (d :: cs)

/-- Whether the characters can be written without quotes. -/
def isPlain (cs : List Char) : Bool :=
  cs.head? != some ' ' && cs.getLast? != some ' ' && !opensOther cs && !breaksOff cs &&
    !cs.any isBreak

/-! ### Texts that only double quotes can hold -/

/-- Whether two neighbours satisfy the two conditions. -/
def hasNeighbours (p q : Char → Bool) (cs : List Char) : Bool :=
  (cs.zip cs.tail).any fun c => p c.1 && q c.2

/-- Whether a literal block can show the characters: no line ends in a blank, and there is no tab. -/
def fitsBlock (cs : List Char) : Bool :=
  cs.all isPrintable && cs.getLast? != some ' ' && !hasNeighbours (· = ' ') isBreak cs

/-- Whether single quotes can hold the characters: no blank stands beside the end of a line. -/
def fitsQuotes (cs : List Char) : Bool :=
  cs.all isPrintable && !hasNeighbours (· = ' ') isBreak cs && !hasNeighbours isBreak (· = ' ') cs

/-! ### Forms -/

/-- The four ways to write a scalar. -/
inductive Form where
  | plain
  | single
  | double
  | block
deriving DecidableEq, Repr

def Form.ofString (s : String) : Form :=
  let cs := s.toList
  if cs.contains '\n' then if fitsBlock cs then .block else .double
  else if !fitsQuotes cs then .double
  else if s ∈ reserved || YamlNumber.isNumber cs || !isPlain cs then .single
  else .plain

def quoteSingle (c : Char) : List Char :=
  if c = '\'' then ['\'', '\''] else [c]

/-- Letters that stand for single characters after a backslash. -/
def escapes : List (Nat × Char) :=
  [(0x00, '0'), (0x07, 'a'), (0x08, 'b'), (0x09, 't'), (0x0A, 'n'), (0x0B, 'v'), (0x0C, 'f'),
   (0x0D, 'r'), (0x1B, 'e'), (0x22, '"'), (0x5C, '\\'), (0x85, 'N'), (0x2028, 'L'), (0x2029, 'P')]

/-- A character inside double quotes.  Characters beyond four hexadecimal digits can be printed. -/
def quoteDouble (c : Char) : List Char :=
  match escapes.lookup c.toNat with
  | some e => ['\\', e]
  | none =>
    if isPrintable c then [c]
    else if c.toNat ≤ 0xFF then '\\' :: 'x' :: Hex.digits 2 c.toNat
    else '\\' :: 'u' :: Hex.digits 4 c.toNat

/-- Characters with blanks in front of each line that is not empty.  The flag tells whether a line
starts here. -/
def indented (depth : Nat) : Bool → List Char → List Char
  | _, [] => []
  | start, c :: cs =>
    if isBreak c then c :: indented depth true cs
    else if start then List.replicate depth ' ' ++ c :: indented depth false cs
    else c :: indented depth false cs

/-- Marks after the bar of a block: a digit for its depth if its first line starts with a blank or
is empty, `-` if its last line has no end, `+` if empty lines end it. -/
def blockMarks (cs : List Char) : List Char :=
  let depth := if cs.head?.any fun c => c = ' ' || isBreak c then ['2'] else []
  let ending :=
    match cs.reverse with
    | [] => ['-']
    | [c] => if isBreak c then ['+'] else ['-']
    | c :: d :: _ => if !isBreak c then ['-'] else if isBreak d then ['+'] else []
  depth ++ ending

/-- A text as a scalar.  Lines of a text of several lines stand at the given depth. -/
def render (depth : Nat) (s : String) : String :=
  let cs := s.toList
  match Form.ofString s with
  | .plain => s
  | .single => String.ofList ('\'' :: indented depth false (cs.flatMap quoteSingle ++ ['\'']))
  | .double => String.ofList ('"' :: cs.flatMap quoteDouble ++ ['"'])
  | .block => String.ofList ('|' :: blockMarks cs ++ '\n' :: indented depth true cs)

end SS16.YamlScalar
