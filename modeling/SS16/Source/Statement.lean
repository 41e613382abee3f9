import SS16.Fault
import SS16.Text.Identifier
import SS16.Text.Numeral
import SS16.Text.Words

/-!
# SS16.Source.Statement — rows as labels and statements

A row is a run of labels, then at most one statement: a word that selects it and its arguments.
`Keyword.parse?` tells the selecting words apart and `Line.parse` reads a whole row.  Main
statement: `Keyword.parse?_text` (a keyword is read back from its spelling).
-/

namespace SS16

inductive Width
  | char | word | long
  deriving DecidableEq

namespace Width

def all : List Width := [char, word, long]

def name : Width → String
  | char => ".char"
  | word => ".word"
  | long => ".long"

def size : Width → Nat
  | char => 1
  | word => 2
  | long => 4

def parse? (s : String) : Option Width :=
  all.find? fun w => w.name == s

theorem parse?_name (w : Width) : parse? w.name = some w := by
  cases w <;> decide

end Width

/-- The word that selects a statement. -/
inductive Keyword
  | stop
  | enter (kind : Section)
  | data (width : Width)
  | skip
  | align
  | global
  | instruction (mnemonic : Mnemonic)
  deriving DecidableEq

namespace Keyword

/-- Spelling of a keyword, a mnemonic with its condition. -/
def text : Keyword → String
  | stop => ".end"
  | enter k => k.name
  | data w => w.name
  | skip => ".skip"
  | align => ".align"
  | global => ".global"
  | instruction m => m.text

def parse? (s : String) : Option Keyword :=
  if s = ".end" then some stop
  else if s = ".skip" then some skip
  else if s = ".align" then some align
  else if s = ".global" then some global
  else (Section.parse? s).map enter <|> (Width.parse? s).map data <|>
    (Mnemonic.parse? s).map instruction

theorem parse?_text (k : Keyword) : parse? k.text = some k := by
  cases k with
  | enter k => cases k <;> decide
  | data w => cases w <;> decide
  | instruction m =>
    obtain ⟨c, o⟩ := m
    cases o with
    | machine o => cases c <;> cases o <;> decide +kernel
    | ret => cases c <;> decide
    | jmp => cases c <;> decide
  | _ => decide

end Keyword

inductive Statement
  | stop
  | enter (kind : Section)
  | data (width : Width) (args : List String)
  | skip (n : UInt16)
  /-- Fills up to a multiple of a power of two, or of nothing if it is zero. -/
  | align (n : UInt16)
  | global (names : List String)
  | instruction (mnemonic : Mnemonic) (args : List String)
  deriving DecidableEq

namespace Statement

/-- The word by which faults speak of a statement. -/
def heading : Statement → String
  | stop => Keyword.stop.text
  | enter k => (Keyword.enter k).text
  | data w _ => (Keyword.data w).text
  | skip _ => Keyword.skip.text
  | align _ => Keyword.align.text
  | global _ => Keyword.global.text
  | instruction m _ => (Keyword.instruction m).text

def isPowerOfTwo (n : UInt16) : Bool :=
  1 <<< n.toNat.log2 == n.toNat

def count? (s : String) : Option UInt16 :=
  (Numeral.integer? s).bind fun v =>
    if 0 ≤ v ∧ v < UInt16.size then some (UInt16.ofNat v.toNat) else none

/-- The one count that a directive takes. -/
def countOf (directive : Keyword) (args : List String) : Except Fault UInt16 :=
  let invalid := Fault.invalidArgument directive.text (String.intercalate " " args)
  match args with
  | [arg] => (count? arg).elim (.error invalid) .ok
  | _ => .error invalid

def ofKeyword : Keyword → List String → Except Fault Statement
  | .stop, _ => .ok stop
  | .enter k, _ => .ok (enter k)
  | .data w, args => .ok (data w args)
  | .skip, args => (countOf .skip args).map skip
  | .align, args => (countOf .align args).bind fun n =>
    if n = 0 ∨ isPowerOfTwo n then .ok (align n) else .error (.invalidAlignment n)
  | .global, args => .ok (global args)
  | .instruction m, args => .ok (instruction m args)

/-- Why a word selects no statement.  After the letters of a condition an operation was meant. -/
def unknown (word : String) : Fault :=
  if (Mnemonic.condition? word).isSome then .unknownMnemonic word else .unknownStatement word

def parse (word : String) (args : List String) : Except Fault Statement :=
  match Keyword.parse? word with
  | some k => ofKeyword k args
  | none => .error (unknown word)

end Statement

/-- A row of the source: its number from zero, its labels and its statement. -/
structure Line where
  row : Nat
  labels : List String
  statement : Option Statement
  deriving DecidableEq

namespace Line

/-- The name in a word that is a label, which ends in a colon. -/
def label? (word : String) : Option String :=
  let cs := word.toList
  if cs.getLast? = some ':' ∧ Identifier.valid cs.dropLast then some (String.ofList cs.dropLast)
  else none

def isLabel (word : String) : Bool :=
  (label? word).isSome

def statementOf : List String → Except Fault (Option Statement)
  | [] => .ok none
  | word :: args => (Statement.parse word args).map some

def ofWords (row : Nat) (words : List String) : Except Fault Line :=
  (statementOf (words.dropWhile isLabel)).map fun s =>
    ⟨row, (words.takeWhile isLabel).filterMap label?, s⟩

def parse (row : Nat) (raw : String) : Except Fault Line :=
  ofWords row (Text.codeWords raw)

end Line

end SS16
