import SS16.Assembly.Place
import SS16.Object.SymbolTable
import SS16.Source.Operand
import SS16.Source.Program

/-!
# SS16.Assembly.Layout — where sections and symbols lie

The first sweep over a program.  Each line asks for a few steps (a section to be open, a name to be
set, used or exported, the place to move on), and a layout takes them one by one up to the first one
it has to refuse; what earlier steps did stays.  A name gets its entry number when it first comes
up.  At the end every name that is used must be set or exported.
-/

namespace SS16

/-- What a line asks of the layout. -/
inductive Step
  /-- A section has to be open. -/
  | require (what : String)
  | enter (kind : Section)
  | set (name : String)
  | use (name : String)
  | share (name : String)
  | advance (n : Nat)
  | align (n : UInt16)
  | refuse (fault : Fault)
  deriving DecidableEq

namespace Statement

/-- The step for an argument of a data directive; numbers ask for nothing. -/
def dataStep (w : Width) (arg : String) : Option Step :=
  if (Numeral.integer? arg).isSome then none
  else if Identifier.isValid arg then some (.use arg)
  else some (.refuse (.invalidArgument w.name arg))

/-- Bytes of a number of elements, counted in 32 bits. -/
def dataSize (w : Width) (count : Nat) : UInt32 :=
  UInt32.ofNat count * UInt32.ofNat w.size

def shareStep (name : String) : Step :=
  if Identifier.isValid name then .share name
  else .refuse (.invalidArgument Keyword.global.text name)

/-- The steps for the operands of an instruction.  All operands are read before any is used. -/
def operandSteps (args : List String) : List Step :=
  match args.mapM Operand.parse with
  | .error f => [.refuse f]
  | .ok ops => (ops.filterMap Operand.symbol?).map .use ++ [.advance (Operand.instructionSize ops)]

def steps : Statement → List Step
  | stop => []
  | enter k => [.enter k]
  | data w args =>
    .require w.name :: (args.filterMap (dataStep w) ++ [.advance (dataSize w args.length).toNat])
  | skip n => [.require Keyword.skip.text, .advance n.toNat]
  | align n => [.require Keyword.align.text, .align n]
  | global names => names.map shareStep
  | instruction m args => .require m.text :: operandSteps args

end Statement

/-- The steps of a line: its labels from left to right, then its statement. -/
def Line.steps (line : Line) : List Step :=
  line.labels.map .set ++ (line.statement.map Statement.steps).getD []

/-- The steps of a program, each with its row.  A row that is no line is refused. -/
def Program.steps (p : Program) : List (Nat × Step) :=
  p.lines.flatMap (fun line => line.steps.map fun s => (line.row, s)) ++
    (p.fault.map fun f => (f.1, Step.refuse f.2)).toList

/-- What is known of sections and symbols so far. -/
structure Layout where
  symbols : SymbolTable
  closed : Array Extent
  place : Option Place
  /-- The entry number for the next new name. -/
  next : UInt16

namespace Layout

/-- Entry number of the first name; smaller numbers belong to the sections and to no section. -/
def firstNumber : UInt16 := 5

def start (symbols : SymbolTable) : Layout := ⟨symbols, #[], none, firstNumber⟩

def close (l : Layout) : Layout :=
  match l.place with
  | some p => { l with closed := l.closed.push p.extent, place := none }
  | none => l

def declare (l : Layout) (s : UInt16 → Symbol) : Layout :=
  { l with symbols := l.symbols.insert (s l.next), next := l.next + 1 }

def enter (l : Layout) (k : Section) : Layout :=
  let l := l.close
  { l with symbols := l.symbols.insert (.ofSection k), place := some (.start k) }

def set (l : Layout) (name : String) : Layout :=
  match l.place with
  | none => l
  | some p =>
    if l.symbols.contains name then
      { l with symbols := l.symbols.define name (some p.kind) p.location }
    else l.declare (.defined name p.kind p.location)

/-- Makes sure that a used name has an entry. -/
def use (l : Layout) (name : String) : Layout :=
  if l.symbols.contains name then l else l.declare (.undefined name .internal)

def share (l : Layout) (name : String) : Layout :=
  if l.symbols.contains name then { l with symbols := l.symbols.rebind name .global }
  else l.declare (.undefined name .global)

def move (l : Layout) (f : Place → Option Place) : Layout :=
  { l with place := l.place.map fun p => (f p).getD p }

def moveRefusal? (l : Layout) (f : Place → Option Place) : Option Fault :=
  l.place.bind fun p => if (f p).isSome then none else some p.overflow

def refusal? (l : Layout) : Step → Option Fault
  | .require what => if l.place.isSome then none else some (.outsideSection what)
  | .enter k => if l.symbols.contains k.name then some (.duplicateSection k) else none
  | .set name =>
    if l.place.isNone then some (.outsideSection (name ++ ":"))
    else if (l.symbols.get? name).any Symbol.isDefined then some (.duplicateSymbol name)
    else none
  | .use _ | .share _ => none
  | .advance n => l.moveRefusal? (·.advance? n)
  | .align n => l.moveRefusal? (·.align? n)
  | .refuse f => some f

def take (l : Layout) : Step → Layout
  | .require _ | .refuse _ => l
  | .enter k => l.enter k
  | .set name => l.set name
  | .use name => l.use name
  | .share name => l.share name
  | .advance n => l.move (·.advance? n)
  | .align n => l.move (·.align? n)

/-- Takes steps up to the first one that is refused. -/
def run (l : Layout) : List (Nat × Step) → Layout × Option Located
  | [] => (l, none)
  | (row, s) :: rest =>
    match l.refusal? s with
    | some f => (l, some (f.inRow row))
    | none => (l.take s).run rest

/-- The first entry that is neither set nor global. -/
def unresolved? (symbols : SymbolTable) : Option Symbol :=
  symbols.toList.find? fun s => !s.isDefined && !s.isGlobal

/-- The row of the first step that uses a name. -/
def firstUse (steps : List (Nat × Step)) (name : String) : Option Nat :=
  (steps.find? fun s => s.2 = .use name).map Prod.fst

/-- The fault of a name that is used and never set nor global.  If the table held the name from the
start, no row is to blame. -/
def unresolvedFault (start : SymbolTable) (steps : List (Nat × Step)) (s : Symbol) :
    Located :=
  ⟨if start.contains s.name then none else firstUse steps s.name, .undefinedSymbol s.name⟩

end Layout

/-- The symbols after a sweep, and the sections or the fault that it ended with. -/
structure Layout.Result where
  symbols : SymbolTable
  sections : Except Located (List Extent)

def Program.layout (p : Program) (symbols : SymbolTable) : Layout.Result :=
  let steps := p.steps
  match (Layout.start symbols).run steps with
  | (l, some fault) => ⟨l.symbols, .error fault⟩
  | (l, none) =>
    match Layout.unresolved? l.symbols with
    | some s => ⟨l.symbols, .error (Layout.unresolvedFault symbols steps s)⟩
    | none => ⟨l.symbols, .ok l.close.closed.toList⟩

end SS16
