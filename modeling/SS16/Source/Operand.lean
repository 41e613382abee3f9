import SS16.Fault
import SS16.Machine.LittleEndian
import SS16.Object.Relocation
import SS16.Text.Hex
import SS16.Text.Identifier

/-!
# SS16.Source.Operand — the forms of an instruction operand

An operand is told apart by its spelling alone: a literal, a register, a name, or one of these
behind a mark.  `Operand.parse` reads it, `Operand.field` gives its bits in the instruction word and
`Operand.extra?` the word that follows, if it has one.
-/

namespace SS16

/-- A 16-bit number as written: decimal by its value, hexadecimal by its digits. -/
inductive Literal
  | decimal (value : UInt16)
  | hex (digits : String)
  deriving DecidableEq

namespace Literal

/-- Hexadecimal digits of a 16-bit number.  Up to four digits are kept as written; of longer ones
the zeros in front are dropped. -/
def shortHex? (ds : List Char) : Option (List Char) :=
  if ds.length ≤ 4 then some ds
  else
    match ds.dropWhile (· == '0') with
    | [] => some ['0']
    | es => if es.length ≤ 4 then some es else none

/-- Reads a literal inside an operand; `none` if the characters do not have the shape of one. -/
def read? (token : String) (cs : List Char) : Option (Except Fault Literal) :=
  let overflow := Fault.literalOverflow token 2
  if Numeral.isDecimal cs then
    let v := Numeral.value 10 cs
    some (if v < UInt16.size then .ok (decimal (UInt16.ofNat v)) else .error overflow)
  else
    (Numeral.hexDigits? cs).map fun ds =>
      (shortHex? ds).elim (.error overflow) fun es => .ok (hex (String.ofList es))

def bytes : Literal → Except Fault (List UInt8)
  | decimal v => .ok (LittleEndian.word v)
  | hex ds => (Hex.literal? ds).elim (.error (.unrecognizedOperand ("0x" ++ ds))) .ok

end Literal

/-- What is added to a register to make an address. -/
inductive Displacement
  | literal (value : Literal)
  | symbol (name : String)
  deriving DecidableEq

inductive Operand
  /-- `42` or `0x2A`: the value itself. -/
  | immediate (value : Literal)
  /-- `r0` to `r7`: a register. -/
  | register (r : Register)
  /-- `sp` or `pc`: a register under its other name. -/
  | pointer (r : Register)
  /-- `&name`: the address of a symbol. -/
  | address (name : String)
  /-- `name`: the memory at a symbol. -/
  | memory (name : String)
  /-- `*42` or `*0x2A`: the memory at an address. -/
  | memoryAt (address : Literal)
  /-- `r1[4]`, `r1[0x4]` or `r1[name]`: the memory at a distance from a register. -/
  | indexed (r : Register) (disp : Displacement)
  /-- `$name`: the distance of a symbol from the program counter. -/
  | relative (name : String)
  deriving DecidableEq

/-- The word that follows an instruction word: a literal, or the place of a symbol. -/
inductive ExtraWord
  | literal (value : Literal)
  | reference (kind : RelocationKind) (name : String)
  deriving DecidableEq

namespace Operand

def displacement (token : String) (cs : List Char) : Except Fault Displacement :=
  match Literal.read? token cs with
  | some l => l.map .literal
  | none =>
    if Identifier.valid cs then .ok (.symbol (String.ofList cs))
    else .error (.unrecognizedOperand token)

def parseIndexed (token : String) (cs : List Char) : Except Fault Operand :=
  match Register.numbered? (String.ofList (cs.takeWhile (· != '['))), cs.dropWhile (· != '[') with
  | some r, _ :: inner =>
    if inner.getLast? = some ']' then (displacement token inner.dropLast).map (indexed r)
    else .error (.unrecognizedOperand token)
  | _, _ => .error (.unrecognizedOperand token)

/-- Reads an operand that starts with a mark, or else one with brackets. -/
def parseMarked (token : String) : List Char → Except Fault Operand
  | '&' :: name =>
    if Identifier.valid name then .ok (address (String.ofList name))
    else .error (.unrecognizedOperand token)
  | '$' :: name =>
    if Identifier.valid name then .ok (relative (String.ofList name))
    else .error (.unrecognizedOperand token)
  | '*' :: cs =>
    match Literal.read? token cs with
    | some l => l.map memoryAt
    | none => .error (.unrecognizedOperand token)
  | cs => parseIndexed token cs

/-- Reads an operand.  Registers go before names, so that no symbol in an operand is called `r0` to
`r7`, `sp` or `pc`. -/
def parse (token : String) : Except Fault Operand :=
  match Literal.read? token token.toList with
  | some l => l.map immediate
  | none =>
    match Register.numbered? token, Register.pointer? token with
    | some r, _ => .ok (register r)
    | none, some r => .ok (pointer r)
    | none, none =>
      if Identifier.isValid token then .ok (memory token) else parseMarked token token.toList

def field : Operand → Field
  | immediate _ | address _ => .zero
  | register r | pointer r => .direct r
  | memory _ | memoryAt _ => .memory
  | indexed r _ => .indexed r
  | relative _ => .relative

/-- The word that the operand puts after the instruction word.  Registers need none. -/
def extra? : Operand → Option ExtraWord
  | register _ | pointer _ => none
  | immediate l | memoryAt l | indexed _ (.literal l) => some (.literal l)
  | address n | memory n | indexed _ (.symbol n) => some (.reference .absolute n)
  | relative n => some (.reference .relative n)

def symbol? (op : Operand) : Option String :=
  match op.extra? with
  | some (.reference _ n) => some n
  | _ => none

def hasExtra (op : Operand) : Bool := op.extra?.isSome

/-- Whether the operand is a value, which cannot be written to. -/
def isImmediate : Operand → Bool
  | immediate _ | address _ | relative _ => true
  | register _ | pointer _ | memory _ | memoryAt _ | indexed _ _ => false

def instructionSize (ops : List Operand) : Nat :=
  if ops.any hasExtra then 4 else 2

end Operand

end SS16
