import SS16.Object.Section
import SS16.Source.Mnemonic

/-!
# SS16.Fault — what can be wrong with a source

Each fault is a cause with the texts it speaks of; `Fault.message` words it.  A located fault also
names the row it was found in, counted from zero, if it has one.
-/

namespace SS16

/-- Reasons to refuse a source. -/
inductive Fault
  | duplicateSection (kind : Section)
  | duplicateSymbol (name : String)
  /-- A directive cannot take this argument. -/
  | invalidArgument (directive argument : String)
  | invalidAlignment (n : UInt16)
  /-- An operation has too many or too few operands. -/
  | arity (mnemonic : Mnemonic) (found : Nat)
  /-- Two operands of one instruction need the extra word. -/
  | twoExtraWords
  /-- An instruction stands in a section other than `.text`. -/
  | instructionIn (kind : Section)
  | unrecognizedOperand (token : String)
  /-- A name is not in the symbol table, or is local there and undefined. -/
  | missingSymbol (name : String)
  | unknownStatement (word : String)
  /-- A condition is followed by an unknown operation. -/
  | unknownMnemonic (word : String)
  /-- Something that needs a section stands before the first one. -/
  | outsideSection (what : String)
  | undefinedSymbol (name : String)
  | immediateDestination (mnemonic : Mnemonic)
  | literalOverflow (token : String) (size : Nat)
  /-- A section grows past its last address. -/
  | sectionOverflow (kind : Section)
  | dataInBss
  deriving DecidableEq

namespace Fault

def quoted (s : String) : String := "`" ++ s ++ "`"

def message : Fault → String
  | duplicateSection k => "Section " ++ quoted k.name ++ " can't be defined more than once"
  | duplicateSymbol n => "Re-defined symbol: " ++ quoted n
  | invalidArgument d a => "Invalid argument for " ++ quoted d ++ ": " ++ quoted a
  | invalidAlignment n =>
    "Invalid argument for " ++ quoted ".align" ++ ": " ++ toString n.toNat ++
      " is not a power of 2"
  | arity m n =>
    "Wrong number of operands for " ++ quoted m.text ++ ": expected " ++
      toString m.operation.arity ++ ", found " ++ toString n
  | twoExtraWords => "Only one operand can request an additional word"
  | instructionIn k => "Instructions must be in the .text section, found in " ++ quoted k.name
  | unrecognizedOperand t => "Can't find an addressing mode for operand " ++ quoted t
  | missingSymbol n => "Symbol " ++ quoted n ++ " is missing from the symbol table"
  | unknownStatement w => "Unknown statement: " ++ quoted w
  | unknownMnemonic w => "Unknown mnemonic: " ++ quoted w
  | outsideSection w => quoted w ++ " is not allowed outside of a section"
  | undefinedSymbol n => "Undefined symbol: " ++ quoted n ++ " is used but never defined"
  | immediateDestination m =>
    "Destination operand of " ++ quoted m.text ++ " can't be an immediate value"
  | literalOverflow t n =>
    "Literal " ++ quoted t ++ " does not fit in " ++ toString n ++ " byte(s)"
  | sectionOverflow k => "Section " ++ quoted k.name ++ " exceeds 64KiB"
  | dataInBss => "Initialized data is not allowed in .bss"

end Fault

/-- A fault and the row it was found in. -/
structure Located where
  row : Option Nat
  fault : Fault
  deriving DecidableEq

def Fault.inRow (fault : Fault) (row : Nat) : Located := ⟨some row, fault⟩

end SS16
