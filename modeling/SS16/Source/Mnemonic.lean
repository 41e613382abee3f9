import SS16.Machine.Instruction

/-!
# SS16.Source.Mnemonic — operations as written in source

An operation is a machine opcode or one of two shorthands (`ret`, `jmp`) that stand for another
opcode on the program counter.  A mnemonic is an operation with an optional condition in front;
without one it means `al`.  Main statement: `Mnemonic.parse?_text`.
-/

namespace SS16

/-- How the operands of an operation are counted and checked. -/
inductive Role
  /-- Two operands, the first of which is written. -/
  | arithmetic
  /-- Two operands, both read. -/
  | compare
  /-- One operand, read. -/
  | source
  /-- One operand, written. -/
  | destination
  /-- No operand. -/
  | nullary
  /-- One operand, the place to go to. -/
  | jump
  deriving DecidableEq

namespace Role

def arity : Role → Nat
  | arithmetic | compare => 2
  | source | destination | jump => 1
  | nullary => 0

def writesFirst : Role → Bool
  | arithmetic | destination => true
  | compare | source | nullary | jump => false

end Role

/-- An operation as written in source. -/
inductive Operation
  | machine (o : Opcode)
  /-- Pops the program counter. -/
  | ret
  /-- Sets or moves the program counter. -/
  | jmp
  deriving DecidableEq

namespace Operation

def all : List Operation := Opcode.all.map machine ++ [ret, jmp]

def name : Operation → String
  | machine o => o.name
  | ret => "ret"
  | jmp => "jmp"

def parse? (s : String) : Option Operation :=
  all.find? fun o => o.name == s

/-- The operation's own opcode; the shorthands have none. -/
def opcode? : Operation → Option Opcode
  | machine o => some o
  | ret | jmp => none

def role : Operation → Role
  | machine .cmp | machine .test => .compare
  | machine .push | machine .call => .source
  | machine .pop => .destination
  | machine .iret | ret => .nullary
  | jmp => .jump
  | machine _ => .arithmetic

def arity (o : Operation) : Nat := o.role.arity

theorem parse?_name (o : Operation) : parse? o.name = some o := by
  cases o with
  | machine o => cases o <;> decide
  | ret => decide
  | jmp => decide

end Operation

structure Mnemonic where
  condition : Condition
  operation : Operation
  deriving DecidableEq

namespace Mnemonic

/-- The full spelling, with the condition always written. -/
def text (m : Mnemonic) : String :=
  m.condition.name ++ m.operation.name

/-- The condition that the first two characters of a word spell. -/
def condition? (s : String) : Option Condition :=
  Condition.parse? (String.ofList (s.toList.take 2))

/-- Reads a mnemonic.  A bare operation is tried before a condition is split off. -/
def parse? (s : String) : Option Mnemonic :=
  match Operation.parse? s with
  | some o => some ⟨.always, o⟩
  | none => do
    let c ← condition? s
    let o ← Operation.parse? (String.ofList (s.toList.drop 2))
    return ⟨c, o⟩

theorem parse?_text (m : Mnemonic) : parse? m.text = some m := by
  obtain ⟨c, o⟩ := m
  cases o with
  | machine o => cases c <;> cases o <;> decide +kernel
  | ret => cases c <;> decide
  | jmp => cases c <;> decide

end Mnemonic

end SS16
