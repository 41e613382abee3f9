import SS16.Machine.Field
import SS16.Text.Column
import SS16.Text.Style

/-!
# SS16.Machine.Instruction — the instruction word

A 16-bit word holds a condition (2 bits), an opcode (4 bits) and two operand fields (5 bits each),
most significant first.  Main statements: `Instruction.ofWord_word` (unpacking inverts packing) and
`Instruction.toNat_word` (the word as a number).
-/

namespace SS16

inductive Condition
  | equal | notEqual | greater | always
  deriving DecidableEq

namespace Condition

def all : List Condition := [equal, notEqual, greater, always]

def code : Condition → Nat
  | equal => 0
  | notEqual => 1
  | greater => 2
  | always => 3

/-- The condition with a given number; a number past 3 stands for `always`. -/
def ofCode : Nat → Condition
  | 0 => equal
  | 1 => notEqual
  | 2 => greater
  | _ => always

def name : Condition → String
  | equal => "eq"
  | notEqual => "ne"
  | greater => "gt"
  | always => "al"

def parse? (s : String) : Option Condition :=
  all.find? fun c => c.name == s

theorem code_lt (c : Condition) : c.code < 4 := by
  cases c <;> decide

@[simp] theorem ofCode_code (c : Condition) : ofCode c.code = c := by
  cases c <;> rfl

theorem parse?_name (c : Condition) : parse? c.name = some c := by
  cases c <;> decide

end Condition

/-- What the machine does. -/
inductive Opcode
  | add | sub | mul | div | cmp | and | or | not
  | test | push | pop | call | iret | mov | shl | shr
  deriving DecidableEq

namespace Opcode

def all : List Opcode :=
  [add, sub, mul, div, cmp, and, or, not, test, push, pop, call, iret, mov, shl, shr]

def code : Opcode → Nat
  | add => 0
  | sub => 1
  | mul => 2
  | div => 3
  | cmp => 4
  | and => 5
  | or => 6
  | not => 7
  | test => 8
  | push => 9
  | pop => 10
  | call => 11
  | iret => 12
  | mov => 13
  | shl => 14
  | shr => 15

/-- The opcode with a given number; a number past 15 stands for `add`. -/
def ofCode (n : Nat) : Opcode :=
  all.getD n add

def name : Opcode → String
  | add => "add"
  | sub => "sub"
  | mul => "mul"
  | div => "div"
  | cmp => "cmp"
  | and => "and"
  | or => "or"
  | not => "not"
  | test => "test"
  | push => "push"
  | pop => "pop"
  | call => "call"
  | iret => "iret"
  | mov => "mov"
  | shl => "shl"
  | shr => "shr"

theorem code_lt (o : Opcode) : o.code < 16 := by
  cases o <;> decide

@[simp] theorem ofCode_code (o : Opcode) : ofCode o.code = o := by
  cases o <;> rfl

end Opcode

/-- The parts of an instruction word. -/
structure Instruction where
  condition : Condition
  opcode : Opcode
  first : Field
  second : Field
  deriving DecidableEq

namespace Instruction

def word (i : Instruction) : UInt16 :=
  UInt16.ofNat (i.condition.code * 16384 + i.opcode.code * 1024 + i.first.bits * 32 + i.second.bits)

def ofWord (w : UInt16) : Instruction where
  condition := Condition.ofCode (w.toNat / 16384)
  opcode := Opcode.ofCode (w.toNat / 1024 % 16)
  first := Field.ofBits (w.toNat / 32 % 32)
  second := Field.ofBits (w.toNat % 32)

/-- The word in memory, high byte first. -/
def bytes (i : Instruction) : List UInt8 :=
  [UInt8.ofNat (i.word.toNat / 256), UInt8.ofNat i.word.toNat]

/-- The word that two bytes in memory make, high byte first. -/
def wordOf (high low : UInt8) : UInt16 :=
  UInt16.ofNat (high.toNat * 256 + low.toNat)

def render (i : Instruction) : String :=
  Style.red ++ Column.left 2 i.condition.name ++
  Style.bold ++ Column.left 5 i.opcode.name ++
  Style.blue ++ Style.light ++ i.first.text ++ " " ++ i.second.text ++ Style.plain

theorem toNat_word (i : Instruction) :
    i.word.toNat =
      i.condition.code * 16384 + i.opcode.code * 1024 + i.first.bits * 32 + i.second.bits := by
  have hc := i.condition.code_lt
  have ho := i.opcode.code_lt
  have hf := i.first.bits_lt
  have hs := i.second.bits_lt
  simp only [word, UInt16.toNat_ofNat']
  omega

@[simp] theorem ofWord_word (i : Instruction) : ofWord i.word = i := by
  have ho := i.opcode.code_lt
  have hf := i.first.bits_lt
  have hs := i.second.bits_lt
  have h1 : i.word.toNat / 16384 = i.condition.code := by rw [toNat_word]; omega
  have h2 : i.word.toNat / 1024 % 16 = i.opcode.code := by rw [toNat_word]; omega
  have h3 : i.word.toNat / 32 % 32 = i.first.bits := by rw [toNat_word]; omega
  have h4 : i.word.toNat % 32 = i.second.bits := by rw [toNat_word]; omega
  simp [ofWord, h1, h2, h3, h4]

end Instruction

end SS16
