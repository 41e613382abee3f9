/-!
# SS16.Machine.Field — registers, addressing modes and operand fields

An operand takes five bits of an instruction word: two for its addressing mode and three for a
register.  Main statements: `Field.ofBits_bits` (packing a field loses nothing) and
`Field.bits_lt` (a packed field fits in five bits).
-/

namespace SS16

/-- The eight registers.  The last two are the stack pointer and the program counter. -/
inductive Register
  | r0 | r1 | r2 | r3 | r4 | r5 | sp | pc
  deriving DecidableEq

namespace Register

def code : Register → Nat
  | r0 => 0
  | r1 => 1
  | r2 => 2
  | r3 => 3
  | r4 => 4
  | r5 => 5
  | sp => 6
  | pc => 7

/-- The register with a given number; a number past 7 stands for `r0`. -/
def ofCode : Nat → Register
  | 1 => r1
  | 2 => r2
  | 3 => r3
  | 4 => r4
  | 5 => r5
  | 6 => sp
  | 7 => pc
  | _ => r0

def name : Register → String
  | r0 => "r0"
  | r1 => "r1"
  | r2 => "r2"
  | r3 => "r3"
  | r4 => "r4"
  | r5 => "r5"
  | sp => "sp"
  | pc => "pc"

/-- Reads a numbered name, `r0` to `r7`. -/
def numbered? (s : String) : Option Register :=
  match s.toList with
  | ['r', d] => if '0' ≤ d ∧ d ≤ '7' then some (ofCode (d.toNat - '0'.toNat)) else none
  | _ => none

/-- Reads the name of a pointer register, `sp` or `pc`. -/
def pointer? (s : String) : Option Register :=
  match s.toList with
  | ['s', 'p'] => some sp
  | ['p', 'c'] => some pc
  | _ => none

/-- Reads a register under either of its names. -/
def parse? (s : String) : Option Register :=
  numbered? s <|> pointer? s

theorem code_lt (r : Register) : r.code < 8 := by
  cases r <;> decide

@[simp] theorem ofCode_code (r : Register) : ofCode r.code = r := by
  cases r <;> rfl

theorem parse?_name (r : Register) : parse? r.name = some r := by
  cases r <;> decide

end Register

/-- How an operand is addressed. -/
inductive Mode
  | immediate | register | memory | indexed
  deriving DecidableEq

namespace Mode

def code : Mode → Nat
  | immediate => 0
  | register => 1
  | memory => 2
  | indexed => 3

/-- The mode with a given number; a number past 3 stands for `immediate`. -/
def ofCode : Nat → Mode
  | 1 => register
  | 2 => memory
  | 3 => indexed
  | _ => immediate

theorem code_lt (m : Mode) : m.code < 4 := by
  cases m <;> decide

@[simp] theorem ofCode_code (m : Mode) : ofCode m.code = m := by
  cases m <;> rfl

end Mode

structure Field where
  mode : Mode
  register : Register
  deriving DecidableEq

namespace Field

/-- The all-zero field of immediate operands and of unused operand slots. -/
def zero : Field := ⟨.immediate, .r0⟩

/-- An immediate that counts from the program counter. -/
def relative : Field := ⟨.immediate, .pc⟩

/-- A memory operand whose address is in the extra word. -/
def memory : Field := ⟨.memory, .r0⟩

def direct (r : Register) : Field := ⟨.register, r⟩

/-- A memory operand at a register plus the extra word. -/
def indexed (r : Register) : Field := ⟨.indexed, r⟩

def bits (f : Field) : Nat :=
  f.mode.code * 8 + f.register.code

def ofBits (n : Nat) : Field :=
  ⟨Mode.ofCode (n / 8 % 4), Register.ofCode (n % 8)⟩

/-- Five binary digits, most significant first. -/
def text (f : Field) : String :=
  String.ofList ([4, 3, 2, 1, 0].map fun i => if f.bits.testBit i then '1' else '0')

theorem bits_lt (f : Field) : f.bits < 32 := by
  have hm := f.mode.code_lt
  have hr := f.register.code_lt
  simp only [bits]
  omega

@[simp] theorem ofBits_bits (f : Field) : ofBits f.bits = f := by
  obtain ⟨m, r⟩ := f
  cases m <;> cases r <;> rfl

end Field

end SS16
