import SS16.Machine.LittleEndian
import SS16.Source.Operand
import Mathlib.Algebra.Order.Ring.Nat

/-!
# SS16.Proofs.InstructionWord — the bits of an instruction word

Conditions, opcodes, addressing modes and registers are numbered in a fixed order, and an instruction
word holds these numbers at fixed places: two bits, four bits and twice five.  Main statements:
`Instruction.bytes_eq` (the word put together bit by bit is the one that is packed),
`Operand.hasField_iff` and `Operand.wants_iff` (the field and the extra word of each form of an
operand).
-/

namespace SS16

/-! ### Numbers -/

/-- Number of a condition, by its place among all. -/
def Condition.number (c : Condition) : Nat := [equal, notEqual, greater, always].idxOf c

def Opcode.number (o : Opcode) : Nat :=
  [add, sub, mul, div, cmp, and, or, not, test, push, pop, call, iret, mov, shl, shr].idxOf o

def Mode.number (m : Mode) : Nat := [immediate, register, memory, indexed].idxOf m

def Register.number (r : Register) : Nat := [r0, r1, r2, r3, r4, r5, sp, pc].idxOf r

/-- A field as a number: two bits for the mode, three for the register. -/
def Field.number (f : Field) : Nat := f.mode.number <<< 3 ||| f.register.number

theorem Condition.number_eq (c : Condition) : c.number = c.code := by
  cases c <;> rfl

theorem Opcode.number_eq (o : Opcode) : o.number = o.code := by
  cases o <;> rfl

theorem Field.number_eq (f : Field) : f.number = f.bits := by
  obtain ⟨m, r⟩ := f
  cases m <;> cases r <;> rfl

/-! ### The word -/

namespace Instruction

/-- The word put together from its parts: two bits, four bits and twice five. -/
def packed (i : Instruction) : UInt16 :=
  UInt16.ofNat i.condition.number <<< 14 ||| UInt16.ofNat i.opcode.number <<< 10 |||
    UInt16.ofNat i.first.number <<< 5 ||| UInt16.ofNat i.second.number

/-- A word in memory, high byte first. -/
def bigEndian (w : UInt16) : List UInt8 := [(w >>> 8).toUInt8, w.toUInt8]

/-- A number is joined by adding it to one that leaves its bits free. -/
theorem or_eq_add {m n : Nat} (k : Nat) (hm : 2 ^ k ∣ m) (hn : n < 2 ^ k) : m ||| n = m + n := by
  obtain ⟨a, rfl⟩ := hm
  rw [Nat.mul_comm, ← Nat.shiftLeft_eq, Nat.shiftLeft_add_eq_or_of_lt hn]

theorem toNat_shiftLeft_ofNat {n k : Nat} (hk : k < 16) (hn : n * 2 ^ k < 65536) :
    (UInt16.ofNat n <<< UInt16.ofNat k).toNat = n * 2 ^ k := by
  have hle : n * 1 ≤ n * 2 ^ k := Nat.mul_le_mul_left n (Nat.two_pow_pos k)
  have hk' : k % 2 ^ 16 % 16 = k := by omega
  rw [UInt16.toNat_shiftLeft, UInt16.toNat_ofNat', UInt16.toNat_ofNat', hk', Nat.shiftLeft_eq,
    Nat.mod_eq_of_lt (a := n) (by omega), Nat.mod_eq_of_lt hn]

theorem packed_eq (i : Instruction) : i.packed = i.word := by
  have hc := i.condition.code_lt
  have ho := i.opcode.code_lt
  have hf := i.first.bits_lt
  have hs := i.second.bits_lt
  have h14 : (UInt16.ofNat i.condition.code <<< 14).toNat = i.condition.code * 16384 :=
    toNat_shiftLeft_ofNat (k := 14) (by omega) (by omega)
  have h10 : (UInt16.ofNat i.opcode.code <<< 10).toNat = i.opcode.code * 1024 :=
    toNat_shiftLeft_ofNat (k := 10) (by omega) (by omega)
  have h5 : (UInt16.ofNat i.first.bits <<< 5).toNat = i.first.bits * 32 :=
    toNat_shiftLeft_ofNat (k := 5) (by omega) (by omega)
  have h0 : (UInt16.ofNat i.second.bits).toNat = i.second.bits :=
    UInt16.toNat_ofNat_of_lt' (by show _ < 65536; omega)
  -- no part reaches into the bits of the one before it
  have hco := or_eq_add (m := i.condition.code * 16384) (n := i.opcode.code * 1024) 14
    (by omega) (by omega)
  have hcof := or_eq_add (m := i.condition.code * 16384 + i.opcode.code * 1024)
    (n := i.first.bits * 32) 10 (by omega) (by omega)
  have hall := or_eq_add (n := i.second.bits)
    (m := i.condition.code * 16384 + i.opcode.code * 1024 + i.first.bits * 32) 5
    (by omega) (by omega)
  rw [← UInt16.toNat_inj, toNat_word, packed, Condition.number_eq, Opcode.number_eq,
    Field.number_eq, Field.number_eq, UInt16.toNat_or, UInt16.toNat_or, UInt16.toNat_or, h14, h10,
    h5, h0, hco, hcof, hall]

theorem highByte_eq (w : UInt16) : UInt8.ofNat (w.toNat / 256) = (w >>> 8).toUInt8 := by
  rw [← UInt8.toNat_inj, UInt8.toNat_ofNat', UInt16.toNat_toUInt8, UInt16.toNat_shiftRight]
  show _ = (w.toNat >>> 8) % 256
  rw [Nat.shiftRight_eq_div_pow]

theorem bytes_eq (i : Instruction) : i.bytes = bigEndian i.packed := by
  rw [packed_eq]
  exact congrArg (· :: _) (highByte_eq i.word)

end Instruction

theorem LittleEndian.word_eq (w : UInt16) : word w = [w.toUInt8, (w >>> 8).toUInt8] :=
  congrArg (_ :: [·]) (Instruction.highByte_eq w)

/-! ### Forms of operands -/

/-- The mode and the register of an operand.  Where no register is named the first one stands, and the
program counter for a distance from it. -/
inductive Operand.HasField : Operand → Field → Prop
  | immediate (l : Literal) : HasField (.immediate l) ⟨.immediate, .r0⟩
  | address (n : String) : HasField (.address n) ⟨.immediate, .r0⟩
  | relative (n : String) : HasField (.relative n) ⟨.immediate, .pc⟩
  | register (r : Register) : HasField (.register r) ⟨.register, r⟩
  | pointer (r : Register) : HasField (.pointer r) ⟨.register, r⟩
  | memory (n : String) : HasField (.memory n) ⟨.memory, .r0⟩
  | memoryAt (l : Literal) : HasField (.memoryAt l) ⟨.memory, .r0⟩
  | indexed (r : Register) (d : Displacement) : HasField (.indexed r d) ⟨.indexed, r⟩

theorem Operand.hasField_iff {op : Operand} {f : Field} : op.HasField f ↔ op.field = f := by
  constructor
  · rintro ⟨⟩ <;> rfl
  · rintro rfl
    cases op with
    | immediate l => exact .immediate l
    | address n => exact .address n
    | relative n => exact .relative n
    | register r => exact .register r
    | pointer r => exact .pointer r
    | memory n => exact .memory n
    | memoryAt l => exact .memoryAt l
    | indexed r d => exact .indexed r d

theorem Operand.hasField_field (op : Operand) : op.HasField op.field := hasField_iff.2 rfl

/-- The word that an operand asks for behind the instruction word.  Registers ask for none. -/
inductive Operand.Wants : Operand → ExtraWord → Prop
  | immediate (l : Literal) : Wants (.immediate l) (.literal l)
  | memoryAt (l : Literal) : Wants (.memoryAt l) (.literal l)
  | indexed (r : Register) (l : Literal) : Wants (.indexed r (.literal l)) (.literal l)
  | address (n : String) : Wants (.address n) (.reference .absolute n)
  | memory (n : String) : Wants (.memory n) (.reference .absolute n)
  | indexedAt (r : Register) (n : String) :
    Wants (.indexed r (.symbol n)) (.reference .absolute n)
  | relative (n : String) : Wants (.relative n) (.reference .relative n)

theorem Operand.wants_iff {op : Operand} {w : ExtraWord} : op.Wants w ↔ op.extra? = some w := by
  constructor
  · rintro ⟨⟩ <;> rfl
  · intro h
    cases op with
    | register r | pointer r => cases h
    | immediate l => exact Option.some.inj h ▸ .immediate l
    | memoryAt l => exact Option.some.inj h ▸ .memoryAt l
    | address n => exact Option.some.inj h ▸ .address n
    | memory n => exact Option.some.inj h ▸ .memory n
    | relative n => exact Option.some.inj h ▸ .relative n
    | indexed r d =>
      cases d with
      | literal l => exact Option.some.inj h ▸ .indexed r l
      | symbol n => exact Option.some.inj h ▸ .indexedAt r n

end SS16
