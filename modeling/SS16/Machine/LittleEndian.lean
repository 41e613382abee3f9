/-!
# SS16.Machine.LittleEndian — numbers as bytes, low byte first

Main statements: `LittleEndian.value_bytes` (the bytes of a number read back as that number, cut to
their width) and `LittleEndian.length_bytes`.
-/

namespace SS16.LittleEndian

/-- The low `size` bytes of a number, low byte first. -/
def bytes : Nat → Nat → List UInt8
  | 0, _ => []
  | size + 1, n => UInt8.ofNat n :: bytes size (n / 256)

def value : List UInt8 → Nat
  | [] => 0
  | b :: bs => b.toNat + 256 * value bs

/-- How many numbers a number of bytes can tell apart. -/
def capacity : Nat → Nat
  | 0 => 1
  | size + 1 => 256 * capacity size

/-- Whether an integer fits in `size` bytes, read as signed or as unsigned. -/
def fits (size : Nat) (v : Int) : Bool :=
  -(capacity size / 2 : Nat) ≤ v && v < capacity size

/-- The two's-complement bytes of an integer, if it fits. -/
def encode? (size : Nat) (v : Int) : Option (List UInt8) :=
  if fits size v then some (bytes size (v % capacity size).toNat) else none

def word (w : UInt16) : List UInt8 :=
  bytes 2 w.toNat

@[simp] theorem length_bytes (size n : Nat) : (bytes size n).length = size := by
  induction size generalizing n with
  | zero => rfl
  | succ size ih => simp [bytes, ih]

theorem value_bytes (size n : Nat) : value (bytes size n) = n % capacity size := by
  induction size generalizing n with
  | zero => simp [bytes, value, capacity, Nat.mod_one]
  | succ size ih =>
    have h : n % (256 * capacity size) = n % 256 + 256 * (n / 256 % capacity size) := Nat.mod_mul
    simp [bytes, value, capacity, ih, h]

end SS16.LittleEndian
