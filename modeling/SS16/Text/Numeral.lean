/-!
# SS16.Text.Numeral — digits and integers as written in source

A digit has a value below its base.  An integer is an optional minus sign, an optional base mark
(`0b`, `0o`, `0x`) and a run of digits, whose value must fit in 63 bits.
-/

namespace SS16

namespace Digit

/-- Value of a digit or letter, letters counting on from ten in either case. -/
def value? (c : Char) : Option Nat :=
  if '0' ≤ c ∧ c ≤ '9' then some (c.toNat - '0'.toNat)
  else if 'a' ≤ c ∧ c ≤ 'z' then some (c.toNat - 'a'.toNat + 10)
  else if 'A' ≤ c ∧ c ≤ 'Z' then some (c.toNat - 'A'.toNat + 10)
  else none

def isDigit (base : Nat) (c : Char) : Bool :=
  (value? c).any (· < base)

/-- Value of a digit; characters that are none count as zero. -/
def value (c : Char) : Nat :=
  (value? c).getD 0

end Digit

namespace Numeral

/-- Value of a run of digits, most significant first. -/
def value (base : Nat) (cs : List Char) : Nat :=
  cs.foldl (fun n c => n * base + Digit.value c) 0

def isNumeral (base : Nat) (cs : List Char) : Bool :=
  !cs.isEmpty && cs.all (Digit.isDigit base)

/-- Splits off a base mark; without one the base is ten. -/
def splitBase : List Char → Nat × List Char
  | '0' :: 'b' :: ds => (2, ds)
  | '0' :: 'o' :: ds => (8, ds)
  | '0' :: 'x' :: ds => (16, ds)
  | ds => (10, ds)

/-- The greatest magnitude of an integer: all of 63 bits. -/
def maxMagnitude : Nat := 0x7FFFFFFFFFFFFFFF

def magnitude? (cs : List Char) : Option Nat :=
  let (base, ds) := splitBase cs
  if isNumeral base ds ∧ value base ds ≤ maxMagnitude then some (value base ds) else none

def integer? (s : String) : Option Int :=
  match s.toList with
  | '-' :: cs => (magnitude? cs).map fun n => -(n : Int)
  | cs => (magnitude? cs).map fun n => (n : Int)

def isDecimal (cs : List Char) : Bool :=
  isNumeral 10 cs

/-- The digits of a hexadecimal numeral with its mark `0x`. -/
def hexDigits? : List Char → Option (List Char)
  | '0' :: 'x' :: ds => if isNumeral 16 ds then some ds else none
  | _ => none

theorem isNumeral_of_hexDigits? {cs ds : List Char} (h : hexDigits? cs = some ds) :
    isNumeral 16 ds := by
  unfold hexDigits? at h
  split at h
  · split at h
    · cases h
      assumption
    · simp at h
  · simp at h

end Numeral

end SS16
