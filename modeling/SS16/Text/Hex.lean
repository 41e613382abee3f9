import SS16.Text.Numeral

/-!
# SS16.Text.Hex — hexadecimal text of bytes and words

Bytes are printed as two upper-case digits each.  A literal of up to four digits is turned into its
bytes, low byte first, by swapping its two digit pairs.
-/

namespace SS16.Hex

def digit (n : Nat) : Char :=
  if n < 10 then Char.ofNat ('0'.toNat + n) else Char.ofNat ('A'.toNat + (n - 10))

/-- The last `count` digits of a number. -/
def digits : Nat → Nat → List Char
  | 0, _ => []
  | count + 1, n => digits count (n / 16) ++ [digit (n % 16)]

def byte (b : UInt8) : String :=
  String.ofList (digits 2 b.toNat)

def word (w : UInt16) : String :=
  String.ofList (digits 4 w.toNat)

def dump (bs : List UInt8) : String :=
  String.intercalate " " (bs.map byte)

/-- The byte that two characters stand for.  A plus sign may take the place of the first digit. -/
def pair? (a b : Char) : Option UInt8 :=
  if Digit.isDigit 16 b then
    if a = '+' then some (UInt8.ofNat (Digit.value b))
    else if Digit.isDigit 16 a then some (UInt8.ofNat (Digit.value a * 16 + Digit.value b))
    else none
  else none

def pairs? : List Char → Option (List UInt8)
  | [] => some []
  | [_] => none
  | a :: b :: cs => do
    let x ← pair? a b
    let xs ← pairs? cs
    return x :: xs

def bytes? (s : String) : Option (List UInt8) :=
  pairs? s.toList

/-- Swaps the digit pairs of a literal of up to four digits, filled up with zeros on the left. -/
def swap? (s : String) : Option String :=
  let cs := s.toList
  if cs.length ≤ 4 ∧ cs.all (Digit.isDigit 16) then
    let ds := List.replicate (4 - cs.length) '0' ++ cs.map Char.toUpper
    some (String.ofList (ds.drop 2 ++ ds.take 2))
  else none

/-- The two bytes of a literal of up to four digits, low byte first. -/
def literal? (s : String) : Option (List UInt8) := do
  let swapped ← swap? s
  bytes? swapped

end SS16.Hex
