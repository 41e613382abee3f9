import SS16.Text.Numeral

/-!
# SS16.Text.YamlNumber — plain scalars that are read as numbers

A number is an integer with a base mark, of at most 128 bits, or a decimal number with or without a
point and an exponent, below what a double can hold.  Digits with a zero in front are no number for
every reader, so they count as one here whatever their length.
-/

namespace SS16.YamlNumber

def unsigned : List Char → List Char
  | '+' :: cs | '-' :: cs => cs
  | cs => cs

/-! ### Integers with a base mark -/

/-- The greatest magnitude of an integer: all of 128 bits, and half as much below zero. -/
def maxMagnitude : List Char → Nat
  | '-' :: _ => 0x80000000000000000000000000000000
  | _ => 0xFFFFFFFFFFFFFFFFFFFFFFFFFFFFFFFF

/-- Whether the characters are an integer with a base mark. -/
def isMarked (cs : List Char) : Bool :=
  let (base, ds) := Numeral.splitBase (unsigned cs)
  base != 10 && Numeral.isNumeral base ds && Numeral.value base ds ≤ maxMagnitude cs

/-! ### Decimal numbers -/

/-- Parts of a decimal number: digits before and after the point, and what follows them. -/
structure Decimal where
  whole : List Char
  fraction : List Char
  exponent : List Char

/-- Divides a text at its first point and its first letter `e`. -/
def Decimal.ofChars (cs : List Char) : Decimal :=
  let mantissa := cs.takeWhile fun c => c != 'e' && c != 'E'
  let whole := mantissa.takeWhile (· != '.')
  ⟨whole, (mantissa.drop whole.length).drop 1, cs.drop mantissa.length⟩

namespace Decimal

def digits (d : Decimal) : List Char := d.whole ++ d.fraction

/-- Whether digits stand where a decimal number has them. -/
def isWritten (d : Decimal) : Bool :=
  Numeral.isDecimal d.digits &&
    (d.exponent.isEmpty || Numeral.isDecimal (unsigned (d.exponent.drop 1)))

/-- Power of ten that the last digit counts. -/
def scale (d : Decimal) : Int :=
  let e := d.exponent.drop 1
  let n : Int := Numeral.value 10 (unsigned e)
  (if e.head? = some '-' then -n else n) - d.fraction.length

/-- The least number that is rounded to infinity: half a unit above the greatest double. -/
def infinite : Nat := Nat.pow 2 1024 - Nat.pow 2 970

/-- Whether a decimal number is rounded to a double.  Without a digit above the point it is below
one, and with a scale above 308 and a digit that counts it is above every double. -/
def isFinite (d : Decimal) : Bool :=
  let m := Numeral.value 10 d.digits
  m = 0 ||
    match d.scale with
    | .ofNat x => x ≤ 308 && m * Nat.pow 10 x < infinite
    | .negSucc x => d.digits.length ≤ x || m < infinite * Nat.pow 10 (x + 1)

end Decimal

def isPadded : List Char → Bool
  | '0' :: cs => Numeral.isDecimal cs
  | _ => false

/-- Whether a text would be read as a number. -/
def isNumber (cs : List Char) : Bool :=
  let d := Decimal.ofChars (unsigned cs)
  isMarked cs || isPadded (unsigned cs) || (d.isWritten && d.isFinite)

end SS16.YamlNumber
