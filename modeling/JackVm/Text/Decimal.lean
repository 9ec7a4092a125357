/-!
# Decimal numbers

Reading unsigned numbers from decimal digits, leading zeros allowed. Numbers
that must fit a machine word are refused when they do not, never reduced.
-/

namespace JackVm.Text

/-- A non-empty run of the digits `0` to `9`. -/
def isDigits (cs : List Char) : Bool := !cs.isEmpty && cs.all Char.isDigit

/-- The number a run of digits denotes, most significant digit first. -/
def digitsValue (cs : List Char) : Nat := Nat.ofDigitChars 10 cs 0

/-- Drops one plus sign in front, if there is one. -/
def dropPlus : List Char → List Char
  | '+' :: cs => cs
  | cs => cs

/-- An unsigned 32-bit number: digits, possibly after one plus sign. -/
def readWord? (text : String) : Option UInt32 :=
  let digits := dropPlus text.toList
  if isDigits digits && digitsValue digits < UInt32.size then
    some (UInt32.ofNat (digitsValue digits))
  else none

end JackVm.Text
