import Daybook.Text.Digits

/-!
# Decimals

Model of the decimals that quantities are kept in ([SPEC 13.4]), as far as `cook_quantity`, the
stored form and the comparison of journals use them. A decimal is a mantissa of 96 bits, a scale of
at most 28 places, and a sign. Trailing zeros count: `1.10` and `1.1` have the same value and
different scales. Zero may carry a sign; it is then shown, but such a zero is not negative.

Reading keeps every digit while the mantissa and the scale can hold it. What does not fit before the
point is refused. What does not fit after the point is rounded at its first digit, half up.

Out of scope: arithmetic, and texts with an exponent.

Results:
* `isNegative_iff`: a decimal is negative exactly if it has the sign and is not zero.
-/

namespace Daybook

/-- Mantissas are below this number: 2 to the power of 96. -/
def Decimal.mantissaBound : Nat := 0x1000000000000000000000000

/-- A decimal number. -/
structure Decimal where
  /-- Whether it has a minus sign. -/
  negative : Bool
  /-- Its digits as a whole number. -/
  mantissa : Nat
  /-- How many of the digits stand after the point. -/
  scale : Nat
  /-- The mantissa fits into 96 bits. -/
  mantissa_lt : mantissa < Decimal.mantissaBound
  /-- There are at most 28 places. -/
  scale_le : scale ≤ 28
deriving DecidableEq, Repr

namespace Decimal

open Text

/-- Zero without places. -/
def zero : Decimal := ⟨false, 0, 0, by decide, by decide⟩

/-- The decimal of these parts, if they are in range. Zero gets no sign. -/
def ofParts? (negative : Bool) (mantissa scale : Nat) : Option Decimal :=
  if h : mantissa < mantissaBound ∧ scale ≤ 28 then
    some ⟨negative && mantissa ≠ 0, mantissa, scale, h.1, h.2⟩
  else none

/-- Turn the sign around, that of zero too. -/
def negate (d : Decimal) : Decimal := { d with negative := !d.negative }

/-- Whether the decimal is below zero. -/
def isNegative (d : Decimal) : Bool := d.negative && d.mantissa ≠ 0

/-- The value in units of the last place that any decimal can have. -/
def units (d : Decimal) : Int :=
  (if d.negative then -1 else 1) * (d.mantissa * tenTo (28 - d.scale) : Nat)

theorem isNegative_iff (d : Decimal) : d.isNegative ↔ d.negative ∧ d.mantissa ≠ 0 := by
  simp [isNegative]

/-- Whether two decimals have the same value, whatever their scales. -/
def sameValue (d e : Decimal) : Bool := d.units = e.units

/-! ## Text -/

/-- The digits of the decimal, with at least one in front of the point. -/
def digits (d : Decimal) : List Char := padded (d.scale + 1) d.mantissa

/-- The decimal as text: all its places, and its sign. -/
def chars (d : Decimal) : List Char :=
  let whole := d.digits.length - d.scale
  let fraction := if d.scale = 0 then [] else '.' :: d.digits.drop whole
  (if d.negative then ['-'] else []) ++ d.digits.take whole ++ fraction

/-- The decimal as text. -/
def text (d : Decimal) : String := String.ofList d.chars

/-- A digit or a sign between digits. -/
def isDigitOrGap (c : Char) : Bool := c.isDigit || c = '_'

/-- Mantissa and scale after a digit that does not fit any more, with the text after it. -/
def roundAt (mantissa scale digit : Nat) (rest : List Char) : Option (Nat × Nat) :=
  if !rest.all isDigitOrGap then none
  else if digit < 5 then some (mantissa, scale)
  else if mantissa + 1 < mantissaBound then some (mantissa + 1, scale)
  else if scale = 0 then none
  else some ((mantissa + 5) / 10, scale - 1)

/-- Mantissa and scale of the digits so far and of the text after them. `point` tells whether the
point has been read, `anyDigit` whether a digit has. -/
def readDigits (mantissa scale : Nat) (point anyDigit : Bool) : List Char → Option (Nat × Nat)
  | [] => if anyDigit then some (mantissa, scale) else none
  | c :: cs =>
    if c.isDigit then
      let next := mantissa * 10 + digitValue c
      if next < mantissaBound && (!point || scale < 28) then
        readDigits next (if point then scale + 1 else scale) point true cs
      else if point then roundAt mantissa scale (digitValue c) cs
      else none
    else if c = '.' && !point then readDigits mantissa scale true anyDigit cs
    else if c = '_' && anyDigit then readDigits mantissa scale point true cs
    else none

/-- The decimal that a text spells: a sign, digits, and a point among them. Gaps `_` after the first
digit are passed over. -/
def ofChars? (cs : List Char) : Option Decimal := do
  let (negative, unsigned) := splitSign cs
  let (mantissa, scale) ← readDigits 0 0 false false unsigned
  ofParts? negative mantissa scale

/-- The decimal that a text spells. -/
def ofText? (s : String) : Option Decimal := ofChars? s.toList

example : (ofText? "1.10").map text = some "1.10" := by decide +kernel
example : (ofText? "-.5").map text = some "-0.5" := by decide +kernel
example : (ofText? "1_000").map text = some "1000" := by decide +kernel
example : ofText? "1.2.3" = none := by decide +kernel

end Decimal

end Daybook
