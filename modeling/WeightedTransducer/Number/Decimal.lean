import WeightedTransducer.Number.Binary

/-!
# Decimal numerals and the values nearest to them

A `Decimal` is a sign, a coefficient and a power of ten.  `Binary.ofDecimal` rounds one to the
nearest value of a format, once and correctly; numerals far beyond the format's range are decided
by their size, without computing their power of ten.  `Binary.read?` reads the text of a number:
an optional sign, then `inf`, `infinity` or `nan` in any letter case, or digits with an optional
point and an optional power of ten.
-/

namespace WeightedTransducer

/-- A decimal numeral, worth `coefficient * 10 ^ exponent`. -/
structure Decimal where
  /-- Whether the numeral has a minus sign. -/
  negative : Bool
  /-- Its digits, as a whole number. -/
  coefficient : Nat
  /-- The power of ten that its last digit counts. -/
  exponent : Int
  deriving DecidableEq, Repr

namespace Decimal

/-- How many digits the coefficient has. -/
def width (d : Decimal) : Nat :=
  (Nat.toDigits 10 d.coefficient).length

/-- The first power of ten that the magnitude does not reach. -/
def top (d : Decimal) : Int :=
  d.exponent + d.width

end Decimal

namespace Text

/-- Takes an optional sign from the front of a text; the answer says whether it is a minus. -/
def takeSign : List Char → Bool × List Char
  | '-' :: rest => (true, rest)
  | '+' :: rest => (false, rest)
  | text => (false, text)

/-- The whole number that a text of digits writes; there must be at least one. -/
def digits? (text : List Char) : Option Nat :=
  if !text.isEmpty && text.all Char.isDigit then some (Nat.ofDigitChars 10 text 0) else none

/-- The power of ten at the end of a numeral: nothing, or a letter `e` and a signed whole
number. -/
def powerOfTen? : List Char → Option Int
  | [] => some 0
  | c :: rest =>
    if c = 'e' || c = 'E' then
      let (negative, text) := takeSign rest
      (digits? text).map (signed negative ·)
    else none

/-- The fraction part of a numeral: the digits after a point, if there is one, and the rest of the
text. -/
def takeFraction : List Char → List Char × List Char
  | '.' :: rest => (rest.takeWhile Char.isDigit, rest.dropWhile Char.isDigit)
  | text => ([], text)

/-- Reads a numeral without its sign. -/
def numeral? (negative : Bool) (text : List Char) : Option Decimal :=
  let whole := text.takeWhile Char.isDigit
  let (fraction, rest) := takeFraction (text.dropWhile Char.isDigit)
  let digits := whole ++ fraction
  if digits.isEmpty then none
  else (powerOfTen? rest).map fun power =>
    ⟨negative, Nat.ofDigitChars 10 digits 0, power - fraction.length⟩

end Text

namespace Binary
variable {f : Format}

/-- The value nearest to a decimal numeral.  A numeral of at least `10 ^ (limit - scale)` reaches
the format's limit, and one below `10 ^ -(scale + 1)` is less than half a unit. -/
def ofDecimal (d : Decimal) : Binary f :=
  if d.coefficient = 0 then zero d.negative
  else if (f.limit : Int) - f.scale < d.top then infinity d.negative
  else if d.top < -(f.scale : Int) then zero d.negative
  else match d.exponent with
    | .ofNat power => round d.negative (d.coefficient * 10 ^ power * 2 ^ f.scale) 1
    | .negSucc power => round d.negative (d.coefficient * 2 ^ f.scale) (10 ^ (power + 1))

/-- Reads the text of a number. -/
def read? (text : List Char) : Option (Binary f) :=
  let (negative, body) := Text.takeSign text
  let word := body.map Char.toLower
  if word = "inf".toList || word = "infinity".toList then some (infinity negative)
  else if word = "nan".toList then some (quiet negative)
  else (Text.numeral? negative body).map ofDecimal

end Binary
end WeightedTransducer
