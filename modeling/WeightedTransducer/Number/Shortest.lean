import WeightedTransducer.Number.Decimal

/-!
# The shortest numeral of a value

A finite value has many numerals that read back as it.  `Binary.shortest` is one with the fewest
digits, and of those the nearest to the value; a numeral exactly as near from above as from below
is the upper one.  It tries one digit, two digits, and so on: of each length only the value's two
neighbours matter.  `NumberStyle` holds the remaining decisions of a printed number, and
`NumberStyle.write` prints by them.
-/

namespace WeightedTransducer

namespace Decimal

/-- Drops the zeros at the end of the coefficient; `digits` bounds their number. -/
def dropZeros (d : Decimal) : (digits : Nat) → Decimal
  | 0 => d
  | digits + 1 =>
    if d.coefficient % 10 = 0 && d.coefficient != 0 then
      dropZeros ⟨d.negative, d.coefficient / 10, d.exponent + 1⟩ digits
    else d

/-- The same number with no zero at the end of its coefficient. -/
def normalize (d : Decimal) : Decimal :=
  d.dropZeros d.width

end Decimal

namespace Binary
variable {f : Format}

/-- The exact numeral of a magnitude: a unit is `5 ^ scale * 10 ^ -scale`. -/
def exactDecimal (f : Format) (negative : Bool) (units : Nat) : Decimal :=
  ⟨negative, units * 5 ^ f.scale, -(f.scale : Int)⟩

/-- The numeral of `exact` with all but the first digits cut off, and `up` added to the last digit
that is left. -/
def neighbour (exact : Decimal) (cut up : Nat) : Decimal :=
  ⟨exact.negative, exact.coefficient / 10 ^ cut + up, exact.exponent + cut⟩

/-- The numeral with `cut` digits fewer than the exact one that reads back as the value: of the two
neighbours that might, the nearer. -/
def shortened? (value : Binary f) (exact : Decimal) (cut : Nat) : Option Decimal :=
  let lower := neighbour exact cut 0
  let upper := neighbour exact cut 1
  let nearLower := 2 * (exact.coefficient % 10 ^ cut) < 10 ^ cut
  let readsBack (d : Decimal) : Bool := ofDecimal (f := f) d = value
  if readsBack lower && (nearLower || !readsBack upper) then some lower
  else if readsBack upper then some upper
  else none

/-- The shortest numeral of a finite value; of a value that is not finite, zero. -/
def shortest (value : Binary f) : Decimal :=
  match value with
  | finite negative units _ =>
    if units = 0 then ⟨negative, 0, 0⟩
    else
      let exact := exactDecimal f negative units
      let cuts := (List.range exact.width).reverse
      ((cuts.findSome? (shortened? value exact)).getD exact).normalize
  | _ => ⟨false, 0, 0⟩

end Binary

/-- The decisions of a printed number. -/
structure NumberStyle where
  /-- Which powers of ten, those of the first digit, are written out with zeros; the others are
  written after the letter `e`. -/
  positional : Int → Bool
  /-- Whether a whole number written out ends in `.0`. -/
  showsPoint : Bool
  /-- The word for infinity. -/
  infinity : String
  /-- The word for a value that is not a number. -/
  nan : String

namespace NumberStyle

/-- Digits with the point where the power of ten of the last digit puts it. -/
def layOut (style : NumberStyle) (digits : List Char) (exponent : Int) : List Char :=
  match exponent with
  | .ofNat power =>
    digits ++ List.replicate power '0' ++ if style.showsPoint then ['.', '0'] else []
  | .negSucc less =>
    let places := less + 1
    let padded := List.replicate (places + 1 - digits.length) '0' ++ digits
    padded.take (padded.length - places) ++ '.' :: padded.drop (padded.length - places)

/-- Digits with a point after the first, and the power of ten of the first digit. -/
def scientific (digits : List Char) (leading : Int) : List Char :=
  let mantissa := match digits with
    | first :: second :: rest => first :: '.' :: second :: rest
    | short => short
  mantissa ++ 'e' :: (toString leading).toList

/-- The text of a numeral without its sign. -/
def magnitude (style : NumberStyle) (d : Decimal) : List Char :=
  let digits := Nat.toDigits 10 d.coefficient
  let leading := d.top - 1
  if d.coefficient = 0 || style.positional leading then style.layOut digits d.exponent
  else scientific digits leading

/-- A minus sign where there is one. -/
def sign (negative : Bool) : List Char :=
  if negative then ['-'] else []

/-- The text of a value. -/
def write {f : Format} (style : NumberStyle) (value : Binary f) : List Char :=
  match value with
  | .nan .. => style.nan.toList
  | .infinity negative => sign negative ++ style.infinity.toList
  | .finite .. => sign value.shortest.negative ++ style.magnitude value.shortest

end NumberStyle
end WeightedTransducer
