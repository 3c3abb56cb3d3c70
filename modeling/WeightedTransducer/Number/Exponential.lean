import WeightedTransducer.Number.Binary

/-!
# Exponential and logarithm of 64-bit values

`Elementary` is an exponential and a logarithm to calculate with.  No standard fixes their last bit,
and platforms differ in it, so the weights that need them are defined over any.

`Elementary.computed` is the instance that runs.  `Double.decay` is `e ^ -x` for `x ≥ 0` and
`Double.logOnePlus` is `ln (1 + y)` for `0 ≤ y ≤ 1`.  Both are computed on fixed-point numbers with
`Fixed.places` bits after the point, far more than a 64-bit value can show, and then rounded once.
`e ^ -x` is a power of two times the reciprocal of the exponential series of what `x` has beyond a
multiple of `ln 2`; `ln (1 + y)` is twice the series of the inverse hyperbolic tangent of
`y / (2 + y)`.  Every fixed-point operation rounds down.
-/

namespace WeightedTransducer

/-- Natural numbers that count units of `2 ^ -Fixed.places`. -/
abbrev Fixed := Nat

namespace Fixed

/-- How many bits stand after the point. -/
def places : Nat := 256

/-- The number one. -/
def one : Fixed := 2 ^ places

/-- The product, rounded down. -/
def mul (a b : Fixed) : Fixed := a * b / one

/-- The quotient, rounded down. -/
def div (a b : Fixed) : Fixed := a * one / b

/-- The fixed-point number of a magnitude in 64-bit units, rounded down. -/
def ofUnits (units : Nat) : Fixed :=
  units / 2 ^ (Format.double.scale - places)

/-- The 64-bit value nearest to a fixed-point number divided by `2 ^ halvings`. -/
def toDouble (x : Fixed) (halvings : Nat) : Double :=
  Binary.round false (x * 2 ^ (Format.double.scale - places)) (2 ^ halvings)

/-! ## The logarithm -/

/-- `power + power * square + power * square² + …`, the terms divided by `k`, `k + 2`, …. -/
def oddSeries (square : Fixed) : (terms k : Nat) → (power : Fixed) → Fixed
  | 0, _, _ => 0
  | terms + 1, k, power => power / k + oddSeries square terms (k + 2) (mul power square)

/-- `ln (1 + y)` for `0 ≤ y ≤ 1`; the 90th term of the series is below the last bit. -/
def logOnePlus (y : Fixed) : Fixed :=
  let z := div y (2 * one + y)
  2 * oddSeries (mul z z) 90 1 z

/-- The logarithm of two. -/
def logTwo : Fixed := logOnePlus one

/-! ## The exponential -/

/-- The first `terms` factors of `1 + x/k * (1 + x/(k+1) * (1 + …))`, which is the series of the
exponential from its `k`-th term on. -/
def exponentialTail (x : Fixed) : (terms k : Nat) → Fixed
  | 0, _ => one
  | terms + 1, k => one + mul x (exponentialTail x terms (k + 1)) / k

/-- `e ^ x` for `0 ≤ x ≤ ln 2`; the 60th term of the series is below the last bit. -/
def exponential (x : Fixed) : Fixed :=
  exponentialTail x 60 1

end Fixed

namespace Double

/-- `e ^ -x` for `x ≥ 0`; from 1024 on it is far below every positive value. -/
def decay : Double → Double
  | .nan .. => .quiet false
  | .infinity _ => Binary.zero false
  | .finite _ units _ =>
    if 1024 * 2 ^ Format.double.scale < units then Binary.zero false
    else
      let x := Fixed.ofUnits units
      (Fixed.div Fixed.one (Fixed.exponential (x % Fixed.logTwo))).toDouble (x / Fixed.logTwo)

/-- `ln (1 + y)` for `0 ≤ y ≤ 1`.  Below `2 ^ -64` the nearest value is `y` itself. -/
def logOnePlus : Double → Double
  | .finite negative units h =>
    if units < 2 ^ (Format.double.scale - 64) then .finite negative units h
    else (Fixed.logOnePlus (Fixed.ofUnits units)).toDouble 0
  | other => other

end Double

/-- The functions of 64-bit values that are not given by a rounded exact result. -/
class Elementary where
  /-- An approximation of `e ^ x`. -/
  exp : Double → Double
  /-- An approximation of `ln (1 + y)`. -/
  logOnePlus : Double → Double

/-- The nearest values, for `x ≤ 0` and for `0 ≤ y ≤ 1`. -/
instance Elementary.computed : Elementary where
  exp x := Double.decay x.neg
  logOnePlus := Double.logOnePlus
end WeightedTransducer
