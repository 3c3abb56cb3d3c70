import WeightedTransducer.Number.Format

/-!
# Binary floating-point values

`Binary f` holds the values of the format `f`: two infinities, the finite values, each a sign and a
magnitude of the format, and the values that are not a number, each a sign and a payload.  Zero has
both signs.  Arithmetic is exact on whole numbers of units and rounds once (`Binary.round`); where
it has no result it gives the positive quiet value (`Binary.quiet`).  The comparisons
`==`, `≤` and `<` (`Binary.same`, `Binary.le`, `Binary.lt`) go by `Binary.place`, the position on
the line of units, at which the two zeros coincide and which a value that is not a number lacks.
-/

namespace WeightedTransducer

/-- The values of a binary floating-point format. -/
inductive Binary (f : Format) where
  /-- A value that is not a number: its sign and its payload. -/
  | nan (negative : Bool) (payload : Nat) (marks : f.Marks payload)
  /-- An infinity of either sign. -/
  | infinity (negative : Bool)
  /-- A finite value: its sign and its magnitude in units. -/
  | finite (negative : Bool) (units : Nat) (holds : f.Holds units)
  deriving DecidableEq

/-- The values of 32 bits. -/
abbrev Single := Binary Format.single

/-- The values of 64 bits. -/
abbrev Double := Binary Format.double

/-- A magnitude with its sign, as an integer. -/
def signed (negative : Bool) (magnitude : Nat) : Int :=
  if negative then -(magnitude : Int) else magnitude

/-- A magnitude that is not zero has different places under different signs. -/
theorem sign_eq_of_signed_eq {s t : Bool} {magnitude : Nat} (hpos : 0 < magnitude)
    (h : signed s magnitude = signed t magnitude) : s = t := by
  unfold signed at h
  cases s <;> cases t <;> simp at h ⊢ <;> omega

namespace Binary
variable {f : Format}

theorem natAbs_signed (negative : Bool) (magnitude : Nat) :
    (signed negative magnitude).natAbs = magnitude := by
  cases negative
  · exact Int.natAbs_natCast magnitude
  · exact (Int.natAbs_neg _).trans (Int.natAbs_natCast magnitude)

/-- The zero of either sign. -/
def zero (negative : Bool) : Binary f :=
  .finite negative 0 f.holds_zero

/-- The quiet value of either sign that is not a number. -/
abbrev quiet (negative : Bool) : Binary f :=
  .nan negative f.quietPayload f.marks_quietPayload

instance : Inhabited (Binary f) := ⟨quiet false⟩

/-- The value nearest to `num / den` units with the given sign; a half goes to the even neighbour,
and a magnitude that reaches the limit becomes infinite. -/
def round (negative : Bool) (num den : Nat) : Binary f :=
  if h : f.roundUnits num den < 2 ^ f.limit then
    .finite negative (f.roundUnits num den) (f.holds_roundUnits h)
  else
    .infinity negative

/-- The value nearest to a natural number. -/
def ofNat (n : Nat) : Binary f :=
  round false (n * 2 ^ f.scale) 1

/-- Whether a value is not a number. -/
def isNan : Binary f → Bool
  | nan .. => true
  | _ => false

/-- Whether a value is finite. -/
def isFinite : Binary f → Bool
  | finite .. => true
  | _ => false

/-! ## Order -/

/-- The position of a value on the line of units; an infinity stands at the format's limit. -/
def place : Binary f → Option Int
  | nan .. => none
  | infinity negative => some (signed negative (2 ^ f.limit))
  | finite negative units _ => some (signed negative units)

/-- What is not a number is what has no position. -/
theorem isNan_eq (a : Binary f) : a.isNan = a.place.isNone := by
  cases a <;> rfl

/-- Equality of positions: the two zeros are the same, and what is not a number is the same as
nothing. -/
def same (a b : Binary f) : Bool :=
  match a.place, b.place with
  | some x, some y => x == y
  | _, _ => false

/-- The order of positions; what is not a number stands in no relation. -/
def le (a b : Binary f) : Bool :=
  match a.place, b.place with
  | some x, some y => x ≤ y
  | _, _ => false

/-- The strict order of positions. -/
def lt (a b : Binary f) : Bool :=
  match a.place, b.place with
  | some x, some y => x < y
  | _, _ => false

/-! ## Arithmetic -/

/-- The value of the other sign. -/
def neg : Binary f → Binary f
  | nan negative payload h => nan (!negative) payload h
  | infinity negative => infinity !negative
  | finite negative units h => finite (!negative) units h

/-- The rounded sum.  Finite values that cancel give the positive zero; only two negative zeros
give the negative one. -/
def add : Binary f → Binary f → Binary f
  | nan .., _ | _, nan .. => quiet false
  | infinity s, infinity t => if s = t then infinity s else quiet false
  | infinity s, finite .. => infinity s
  | finite .., infinity t => infinity t
  | finite s m _, finite t n _ =>
    let total := signed s m + signed t n
    if total = 0 then zero (s && t) else round (total < 0) total.natAbs 1

/-- The positive zero is added to values at one place with one result. -/
theorem add_zero_congr {a b : Binary f} (h : a.place = b.place) :
    a.add (zero false) = b.add (zero false) := by
  have hinfinite (s t : Bool) {units : Nat} (holds : f.Holds units) :
      signed s (2 ^ f.limit) ≠ signed t units := by
    intro heq
    have hunits := congrArg Int.natAbs heq
    rw [natAbs_signed, natAbs_signed] at hunits
    exact Nat.ne_of_gt holds.below hunits
  cases a <;> cases b
  case nan.nan => rfl
  case infinity.infinity s t =>
    rw [sign_eq_of_signed_eq (Nat.two_pow_pos f.limit) (Option.some.inj h)]
  case infinity.finite s t n hn => exact absurd (Option.some.inj h) (hinfinite s t hn)
  case finite.infinity s m hm t => exact absurd (Option.some.inj h).symm (hinfinite t s hm)
  case finite.finite s m hm t n hn =>
    have hsigned : signed s m = signed t n := Option.some.inj h
    unfold add zero
    dsimp only
    rw [hsigned, Bool.and_false, Bool.and_false]
  all_goals cases h

/-- The rounded difference. -/
def sub (a b : Binary f) : Binary f :=
  add a (neg b)

/-- The rounded product. -/
def mul : Binary f → Binary f → Binary f
  | nan .., _ | _, nan .. => quiet false
  | infinity s, infinity t => infinity (s != t)
  | infinity s, finite t n _ => if n = 0 then quiet false else infinity (s != t)
  | finite s m _, infinity t => if m = 0 then quiet false else infinity (s != t)
  | finite s m _, finite t n _ => round (s != t) (m * n) (2 ^ f.scale)

/-- The rounded quotient. -/
def div : Binary f → Binary f → Binary f
  | nan .., _ | _, nan .. => quiet false
  | infinity _, infinity _ => quiet false
  | infinity s, finite t _ _ => infinity (s != t)
  | finite s _ _, infinity t => zero (s != t)
  | finite s m _, finite t n _ =>
    if n = 0 then if m = 0 then quiet false else infinity (s != t)
    else round (s != t) (m * 2 ^ f.scale) n

/-- The greatest whole number that is not greater. -/
def floor : Binary f → Binary f
  | finite negative units h =>
    let whole := units / 2 ^ f.scale
    if units % 2 ^ f.scale = 0 then finite negative units h
    else round negative ((if negative then whole + 1 else whole) * 2 ^ f.scale) 1
  | other => other

/-- The nearest value of another format. -/
def toFormat (g : Format) : Binary f → Binary g
  | nan .. => quiet false
  | infinity negative => infinity negative
  | finite negative units _ => round negative (units * 2 ^ g.scale) (2 ^ f.scale)

end Binary

/-- The interchange pattern of a 32-bit value: the sign, eight bits of exponent, and the 23 bits
after the leading one, or the payload. -/
def Single.toBits : Single → UInt32
  | .nan negative payload _ =>
    (if negative then 0x80000000 else 0) + 0x7f800000 + UInt32.ofNat payload
  | .infinity negative => (if negative then 0x80000000 else 0) + 0x7f800000
  | .finite negative units _ =>
    let shift := Format.single.grain units
    (if negative then 0x80000000 else 0) + UInt32.ofNat (shift * 2 ^ 23 + units / 2 ^ shift)

end WeightedTransducer
