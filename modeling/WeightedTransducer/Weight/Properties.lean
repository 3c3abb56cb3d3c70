/-!
# Algebraic properties of a weight type

A weight type declares which laws its operations satisfy as a set of `Properties`, one bit each.
The set is what algorithms go by; nothing is inferred from values.
-/

namespace WeightedTransducer

/-- A set of algebraic properties. -/
structure Properties where
  /-- The set, one bit for each property. -/
  bits : UInt64
  deriving DecidableEq, Repr, Inhabited

namespace Properties

/-- No property. -/
def none : Properties := ⟨0⟩

/-- Multiplication from the left distributes over addition. -/
def leftSemiring : Properties := ⟨1⟩

/-- Multiplication from the right distributes over addition. -/
def rightSemiring : Properties := ⟨2⟩

/-- Multiplication from either side distributes over addition. -/
def semiring : Properties := ⟨3⟩

/-- Multiplication is commutative. -/
def commutative : Properties := ⟨4⟩

/-- Adding a value to itself changes nothing. -/
def idempotent : Properties := ⟨8⟩

/-- A sum is one of its two terms. -/
def path : Properties := ⟨16⟩

/-- The properties that both sets have. -/
def inter (p q : Properties) : Properties := ⟨p.bits &&& q.bits⟩

/-- The properties that one of the sets has. -/
def union (p q : Properties) : Properties := ⟨p.bits ||| q.bits⟩

/-- Whether every property of the second set is in the first. -/
def contains (p q : Properties) : Bool := p.bits &&& q.bits == q.bits

/-- What two sets have in common contains what both contain. -/
theorem contains_inter (p q r : Properties) :
    (p.inter q).contains r = (p.contains r && q.contains r) := by
  rw [Bool.eq_iff_iff, Bool.and_eq_true]
  simp only [contains, inter, beq_iff_eq]
  constructor
  · intro h
    constructor
    · calc p.bits &&& r.bits = p.bits &&& (p.bits &&& q.bits &&& r.bits) := by rw [h]
        _ = p.bits &&& q.bits &&& r.bits := by
          rw [← UInt64.and_assoc, ← UInt64.and_assoc, UInt64.and_self]
        _ = r.bits := h
    · calc q.bits &&& r.bits = q.bits &&& (p.bits &&& q.bits &&& r.bits) := by rw [h]
        _ = p.bits &&& q.bits &&& r.bits := by
          rw [UInt64.and_comm p.bits, ← UInt64.and_assoc, ← UInt64.and_assoc, UInt64.and_self]
        _ = r.bits := h
  · rintro ⟨hp, hq⟩
    rw [UInt64.and_assoc, hq, hp]

/-- Whether the set has no property. -/
def isEmpty (p : Properties) : Bool := p.bits == 0

instance : AndOp Properties := ⟨inter⟩

instance : OrOp Properties := ⟨union⟩

/-- The properties and their names, in order. -/
def names : List (Properties × String) :=
  [(leftSemiring, "left-semiring"), (rightSemiring, "right-semiring"),
    (commutative, "commutative"), (idempotent, "idempotent"), (path, "path")]

/-- The names of the properties in the set, with bars between, or `none` for the empty set. -/
def text (p : Properties) : String :=
  if p.isEmpty then "none"
  else "|".intercalate ((names.filter (p.contains ·.1)).map Prod.snd)

end Properties
end WeightedTransducer
