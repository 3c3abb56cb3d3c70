import WeightedTransducer.Number.Decimal
import WeightedTransducer.Number.Exponential
import WeightedTransducer.Proofs.Number.Rounding
import WeightedTransducer.Proofs.Number.Whole

/-!
# Ranges of the exponential and the logarithm

Nothing is known of the last bits of an exponential or a logarithm, but that they stay in their
ranges can be relied on (`Elementary.Bounded`): the exponential of what is not positive lies between
zero and one, and `ln (1 + y)` for such a value between zero and `ln 2`.

The functions that run are no exception (`Elementary.bounded_computed`).  Every fixed-point
operation they are made of keeps the order, so `ln (1 + y)` is greatest for the greatest `y`
(`Fixed.logOnePlus_mono`), and rounding to 64 bits keeps the order once more.
-/

namespace WeightedTransducer

/-! ## Ranges -/

namespace Binary
variable {f : Format}

/-- A value between two others. -/
def Between (value low high : Binary f) : Prop :=
  low.le value = true ∧ value.le high = true

instance (value low high : Binary f) : Decidable (value.Between low high) :=
  inferInstanceAs (Decidable (_ ∧ _))

/-- What lies between zero and a finite value is finite and has no greater magnitude. -/
theorem Between.exists_units {value : Binary f} {n : Nat} {hn : f.Holds n}
    (h : value.Between (zero false) (finite false n hn)) :
    ∃ negative units holds, value = finite negative units holds ∧ units ≤ n := by
  obtain ⟨hlower, hupper⟩ := h
  cases value with
  | nan => cases hlower
  | infinity negative =>
    have hle : signed negative (2 ^ f.limit) ≤ n := of_decide_eq_true hupper
    have hnonneg : 0 ≤ signed negative (2 ^ f.limit) := of_decide_eq_true hlower
    have hmagnitude := natAbs_signed negative (2 ^ f.limit)
    have := hn.below
    omega
  | finite negative units holds =>
    have hle : signed negative units ≤ n := of_decide_eq_true hupper
    have hnonneg : 0 ≤ signed negative units := of_decide_eq_true hlower
    have hmagnitude := natAbs_signed negative units
    exact ⟨negative, units, holds, rfl, by omega⟩

theorem le_of_units_le {negative : Bool} {m n : Nat} {hm : f.Holds m} {hn : f.Holds n}
    (h : m ≤ n) : (finite negative m hm).le (finite false n hn) = true := by
  have hplaces : signed negative m ≤ signed false n := by
    have := natAbs_signed negative m
    show _ ≤ (n : Int)
    omega
  exact decide_eq_true hplaces

end Binary

namespace Double

/-- One. -/
def one : Double := Binary.ofNat 1

/-- The nearest value to `ln 2`; it is less than `ln 2`. -/
def logTwo : Double := Binary.ofDecimal ⟨false, 693147180559945309417232121458, -30⟩

end Double

/-- An exponential and a logarithm that stay in their ranges. -/
structure Elementary.Bounded [Elementary] : Prop where
  /-- The exponential of what is not positive lies between zero and one. -/
  exp {x : Double} (h : x.le (.zero false) = true) :
    (Elementary.exp x).Between (.zero false) Double.one
  /-- The logarithm of what is added to one lies between zero and `ln 2` if no more than one is. -/
  logOnePlus {y : Double} (h : y.Between (.zero false) Double.one) :
    (Elementary.logOnePlus y).Between (.zero false) Double.logTwo

/-! ## Fixed-point operations keep the order -/

namespace Fixed

theorem mul_mono {a a' b b' : Fixed} (ha : a ≤ a') (hb : b ≤ b') : mul a b ≤ mul a' b' :=
  Nat.div_le_div_right (Nat.mul_le_mul ha hb)

theorem oddSeries_mono {square square' : Fixed} (hsquare : square ≤ square') (terms k : Nat)
    {power power' : Fixed} (hpower : power ≤ power') :
    oddSeries square terms k power ≤ oddSeries square' terms k power' := by
  induction terms generalizing k power power' with
  | zero => exact Nat.le_refl 0
  | succ terms ih =>
    exact Nat.add_le_add (Nat.div_le_div_right hpower) (ih (k + 2) (mul_mono hpower hsquare))

/-- A quotient grows if its dividend grows more than its divisor. -/
theorem div_le_div_of_mul_le {a b c d : Nat} (hb : 0 < b) (hd : 0 < d) (h : a * d ≤ c * b) :
    a / b ≤ c / d := by
  rw [Nat.le_div_iff_mul_le hd]
  refine Nat.le_of_mul_le_mul_right ?_ hb
  calc a / b * d * b
      = a / b * b * d := Nat.mul_right_comm _ _ _
    _ ≤ a * d := Nat.mul_le_mul_right d (Nat.div_mul_le_self a b)
    _ ≤ c * b := h

/-- **The logarithm keeps the order.** -/
theorem logOnePlus_mono {y y' : Fixed} (h : y ≤ y') : logOnePlus y ≤ logOnePlus y' := by
  have hone : 0 < 2 * one := by decide
  have hquotient : div y (2 * one + y) ≤ div y' (2 * one + y') := by
    refine div_le_div_of_mul_le (Nat.add_pos_left hone y) (Nat.add_pos_left hone y') ?_
    calc y * one * (2 * one + y')
        = y * (one * (2 * one)) + y * one * y' := by rw [Nat.mul_add, Nat.mul_assoc]
      _ ≤ y' * (one * (2 * one)) + y' * one * y := by
        refine Nat.add_le_add (Nat.mul_le_mul_right _ h) (Nat.le_of_eq ?_)
        rw [Nat.mul_right_comm y, Nat.mul_right_comm y', Nat.mul_comm y y']
      _ = y' * one * (2 * one + y) := by rw [Nat.mul_add, Nat.mul_assoc y' one (2 * one)]
  exact Nat.mul_le_mul_left 2 (oddSeries_mono (mul_mono hquotient hquotient) 90 1 hquotient)

theorem div_le_one {a b : Fixed} (h : a ≤ b) : div a b ≤ one :=
  Nat.div_le_of_le_mul (Nat.mul_le_mul_right one h)

theorem one_le_exponentialTail (x : Fixed) (terms k : Nat) : one ≤ exponentialTail x terms k := by
  cases terms with
  | zero => exact Nat.le_refl one
  | succ terms => exact Nat.le_add_right _ _

theorem zero_le_toDouble (x : Fixed) (halvings : Nat) :
    (Binary.zero false).le (toDouble x halvings) = true :=
  Binary.zero_le_round _ _

/-- Rounding keeps the order, and halving makes nothing greater. -/
theorem toDouble_le_toDouble {x bound : Fixed} (h : x ≤ bound) (halvings : Nat) :
    (toDouble x halvings).le (toDouble bound 0) = true := by
  refine Binary.round_le_round ?_
  rw [Nat.pow_zero, ← Format.double.roundUnits_mul_right _ (Nat.two_pow_pos halvings)]
  refine Format.double.roundUnits_mono _ (Nat.le_trans (Nat.mul_le_mul_right _ h) ?_)
  exact Nat.le_mul_of_pos_right _ (Nat.two_pow_pos halvings)

theorem toDouble_one : toDouble one 0 = Double.one := by
  decide +kernel

theorem toDouble_logTwo : toDouble logTwo 0 = Double.logTwo := by
  decide +kernel

end Fixed

/-! ## The functions that run -/

namespace Double

/-- The exponential of what is negated and not negative lies between zero and one. -/
theorem decay_between {x : Double} (h : x.isNan = false) :
    (decay x).Between (.zero false) one := by
  have hzero : (Binary.zero false : Double).Between (.zero false) one := by
    decide +kernel
  cases x with
  | nan => cases h
  | infinity => exact hzero
  | finite negative units holds =>
    unfold decay
    dsimp only
    split
    · exact hzero
    · have hone := Fixed.div_le_one
        (Fixed.one_le_exponentialTail (Fixed.ofUnits units % Fixed.logTwo) 60 1)
      rw [← Fixed.toDouble_one]
      exact ⟨Fixed.zero_le_toDouble _ _, Fixed.toDouble_le_toDouble hone _⟩

/-- The magnitudes up to which a value is its own logarithm. -/
theorem holds_small : Format.double.Holds (2 ^ (Format.double.scale - 64)) where
  below := Nat.pow_lt_pow_right (by decide) (by decide)
  few := ⟨1, _, by decide, (Nat.one_mul _).symm⟩

theorem logOnePlus_between {y : Double} (h : y.Between (.zero false) one) :
    (logOnePlus y).Between (.zero false) logTwo := by
  have hone : one = .finite false _ _ := Binary.ofNat_eq (f := .double) (by decide) (by decide)
  obtain ⟨negative, units, holds, rfl, hunits⟩ := Binary.Between.exists_units (hone ▸ h)
  unfold logOnePlus
  dsimp only
  split
  · rename_i hsmall
    have hlogTwo : (Binary.finite false _ holds_small : Double).le logTwo = true := by
      decide +kernel
    exact ⟨h.1, Binary.le_trans (Binary.le_of_units_le (Nat.le_of_lt hsmall)) hlogTwo⟩
  · have hfixed : Fixed.ofUnits units ≤ Fixed.one := by
      refine Nat.div_le_of_le_mul (Nat.le_trans hunits ?_)
      decide +kernel
    rw [← Fixed.toDouble_logTwo]
    exact ⟨Fixed.zero_le_toDouble _ _, Fixed.toDouble_le_toDouble (Fixed.logOnePlus_mono hfixed) 0⟩

end Double

/-- **The functions that run stay in their ranges.** -/
theorem Elementary.bounded_computed : @Elementary.Bounded Elementary.computed where
  exp {x} h := by
    refine Double.decay_between ?_
    cases x with
    | nan => cases h
    | infinity | finite => rfl
  logOnePlus := Double.logOnePlus_between

end WeightedTransducer
