import WeightedTransducer.Proofs.Number.Elementary
import WeightedTransducer.Weight.Log

/-!
# Sums of logarithmic costs stay in range

A sum of logarithmic costs is the lesser cost minus a correction, computed in 64 bits.  The
correction is `ln (1 + e ^ x)` for the difference `x` of the two costs, which is not positive
(`Cost.sub_le_zero`); so it is at most `ln 2` where the exponential and the logarithm stay in their
ranges, and that is far less than half the step between the greatest costs.  The sum does not come
near the brink, and it is a cost (`Log.isMember_plus`).
-/

namespace WeightedTransducer

/-! ## Values within a bound -/

namespace Binary
variable {f : Format}

/-- A finite value whose magnitude is at most `bound`. -/
def Within (bound : Nat) (value : Binary f) : Prop :=
  ∃ negative units holds, value = finite negative units holds ∧ units ≤ bound

theorem Within.mono {bound bound' : Nat} {value : Binary f} (h : value.Within bound)
    (hle : bound ≤ bound') : value.Within bound' := by
  obtain ⟨negative, units, holds, rfl, hunits⟩ := h
  exact ⟨negative, units, holds, rfl, Nat.le_trans hunits hle⟩

theorem Within.isFinite {bound : Nat} {value : Binary f} (h : value.Within bound) :
    value.isFinite = true := by
  obtain ⟨negative, units, holds, rfl, -⟩ := h
  rfl

theorem Within.neg {bound : Nat} {value : Binary f} (h : value.Within bound) :
    value.neg.Within bound := by
  obtain ⟨negative, units, holds, rfl, hunits⟩ := h
  exact ⟨!negative, units, holds, rfl, hunits⟩

/-- A quotient with fewer bits than the limit is rounded to a finite value. -/
theorem within_round {negative : Bool} {num den : Nat} (bits : Nat) (hbits : bits < f.limit)
    (h : num / den < 2 ^ bits) :
    (round negative num den : Binary f).Within (num / den + 2 ^ (bits - f.precision)) := by
  have hround := f.roundUnits_le_add h
  have hbelow : f.roundUnits num den < 2 ^ f.limit := by
    calc f.roundUnits num den
        ≤ num / den + 2 ^ (bits - f.precision) := hround
      _ < 2 ^ bits + 2 ^ bits :=
        Nat.add_lt_add_of_lt_of_le h (Nat.pow_le_pow_right (by decide) (Nat.sub_le _ _))
      _ = 2 ^ (bits + 1) := by rw [Nat.pow_succ, Nat.mul_two]
      _ ≤ 2 ^ f.limit := Nat.pow_le_pow_right (by decide) hbits
  unfold round
  rw [dif_pos hbelow]
  exact ⟨negative, _, _, rfl, hround⟩

theorem within_add {a b : Binary f} {bound bound' : Nat} (ha : a.Within bound)
    (hb : b.Within bound') (bits : Nat) (hbits : bits < f.limit) (h : bound + bound' < 2 ^ bits) :
    (a.add b).Within (bound + bound' + 2 ^ (bits - f.precision)) := by
  obtain ⟨s, m, hm, rfl, hmle⟩ := ha
  obtain ⟨t, n, hn, rfl, hnle⟩ := hb
  have htotal : (signed s m + signed t n).natAbs ≤ bound + bound' := by
    have := Int.natAbs_add_le (signed s m) (signed t n)
    rw [natAbs_signed, natAbs_signed] at this
    omega
  unfold add
  dsimp only
  split
  · exact ⟨s && t, 0, _, rfl, Nat.zero_le _⟩
  · refine (within_round bits hbits (Nat.lt_of_le_of_lt ?_ h)).mono ?_ <;> rw [Nat.div_one]
    · exact htotal
    · omega

end Binary

/-! ## The correction -/

/-- What keeps the order of magnitudes and zero keeps the order of numbers with a sign. -/
theorem signed_mono {g : Nat → Nat} (hmono : ∀ {m n}, m ≤ n → g m ≤ g n) (hzero : g 0 = 0)
    {s t : Bool} {m n : Nat} (h : signed s m ≤ signed t n) : signed s (g m) ≤ signed t (g n) := by
  cases s <;> cases t
  case false.false => exact Int.ofNat_le.mpr (hmono (Int.ofNat_le.mp h))
  case false.true =>
    -- only zero is not less than a number below zero
    have hle : (m : Int) ≤ -(n : Int) := h
    obtain ⟨rfl, rfl⟩ : m = 0 ∧ n = 0 := by omega
    rw [hzero]
    exact Int.le_refl 0
  case true.false =>
    show -(g m : Int) ≤ g n
    omega
  case true.true =>
    exact Int.neg_le_neg (Int.ofNat_le.mpr (hmono (Int.ofNat_le.mp (Int.neg_le_neg_iff.mp h))))

namespace Binary
variable {f g : Format}

/-- Another format keeps the order of finite values. -/
theorem toFormat_le_toFormat {a b : Binary f} (ha : a.isFinite = true) (hb : b.isFinite = true)
    (h : a.le b = true) : (a.toFormat g).le (b.toFormat g) = true := by
  cases a with
  | nan | infinity => cases ha
  | finite s m hm =>
    cases b with
    | nan | infinity => cases hb
    | finite t n hn =>
      have hplaces : signed s m ≤ signed t n := of_decide_eq_true h
      unfold toFormat le
      dsimp only
      rw [place_round, place_round]
      refine decide_eq_true (signed_mono (g := fun units =>
        min (g.roundUnits (units * 2 ^ g.scale) (2 ^ f.scale)) (2 ^ g.limit)) ?_ ?_ hplaces)
      · intro m n hle
        have := g.roundUnits_mono (2 ^ f.scale) (Nat.mul_le_mul_right (2 ^ g.scale) hle)
        omega
      · have hzero := g.roundUnits_mul_right 0 (Nat.two_pow_pos f.scale)
        rw [Nat.zero_mul, g.roundUnits_eq_self g.holds_zero] at hzero
        rw [Nat.zero_mul, hzero, Nat.zero_min]

/-- A value minus one that is not less is not positive. -/
theorem sub_le_zero {a b : Binary f} (ha : a.isFinite = true) (hb : b.isFinite = true)
    (h : a.le b = true) : (a.sub b).le (zero false) = true := by
  cases a with
  | nan | infinity => cases ha
  | finite s m hm =>
    cases b with
    | nan | infinity => cases hb
    | finite t n hn =>
      have hplaces : signed s m ≤ signed t n := of_decide_eq_true h
      have hneg : signed (!t) n = -signed t n := by cases t <;> simp [signed]
      have htotal : signed s m + signed (!t) n ≤ signed false 0 := by
        rw [hneg]
        exact Int.sub_nonpos_of_le hplaces
      have hplace := nearestPlace_mono (f := f) htotal
      rw [nearestPlace_signed false f.holds_zero] at hplace
      unfold sub neg le
      dsimp only
      rw [place_add_finite]
      exact decide_eq_true hplace

end Binary

/-- What is at most `ln 2` is at most one. -/
theorem Double.within_of_between_logTwo {y : Double} (h : y.Between (.zero false) logTwo) :
    y.Within (2 ^ Format.double.scale) := by
  have hone : one = .finite false _ _ := Binary.ofNat_eq (f := .double) (by decide) (by decide)
  have hle : logTwo.le one = true := by decide +kernel
  have hbetween : y.Between (.zero false) one := ⟨h.1, Binary.le_trans h.2 hle⟩
  obtain ⟨negative, units, holds, rfl, hunits⟩ := Binary.Between.exists_units (hone ▸ hbetween)
  rw [Nat.one_mul] at hunits
  exact ⟨negative, units, holds, rfl, hunits⟩

/-! ## The sum -/

namespace Cost

theorem isMember_of_isFinite {cost : Single} (h : cost.isFinite = true) : isMember cost = true := by
  cases cost with
  | finite => rfl
  | nan | infinity => cases h

theorem same_zero_zero : zero.same zero = true := by
  simp [Binary.same, zero, Binary.place]

/-- A cost is infinite or finite. -/
theorem eq_zero_or_isFinite {cost : Single} (h : isMember cost = true) :
    cost = zero ∨ cost.isFinite = true := by
  cases cost with
  | nan => cases h
  | infinity negative =>
    cases negative
    · exact .inl rfl
    · cases h
  | finite => exact .inr rfl

theorem isFinite_of_isMember {cost : Single} (h : isMember cost = true)
    (hzero : ¬ cost.same zero = true) : cost.isFinite = true :=
  (eq_zero_or_isFinite h).resolve_left fun heq => hzero (heq ▸ same_zero_zero)

/-- Of two finite costs one is not greater. -/
theorem le_of_not_le {a b : Single} (ha : a.isFinite = true) (hb : b.isFinite = true)
    (h : ¬ a.le b = true) : b.le a = true := by
  cases a with
  | nan | infinity => cases ha
  | finite s m hm =>
    cases b with
    | nan | infinity => cases hb
    | finite t n hn =>
      have hplaces : ¬ signed s m ≤ signed t n := fun hle => h (decide_eq_true hle)
      exact decide_eq_true (Int.le_of_lt (Int.not_le.mp hplaces))

/-- The magnitude of the greatest costs in 64 bits, and what rounding may add to it. -/
def wideBound : Nat :=
  Format.single.greatest * (2 ^ Format.double.scale / 2 ^ Format.single.scale)
    + 2 ^ (1202 - Format.double.precision)

theorem within_toFormat {cost : Single} (h : cost.isFinite = true) :
    (cost.toFormat .double : Double).Within wideBound := by
  cases cost with
  | nan | infinity => cases h
  | finite negative units holds =>
    have hquotient : units * 2 ^ Format.double.scale / 2 ^ Format.single.scale ≤
        Format.single.greatest * (2 ^ Format.double.scale / 2 ^ Format.single.scale) := by
      rw [Nat.mul_div_assoc _ (Nat.pow_dvd_pow 2 (by decide))]
      exact Nat.mul_le_mul_right _ holds.le_greatest
    refine (Binary.within_round 1202 (by decide) (Nat.lt_of_le_of_lt hquotient ?_)).mono ?_
    · decide +kernel
    · exact Nat.add_le_add_right hquotient _

/-- What is less than a step greater than the greatest costs is rounded to a cost. -/
theorem isMember_toFormat {value : Double} {bound : Nat} (h : value.Within bound)
    (hbound : bound * 2 ^ Format.single.scale < Format.single.brink * 2 ^ Format.double.scale) :
    isMember (value.toFormat .single) = true := by
  obtain ⟨negative, units, holds, rfl, hunits⟩ := h
  refine isMember_of_isFinite ((Binary.isFinite_round_iff (by decide) (Nat.two_pow_pos _)).mpr ?_)
  exact Nat.lt_of_le_of_lt (Nat.mul_le_mul_right _ hunits) hbound

end Cost

namespace Log
variable [Elementary]

/-- The sum of two finite costs is a cost. -/
theorem isMember_combine (h : Elementary.Bounded) {low high : Single} (hlow : low.isFinite = true)
    (hhigh : high.isFinite = true) (hle : low.le high = true) :
    Cost.isMember (combine low high) = true := by
  have hlow' := Cost.within_toFormat hlow
  have hhigh' := Cost.within_toFormat hhigh
  have hdifference := Binary.sub_le_zero hlow'.isFinite hhigh'.isFinite
    (Binary.toFormat_le_toFormat hlow hhigh hle)
  have hcorrection := Double.within_of_between_logTwo (h.logOnePlus (h.exp hdifference))
  have hsum := Binary.within_add hlow' hcorrection.neg 1202 (by decide) (by decide +kernel)
  exact Cost.isMember_toFormat hsum (by decide +kernel)

/-- **A sum of costs is a cost.** -/
theorem isMember_plus (h : Elementary.Bounded) {v w : Log} (hv : Cost.isMember v.value = true)
    (hw : Cost.isMember w.value = true) : Cost.isMember (plus v w).value = true := by
  unfold plus
  rw [hv, hw, if_neg (by decide)]
  split
  · exact hw
  · rename_i hvzero
    split
    · exact hv
    · rename_i hwzero
      have hvfinite := Cost.isFinite_of_isMember hv hvzero
      have hwfinite := Cost.isFinite_of_isMember hw hwzero
      split
      · exact isMember_combine h hvfinite hwfinite ‹_›
      · exact isMember_combine h hwfinite hvfinite (Cost.le_of_not_le hvfinite hwfinite ‹_›)

end Log
end WeightedTransducer
