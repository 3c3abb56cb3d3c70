import WeightedTransducer.Proofs.Number.Numeral

/-!
# Where rounding leaves the range

A quotient is rounded to an infinity exactly if it reaches `Format.brink`, the point halfway between
the greatest magnitude of a format and the limit: there the even neighbour is the limit
(`Binary.isFinite_round_iff`).  The magnitudes of a format stay well below that point
(`Format.Holds.lt_brink`), and rounding moves a quotient up by no more than one step between
neighbours (`Format.roundUnits_le`).
-/

namespace WeightedTransducer

/-- Rounding does not go below the whole part. -/
theorem le_nearestEven (num den : Nat) : num / den ≤ nearestEven num den := by
  unfold nearestEven
  dsimp only
  split
  · exact Nat.le_refl _
  · split <;> omega

/-- A quotient with an odd whole part is rounded down if the rest is less than a half. -/
theorem nearestEven_le_div_iff {num den : Nat} (hodd : num / den % 2 = 1) :
    nearestEven num den ≤ num / den ↔ 2 * (num % den) < den := by
  unfold nearestEven
  dsimp only
  split
  · simp_all
  · split <;> omega

/-- A quotient is rounded to less than an even number exactly if it lies more than a half below
it. -/
theorem nearestEven_lt_iff {num den bound : Nat} (hd : 0 < den) (heven : bound % 2 = 0) :
    nearestEven num den < bound ↔ 2 * num + den < 2 * (bound * den) := by
  have hnum : num / den * den + num % den = num := Nat.div_add_mod' num den
  have hrest : num % den < den := Nat.mod_lt num hd
  have hle := nearestEven_le num den
  have hge := le_nearestEven num den
  rcases Nat.lt_trichotomy (num / den + 1) bound with hlt | heq | hgt
  · have hstep : (num / den + 2) * den ≤ bound * den := Nat.mul_le_mul_right den hlt
    rw [Nat.add_mul] at hstep
    omega
  · -- only here does the rest decide
    have hstep : (num / den + 1) * den = bound * den := congrArg (· * den) heq
    rw [Nat.add_mul, Nat.one_mul] at hstep
    have hodd : num / den % 2 = 1 := by omega
    have hdown := nearestEven_le_div_iff hodd
    omega
  · have hstep : bound * den ≤ num / den * den := Nat.mul_le_mul_right den (by omega)
    omega

namespace Format
variable (f : Format)

/-- The least number of units that is rounded to the limit. -/
def brink : Nat :=
  2 ^ f.limit - 2 ^ (f.limit - f.precision - 1)

/-- The greatest magnitude. -/
def greatest : Nat :=
  2 ^ f.limit - 2 ^ (f.limit - f.precision)

/-- A magnitude is rounded up by no more than its grain. -/
theorem roundUnits_le (num den : Nat) :
    f.roundUnits num den ≤ num / den + 2 ^ f.grain (num / den) := by
  unfold roundUnits
  dsimp only
  calc nearestEven num (den * 2 ^ f.grain (num / den)) * 2 ^ f.grain (num / den)
      ≤ (num / den / 2 ^ f.grain (num / den) + 1) * 2 ^ f.grain (num / den) := by
        rw [Nat.div_div_eq_div_mul]
        exact Nat.mul_le_mul_right _ (nearestEven_le _ _)
    _ ≤ num / den + 2 ^ f.grain (num / den) := by
        rw [Nat.add_mul, Nat.one_mul]
        exact Nat.add_le_add_right (Nat.div_mul_le_self _ _) _

/-- The grain of a magnitude of at most `bits` bits. -/
theorem grain_le {units bits : Nat} (h : units < 2 ^ bits) :
    f.grain units ≤ bits - f.precision := by
  unfold grain
  rcases Nat.eq_zero_or_pos units with rfl | hpos
  · have := f.precision_pos
    simp only [Nat.log2_zero]
    omega
  · have := (Nat.log2_lt (Nat.ne_of_gt hpos)).mpr h
    omega

/-- A quotient of at most `bits` bits is rounded up by no more than the step between the greatest
magnitudes of so many bits. -/
theorem roundUnits_le_add {num den bits : Nat} (h : num / den < 2 ^ bits) :
    f.roundUnits num den ≤ num / den + 2 ^ (bits - f.precision) :=
  Nat.le_trans (f.roundUnits_le num den)
    (Nat.add_le_add_left (Nat.pow_le_pow_right (by decide) (f.grain_le h)) _)

/-- A quotient with more bits than a power of two is not rounded below it. -/
theorem two_pow_le_roundUnits {num den bits : Nat} (h : 2 ^ bits ≤ num / den) :
    2 ^ bits ≤ f.roundUnits num den := by
  have hne : num / den ≠ 0 := Nat.ne_of_gt (Nat.lt_of_lt_of_le (Nat.two_pow_pos bits) h)
  have hbits : bits ≤ (num / den).log2 := (Nat.le_log2 hne).mpr h
  have hgrain : f.grain (num / den) ≤ (num / den).log2 := by
    have := f.precision_pos
    unfold grain
    omega
  unfold roundUnits
  dsimp only
  calc 2 ^ bits
      ≤ 2 ^ (num / den).log2 := Nat.pow_le_pow_right (by decide) hbits
    _ = 2 ^ (num / den).log2 / 2 ^ f.grain (num / den) * 2 ^ f.grain (num / den) :=
        (Nat.div_mul_cancel (Nat.pow_dvd_pow 2 hgrain)).symm
    _ ≤ nearestEven num (den * 2 ^ f.grain (num / den)) * 2 ^ f.grain (num / den) := by
        refine Nat.mul_le_mul_right _ (Nat.le_trans ?_ (le_nearestEven _ _))
        rw [← Nat.div_div_eq_div_mul]
        exact Nat.div_le_div_right (Nat.log2_self_le hne)

variable {f}

/-- A magnitude lies below the limit by at least the step between the greatest magnitudes. -/
theorem Holds.add_step_le {units : Nat} (h : f.Holds units) :
    units + 2 ^ (f.limit - f.precision) ≤ 2 ^ f.limit := by
  obtain ⟨digits, shift, hdigits, rfl⟩ := h.few
  have hbelow := h.below
  by_cases hshift : f.limit - f.precision ≤ shift
  · have hdvd : 2 ^ (f.limit - f.precision) ∣ 2 ^ f.limit - digits * 2 ^ shift :=
      Nat.dvd_sub (Nat.pow_dvd_pow 2 (Nat.sub_le _ _))
        (Nat.dvd_mul_left_of_dvd (Nat.pow_dvd_pow 2 hshift) digits)
    have := Nat.le_of_dvd (Nat.sub_pos_of_lt hbelow) hdvd
    omega
  · -- a magnitude with a lower grain has one bit less than the limit
    have hp := f.precision_pos
    have hlimit : 2 ^ (f.limit - 1) * 2 = 2 ^ f.limit := Nat.two_pow_pred_mul_two (by omega)
    have hunits : digits * 2 ^ shift ≤ 2 ^ (f.limit - 1) := by
      refine Nat.le_trans (Nat.mul_le_mul_right _ (Nat.le_of_lt hdigits)) ?_
      rw [← Nat.pow_add]
      exact Nat.pow_le_pow_right (by decide) (by omega)
    have hstep : 2 ^ (f.limit - f.precision) ≤ 2 ^ (f.limit - 1) :=
      Nat.pow_le_pow_right (by decide) (by omega)
    omega

theorem Holds.le_greatest {units : Nat} (h : f.Holds units) : units ≤ f.greatest :=
  Nat.le_sub_of_add_le h.add_step_le

section Brink
variable (hf : f.precision < f.limit)
include hf

/-- The brink lies half a step below the limit. -/
theorem brink_add_half_step : f.brink + 2 ^ (f.limit - f.precision - 1) = 2 ^ f.limit :=
  Nat.sub_add_cancel (Nat.pow_le_pow_right (by decide) (by omega))

theorem two_mul_half_step :
    2 * 2 ^ (f.limit - f.precision - 1) = 2 ^ (f.limit - f.precision) :=
  (Nat.mul_comm _ _).trans (Nat.two_pow_pred_mul_two (Nat.sub_pos_of_lt hf))

theorem two_pow_pred_limit : 2 ^ (f.limit - 1) * 2 = 2 ^ f.limit :=
  Nat.two_pow_pred_mul_two (Nat.zero_lt_of_lt hf)

theorem two_pow_le_brink : 2 ^ (f.limit - 1) ≤ f.brink := by
  have hbrink := brink_add_half_step hf
  have hlimit := two_pow_pred_limit hf
  have hstep : 2 ^ (f.limit - f.precision - 1) ≤ 2 ^ (f.limit - 1) :=
    Nat.pow_le_pow_right (by decide) (by omega)
  omega

theorem brink_lt_two_pow_limit : f.brink < 2 ^ f.limit := by
  have hbrink := brink_add_half_step hf
  have := Nat.two_pow_pos (f.limit - f.precision - 1)
  omega

theorem brink_pos : 0 < f.brink :=
  Nat.lt_of_lt_of_le (Nat.two_pow_pos _) (two_pow_le_brink hf)

/-- The magnitudes of a format lie below the brink. -/
theorem Holds.lt_brink {units : Nat} (h : f.Holds units) : units < f.brink := by
  have hstep := h.add_step_le
  have hbrink := brink_add_half_step hf
  have hhalf := two_mul_half_step hf
  have := Nat.two_pow_pos (f.limit - f.precision - 1)
  omega

/-- **A quotient is rounded to less than the limit exactly if it lies below the brink.** -/
theorem roundUnits_lt_limit_iff {num den : Nat} (hd : 0 < den) :
    f.roundUnits num den < 2 ^ f.limit ↔ num < f.brink * den := by
  have hp := f.precision_pos
  have hbrink := brink_add_half_step hf
  by_cases hsmall : num / den < 2 ^ (f.limit - 1)
  · -- a step up cannot reach the limit
    have hround := f.roundUnits_le_add hsmall
    have hstep : 2 ^ (f.limit - 1 - f.precision) ≤ 2 ^ (f.limit - 1) :=
      Nat.pow_le_pow_right (by decide) (Nat.sub_le _ _)
    have hlimit := two_pow_pred_limit hf
    refine iff_of_true (by omega) ?_
    exact (Nat.div_lt_iff_lt_mul hd).mp (Nat.lt_of_lt_of_le hsmall (two_pow_le_brink hf))
  by_cases hlarge : num / den < 2 ^ f.limit
  · -- the grain is the step between the greatest magnitudes
    have hne : num / den ≠ 0 := fun h => hsmall (h ▸ Nat.two_pow_pos _)
    have hlog := (Nat.log2_lt hne).mpr hlarge
    have hlog' : f.limit - 1 ≤ (num / den).log2 := (Nat.le_log2 hne).mpr (Nat.le_of_not_lt hsmall)
    have hgrain : f.grain (num / den) = f.limit - f.precision := by
      unfold grain
      omega
    have heven : 2 ^ f.precision % 2 = 0 :=
      Nat.mod_eq_zero_of_dvd (Nat.dvd_of_pow_dvd hp (Nat.dvd_refl _))
    have hlimit : 2 ^ f.precision * 2 ^ (f.limit - f.precision) = 2 ^ f.limit := by
      rw [← Nat.pow_add]
      congr 1
      omega
    unfold roundUnits
    dsimp only
    rw [hgrain, ← hlimit, Nat.mul_lt_mul_right (Nat.two_pow_pos _),
      nearestEven_lt_iff (Nat.mul_pos hd (Nat.two_pow_pos _)) heven]
    have hhalf := two_mul_half_step hf
    have hgoal : 2 ^ f.precision * (den * 2 ^ (f.limit - f.precision)) =
        f.brink * den + den * 2 ^ (f.limit - f.precision - 1) := by
      rw [Nat.mul_left_comm, hlimit, ← hbrink, Nat.mul_add, Nat.mul_comm den]
    have hden : den * 2 ^ (f.limit - f.precision) =
        2 * (den * 2 ^ (f.limit - f.precision - 1)) := by
      rw [← hhalf, Nat.mul_left_comm]
    omega
  · refine iff_of_false ?_ ?_
    · exact Nat.not_lt_of_le (f.two_pow_le_roundUnits (Nat.le_of_not_lt hlarge))
    · exact Nat.not_lt_of_le (Nat.le_trans
        (Nat.mul_le_mul_right den (Nat.le_trans (Nat.sub_le _ _) (Nat.le_of_not_lt hlarge)))
        (Nat.div_mul_le_self num den))

end Brink
end Format

namespace Binary
variable {f : Format}

/-- **Rounding gives an infinity exactly if the quotient reaches the brink.** -/
theorem isFinite_round_iff (hf : f.precision < f.limit) {negative : Bool} {num den : Nat}
    (hd : 0 < den) :
    (round negative num den : Binary f).isFinite = true ↔ num < f.brink * den := by
  rw [← Format.roundUnits_lt_limit_iff hf hd]
  unfold round
  split
  · exact iff_of_true rfl ‹_›
  · exact iff_of_false Bool.false_ne_true ‹_›

end Binary
end WeightedTransducer
