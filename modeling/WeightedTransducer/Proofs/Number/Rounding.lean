import Mathlib.Data.Nat.Log
import WeightedTransducer.Proofs.Number.Overflow

/-!
# Rounded sums keep the order

Rounding to the nearest magnitude keeps the order of quotients (`Format.roundUnits_mono`): where
the two are rounded to different grains, a power of two lies between them, and powers of two are
magnitudes of every grain below them.  A sum of finite values is therefore placed by its exact total
alone, and so that greater totals are not placed lower (`Binary.place_add_finite`,
`Binary.nearestPlace_mono`).  Adding the positive zero moves no value, and of two values at one
place it makes the same one (`Binary.place_add_zero`, `Binary.add_zero_eq_iff`).
-/

namespace WeightedTransducer

theorem nearestEven_mono {num num' : Nat} (den : Nat) (h : num ≤ num') :
    nearestEven num den ≤ nearestEven num' den := by
  rcases Nat.lt_or_eq_of_le (Nat.div_le_div_right (c := den) h) with hlt | heq
  · calc nearestEven num den
        ≤ num / den + 1 := nearestEven_le num den
      _ ≤ num' / den := hlt
      _ ≤ nearestEven num' den := le_nearestEven num' den
  · have hrest : num % den ≤ num' % den := by
      have hnum := Nat.div_add_mod num den
      have hnum' := Nat.div_add_mod num' den
      rw [heq] at hnum
      omega
    unfold nearestEven
    dsimp only
    rw [heq]
    split
    · split
      · exact Nat.le_refl _
      · split <;> omega
    · -- the rest of the greater number is a half or more as well
      rw [if_neg (by omega : ¬ 2 * (num' % den) < den)]
      split
      · exact Nat.le_of_eq (if_pos (by omega : den < 2 * (num' % den))).symm
      · split <;> omega

theorem nearestEven_mul_mul (num den : Nat) {k : Nat} (hk : 0 < k) :
    nearestEven (k * num) (k * den) = nearestEven num den := by
  have hlower : 2 * (k * (num % den)) < k * den ↔ 2 * (num % den) < den := by
    rw [Nat.mul_left_comm]
    exact Nat.mul_lt_mul_left hk
  have hupper : k * den < 2 * (k * (num % den)) ↔ den < 2 * (num % den) := by
    rw [Nat.mul_left_comm]
    exact Nat.mul_lt_mul_left hk
  unfold nearestEven
  simp only [Nat.mul_div_mul_left num den hk, Nat.mul_mod_mul_left, hlower, hupper]

namespace Format
variable (f : Format)

/-- A quotient below a power of two is not rounded above it. -/
theorem roundUnits_le_two_pow {num den bits : Nat} (h : num / den < 2 ^ bits) :
    f.roundUnits num den ≤ 2 ^ bits := by
  have hgrain : f.grain (num / den) ≤ bits :=
    Nat.le_trans (f.grain_le h) (Nat.sub_le _ _)
  have hpow : 2 ^ f.grain (num / den) * 2 ^ (bits - f.grain (num / den)) = 2 ^ bits := by
    rw [← Nat.pow_add, Nat.add_sub_cancel' hgrain]
  have hwhole : num / den / 2 ^ f.grain (num / den) < 2 ^ (bits - f.grain (num / den)) :=
    Nat.div_lt_of_lt_mul (hpow.symm ▸ h)
  unfold roundUnits
  dsimp only
  calc nearestEven num (den * 2 ^ f.grain (num / den)) * 2 ^ f.grain (num / den)
      ≤ (num / den / 2 ^ f.grain (num / den) + 1) * 2 ^ f.grain (num / den) := by
        rw [Nat.div_div_eq_div_mul]
        exact Nat.mul_le_mul_right _ (nearestEven_le _ _)
    _ ≤ 2 ^ (bits - f.grain (num / den)) * 2 ^ f.grain (num / den) :=
        Nat.mul_le_mul_right _ hwhole
    _ = 2 ^ bits := by rw [Nat.mul_comm, hpow]

/-- **A greater quotient is not rounded to a lesser magnitude.** -/
theorem roundUnits_mono {num num' : Nat} (den : Nat) (h : num ≤ num') :
    f.roundUnits num den ≤ f.roundUnits num' den := by
  have hquotient : num / den ≤ num' / den := Nat.div_le_div_right h
  by_cases hgrain : f.grain (num / den) = f.grain (num' / den)
  · unfold roundUnits
    dsimp only
    rw [hgrain]
    exact Nat.mul_le_mul_right _ (nearestEven_mono _ h)
  · have hlog : (num / den).log2 < (num' / den).log2 := by
      have hle : (num / den).log2 ≤ (num' / den).log2 := by
        rw [Nat.log2_eq_log_two, Nat.log2_eq_log_two]
        exact Nat.log_mono_right hquotient
      unfold grain at hgrain
      omega
    have hne : num' / den ≠ 0 := by
      intro hzero
      rw [hzero, Nat.log2_zero] at hlog
      exact Nat.not_lt_zero _ hlog
    calc f.roundUnits num den
        ≤ 2 ^ (num' / den).log2 :=
          f.roundUnits_le_two_pow (Nat.lt_of_lt_of_le Nat.lt_log2_self
            (Nat.pow_le_pow_right (by decide) hlog))
      _ ≤ f.roundUnits num' den := f.two_pow_le_roundUnits (Nat.log2_self_le hne)

/-- What dividend and divisor have in common does not count. -/
theorem roundUnits_mul_right (n : Nat) {den : Nat} (hd : 0 < den) :
    f.roundUnits (n * den) den = f.roundUnits n 1 := by
  unfold roundUnits
  dsimp only
  rw [Nat.mul_div_cancel n hd, Nat.div_one, Nat.mul_comm n, nearestEven_mul_mul _ _ hd, Nat.one_mul]

end Format

/-! ## Places of sums -/

namespace Binary
variable {f : Format}

theorem le_trans {a b c : Binary f} (hab : a.le b = true) (hbc : b.le c = true) :
    a.le c = true := by
  unfold le at *
  cases ha : a.place <;> cases hb : b.place <;> cases hc : c.place <;> simp_all
  exact Int.le_trans hab hbc

/-- The place of the value nearest to a number of units. -/
def nearestPlace (f : Format) (total : Int) : Int :=
  signed (total < 0) (min (f.roundUnits total.natAbs 1) (2 ^ f.limit))

/-- Rounding places a value at the limit where it becomes infinite. -/
theorem place_round (negative : Bool) (num den : Nat) :
    (round negative num den : Binary f).place =
      some (signed negative (min (f.roundUnits num den) (2 ^ f.limit))) := by
  unfold round
  split
  · rename_i hbelow
    rw [Nat.min_eq_left (Nat.le_of_lt hbelow)]
    rfl
  · rename_i hlimit
    rw [Nat.min_eq_right (Nat.le_of_not_lt hlimit)]
    rfl

theorem zero_le_round (num den : Nat) :
    (zero false).le (round false num den : Binary f) = true := by
  unfold le
  rw [place_round]
  exact decide_eq_true (Int.natCast_nonneg _)

/-- Quotients that are rounded to magnitudes in order are rounded to values in order. -/
theorem round_le_round {num den num' den' : Nat}
    (h : f.roundUnits num den ≤ f.roundUnits num' den') :
    (round false num den : Binary f).le (round false num' den') = true := by
  unfold le
  rw [place_round, place_round]
  refine decide_eq_true (Int.ofNat_le.mpr ?_)
  omega

/-- The magnitudes of the format are their own places. -/
theorem nearestPlace_signed (negative : Bool) {units : Nat} (h : f.Holds units) :
    nearestPlace f (signed negative units) = signed negative units := by
  unfold nearestPlace
  rw [natAbs_signed, f.roundUnits_eq_self h, Nat.min_eq_left (Nat.le_of_lt h.below)]
  cases negative with
  | false =>
    have hnonneg : ¬ signed false units < 0 := Int.not_lt.mpr (Int.natCast_nonneg units)
    rw [decide_eq_false hnonneg]
  | true =>
    rcases Nat.eq_zero_or_pos units with rfl | hpos
    · rfl
    · have hneg : signed true units < 0 := Int.neg_neg_of_pos (Int.natCast_pos.mpr hpos)
      rw [decide_eq_true hneg]

/-- **A sum of finite values is placed by its exact total.** -/
theorem place_add_finite {s t : Bool} {m n : Nat} {hm : f.Holds m} {hn : f.Holds n} :
    ((finite s m hm).add (finite t n hn)).place =
      some (nearestPlace f (signed s m + signed t n)) := by
  unfold add
  dsimp only
  split
  · rename_i hcancel
    rw [hcancel]
    have hzero := nearestPlace_signed false f.holds_zero
    cases s <;> cases t <;> exact congrArg some hzero.symm
  · exact place_round _ _ _

/-- **Greater totals are not placed lower.** -/
theorem nearestPlace_mono {total total' : Int} (h : total ≤ total') :
    nearestPlace f total ≤ nearestPlace f total' := by
  have hmin {num num' : Nat} (hle : num ≤ num') :
      min (f.roundUnits num 1) (2 ^ f.limit) ≤ min (f.roundUnits num' 1) (2 ^ f.limit) := by
    have := f.roundUnits_mono 1 hle
    omega
  unfold nearestPlace
  by_cases hneg' : total' < 0
  · have hneg : total < 0 := Int.lt_of_le_of_lt h hneg'
    have hmagnitude : min (f.roundUnits total'.natAbs 1) (2 ^ f.limit) ≤
        min (f.roundUnits total.natAbs 1) (2 ^ f.limit) := hmin (by omega)
    rw [decide_eq_true hneg, decide_eq_true hneg']
    exact Int.neg_le_neg (Int.ofNat_le.mpr hmagnitude)
  · rw [decide_eq_false hneg']
    by_cases hneg : total < 0
    · rw [decide_eq_true hneg]
      exact Int.le_trans (Int.neg_nonpos_of_nonneg (Int.natCast_nonneg _)) (Int.natCast_nonneg _)
    · rw [decide_eq_false hneg]
      exact Int.ofNat_le.mpr (hmin (by omega))

/-- **A sum does not shrink when a term grows.** -/
theorem add_le_add_left {a b c : Binary f} (ha : a.isFinite = true) (hb : b.isFinite = true)
    (hc : c.isFinite = true) (h : b.le c = true) : (a.add b).le (a.add c) = true := by
  cases a with
  | nan | infinity => cases ha
  | finite s m hm =>
    cases b with
    | nan | infinity => cases hb
    | finite t n hn =>
      cases c with
      | nan | infinity => cases hc
      | finite u k hk =>
        have hterms : signed t n ≤ signed u k := of_decide_eq_true h
        have hplaces := nearestPlace_mono (f := f) (Int.add_le_add_left hterms (signed s m))
        unfold le
        rw [place_add_finite, place_add_finite]
        exact decide_eq_true hplaces

theorem add_comm (a b : Binary f) : a.add b = b.add a := by
  cases a <;> cases b
  case infinity.infinity s t => cases s <;> cases t <;> rfl
  case finite.finite s m hm t n hn =>
    unfold add
    dsimp only
    rw [Int.add_comm, Bool.and_comm]
  all_goals rfl

/-! ## The positive zero -/

/-- Adding the positive zero moves no value. -/
theorem place_add_zero (a : Binary f) : (a.add (zero false)).place = a.place := by
  cases a with
  | nan => rfl
  | infinity negative => rfl
  | finite negative units holds =>
    have htotal : signed negative units + signed false 0 = signed negative units := Int.add_zero _
    show ((finite negative units holds).add (finite false 0 f.holds_zero)).place = _
    rw [place_add_finite, htotal, nearestPlace_signed negative holds]
    rfl

/-- **The positive zero is added to values at one place with one result**, and only to those. -/
theorem add_zero_eq_iff {a b : Binary f} :
    a.add (zero false) = b.add (zero false) ↔ a.place = b.place := by
  constructor
  · intro h
    rw [← place_add_zero a, h, place_add_zero b]
  · exact add_zero_congr

end Binary
end WeightedTransducer
