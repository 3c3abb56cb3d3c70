import WeightedTransducer.Proofs.Number.NumberText
import WeightedTransducer.Proofs.Weight.LogSum

/-!
# Costs below the range

The members of the cost types are all values but minus infinity and what is not a number, so an
operation on members leads out of them exactly if its exact result is a number so far below zero
that it is rounded to minus infinity (`Cost.Overflows`).  Products, powers, quotients and multiples
of a tolerance can have such results; for each of them the numbers to look at are told.
-/

namespace WeightedTransducer

namespace Cost

/-- Where a cost stands on the line of units. -/
def units (cost : Single) : Int :=
  cost.place.getD 0

/-- The quotient of two numbers of units lies so far below zero that it is rounded to minus
infinity. -/
def Overflows (num den : Int) : Prop :=
  num ≤ -(Format.single.brink * den)

instance (num den : Int) : Decidable (Overflows num den) :=
  inferInstanceAs (Decidable (_ ≤ _))

theorem brink_pos : (0 : Int) < Format.single.brink :=
  Int.natCast_pos.mpr (Format.brink_pos (by decide))

theorem not_overflows_of_nonneg {num den : Int} (hnum : 0 ≤ num) (hden : 0 < den) :
    ¬ Overflows num den := by
  have := Int.mul_pos brink_pos hden
  unfold Overflows
  omega

theorem not_overflows_of_natAbs_lt {num : Int} (h : num.natAbs < Format.single.brink) :
    ¬ Overflows num 1 := by
  unfold Overflows
  omega

/-- **A rounded number is a cost unless it overflows.** -/
theorem isMember_round_iff {negative : Bool} {num den : Nat} (hden : 0 < den) :
    isMember (Binary.round negative num den) = true ↔ ¬ Overflows (signed negative num) den := by
  cases negative with
  | false =>
    refine iff_of_true ?_ (not_overflows_of_nonneg (Int.natCast_nonneg num)
      (Int.natCast_pos.mpr hden))
    unfold Binary.round
    split <;> rfl
  | true =>
    have hfinite : isMember (Binary.round true num den) =
        (Binary.round true num den : Single).isFinite := by
      unfold Binary.round
      split <;> rfl
    rw [hfinite, Binary.isFinite_round_iff (by decide) hden]
    unfold Overflows
    rw [← Int.natCast_mul]
    show _ ↔ ¬ (-(num : Int) ≤ _)
    omega

/-- Finite costs lie between the two brinks. -/
theorem natAbs_units_lt {cost : Single} (h : cost.isFinite = true) :
    (units cost).natAbs < Format.single.brink := by
  cases cost with
  | nan | infinity => cases h
  | finite negative magnitude holds =>
    show (signed negative magnitude).natAbs < _
    rw [Binary.natAbs_signed]
    exact holds.lt_brink (by decide)

/-- Infinity lies beyond the brink. -/
theorem brink_lt_units_zero : (Format.single.brink : Int) < units zero :=
  Int.ofNat_lt.mpr (Format.brink_lt_two_pow_limit (by decide))

theorem neg_brink_lt_units {cost : Single} (h : isMember cost = true) :
    -(Format.single.brink : Int) < units cost := by
  rcases eq_zero_or_isFinite h with rfl | hfinite
  · have := brink_pos
    have := brink_lt_units_zero
    omega
  · have := natAbs_units_lt hfinite
    omega

theorem same_zero_eq_false {cost : Single} (h : cost.isFinite = true) :
    cost.same zero = false := by
  cases cost with
  | nan | infinity => cases h
  | finite negative magnitude holds =>
    refine beq_eq_false_iff_ne.mpr fun heq => Nat.ne_of_lt holds.below ?_
    rw [← Binary.natAbs_signed negative magnitude, heq, Binary.natAbs_signed]

/-- Infinity and a cost, or the opposite of a finite cost, make up no number below the brink. -/
theorem not_overflows_zero_add {n : Int} (h : -(Format.single.brink : Int) < n) :
    ¬ Overflows (units zero + n) 1 := by
  have := brink_lt_units_zero
  refine not_overflows_of_nonneg ?_ (by decide)
  omega

theorem units_neg (cost : Single) : units cost.neg = -units cost := by
  cases cost with
  | nan => rfl
  | infinity negative | finite negative =>
    cases negative <;> simp [units, Binary.neg, Binary.place, signed]

theorem isFinite_neg (cost : Single) : cost.neg.isFinite = cost.isFinite := by
  cases cost <;> rfl

/-- The sum of two finite costs. -/
theorem isMember_add_iff {a b : Single} (ha : a.isFinite = true) (hb : b.isFinite = true) :
    isMember (a.add b) = true ↔ ¬ Overflows (units a + units b) 1 := by
  cases a with
  | nan | infinity => cases ha
  | finite s m hm =>
    cases b with
    | nan | infinity => cases hb
    | finite t n hn =>
      show isMember (if signed s m + signed t n = 0 then _ else _) = true ↔
        ¬ Overflows (signed s m + signed t n) 1
      split
      · rename_i hcancel
        rw [hcancel]
        exact iff_of_true rfl (not_overflows_of_nonneg (Int.le_refl 0) (by decide))
      · rw [isMember_round_iff (by decide), Text.signed_natAbs]
        rfl

section Products
variable {a b : Single}

/-- Infinity makes every product infinite. -/
theorem zero_times (hb : isMember b = true) : times zero b = zero := by
  unfold times
  rw [hb, if_neg (by decide), same_zero_zero, Bool.true_or, if_pos rfl]

theorem times_zero (ha : isMember a = true) : times a zero = zero := by
  unfold times
  rw [ha, if_neg (by decide), same_zero_zero, Bool.or_true, if_pos rfl]

theorem times_eq_add (ha : a.isFinite = true) (hb : b.isFinite = true) : times a b = a.add b := by
  unfold times
  rw [isMember_of_isFinite ha, isMember_of_isFinite hb, if_neg (by decide), same_zero_eq_false ha,
    same_zero_eq_false hb, if_neg (by decide)]

theorem value_zero_divide {typeName : String} (hb : b.isFinite = true) :
    (divide typeName zero b).value = zero := by
  unfold divide
  rw [isMember_of_isFinite hb, same_zero_eq_false hb, if_neg (by decide), if_neg (by decide),
    same_zero_zero, if_pos rfl]
  rfl

theorem value_divide_eq_sub {typeName : String} (ha : a.isFinite = true)
    (hb : b.isFinite = true) : (divide typeName a b).value = a.sub b := by
  unfold divide
  rw [isMember_of_isFinite ha, isMember_of_isFinite hb, same_zero_eq_false hb, if_neg (by decide),
    if_neg (by decide), same_zero_eq_false ha, if_neg (by decide)]
  rfl

/-- **The product of two costs is one unless their sum overflows.** -/
theorem isMember_times_iff (ha : isMember a = true) (hb : isMember b = true) :
    isMember (times a b) = true ↔ ¬ Overflows (units a + units b) 1 := by
  rcases eq_zero_or_isFinite ha with rfl | hfinite
  · rw [zero_times hb]
    exact iff_of_true rfl (not_overflows_zero_add (neg_brink_lt_units hb))
  rcases eq_zero_or_isFinite hb with rfl | hfinite'
  · rw [times_zero ha, Int.add_comm]
    exact iff_of_true rfl (not_overflows_zero_add (neg_brink_lt_units ha))
  · rw [times_eq_add hfinite hfinite']
    exact isMember_add_iff hfinite hfinite'

/-- **The quotient of a cost by one that is not infinite is a cost unless their difference
overflows.** -/
theorem isMember_divide_iff {typeName : String} (ha : isMember a = true)
    (hb : isMember b = true) (hne : b.same zero = false) :
    isMember (divide typeName a b).value = true ↔ ¬ Overflows (units a - units b) 1 := by
  have hfinite' := isFinite_of_isMember hb (by rw [hne]; decide)
  rcases eq_zero_or_isFinite ha with rfl | hfinite
  · rw [value_zero_divide hfinite']
    have := natAbs_units_lt hfinite'
    exact iff_of_true rfl (not_overflows_zero_add (by omega))
  · rw [value_divide_eq_sub hfinite hfinite', Int.sub_eq_add_neg, ← units_neg]
    exact isMember_add_iff hfinite ((isFinite_neg b).trans hfinite')

end Products

/-! ## Powers -/

/-- The product of `n` times the same cost, multiplied from the left. -/
def power (cost : Single) (n : Nat) : Single :=
  Nat.repeat (times · cost) n one

/-- **A power is a cost unless one of its products overflows.** -/
theorem isMember_power_iff {cost : Single} (h : isMember cost = true) (n : Nat) :
    isMember (power cost n) = true ↔
      ∀ i < n, ¬ Overflows (units (power cost i) + units cost) 1 := by
  induction n with
  | zero => exact iff_of_true rfl fun i hi => absurd hi (Nat.not_lt_zero i)
  | succ n ih =>
    show isMember (times (power cost n) cost) = true ↔ _
    rw [Nat.forall_lt_succ_right, ← ih]
    by_cases hn : isMember (power cost n) = true
    · rw [isMember_times_iff hn h, and_iff_right hn]
    · refine iff_of_false ?_ fun hall => hn hall.1
      unfold times
      rw [Bool.eq_false_iff.mpr hn]
      exact Bool.false_ne_true

/-! ## Multiples of a tolerance -/

/-- How many times a tolerance goes into a cost, rounded to a whole number. -/
def multiple (delta cost : Single) : Single :=
  ((cost.div delta).add half).floor

theorem exists_of_units_pos {delta : Single} (hdelta : delta.isFinite = true)
    (hpos : 0 < units delta) :
    ∃ magnitude holds, delta = .finite false magnitude holds ∧ 0 < magnitude := by
  cases delta with
  | nan | infinity => cases hdelta
  | finite negative magnitude holds =>
    cases negative with
    | false => exact ⟨magnitude, holds, rfl, Int.natCast_pos.mp hpos⟩
    | true =>
      have hneg : (0 : Int) < -(magnitude : Int) := hpos
      omega

theorem signed_mul (negative : Bool) (m n : Nat) :
    signed (negative != false) (m * n) = signed negative m * n := by
  cases negative
  · exact Int.natCast_mul m n
  · exact (congrArg Neg.neg (Int.natCast_mul m n)).trans (Int.neg_mul _ _).symm

section Positive
variable {delta : Single} (hdelta : delta.isFinite = true) (hpos : 0 < units delta)
include hdelta hpos

theorem isMember_mul_iff {cost : Single} :
    isMember (cost.mul delta) = true ↔ isMember cost = true ∧
      ¬ Overflows (units cost * units delta) (2 ^ Format.single.scale : Nat) := by
  obtain ⟨n, hn, rfl, hn0⟩ := exists_of_units_pos hdelta hpos
  cases cost with
  | nan => exact iff_of_false Bool.false_ne_true fun h => Bool.false_ne_true h.1
  | infinity negative =>
    unfold Binary.mul
    dsimp only
    rw [if_neg (Nat.ne_of_gt hn0)]
    cases negative with
    | false =>
      refine iff_of_true rfl ⟨rfl, not_overflows_of_nonneg (Int.mul_nonneg ?_ ?_) ?_⟩
      · exact Int.natCast_nonneg _
      · exact Int.natCast_nonneg _
      · exact Int.natCast_pos.mpr (Nat.two_pow_pos _)
    | true => exact iff_of_false Bool.false_ne_true fun h => Bool.false_ne_true h.1
  | finite negative m hm =>
    refine Iff.trans (isMember_round_iff (Nat.two_pow_pos _)) ?_
    rw [signed_mul]
    exact (and_iff_right rfl).symm

theorem isMember_div_iff {cost : Single} :
    isMember (cost.div delta) = true ↔ isMember cost = true ∧
      ¬ Overflows (units cost * (2 ^ Format.single.scale : Nat)) (units delta) := by
  obtain ⟨n, hn, rfl, hn0⟩ := exists_of_units_pos hdelta hpos
  cases cost with
  | nan => exact iff_of_false Bool.false_ne_true fun h => Bool.false_ne_true h.1
  | infinity negative =>
    cases negative with
    | false =>
      refine iff_of_true rfl ⟨rfl, not_overflows_of_nonneg (Int.mul_nonneg ?_ ?_) hpos⟩
      · exact Int.natCast_nonneg _
      · exact Int.natCast_nonneg _
    | true => exact iff_of_false Bool.false_ne_true fun h => Bool.false_ne_true h.1
  | finite negative m hm =>
    unfold Binary.div
    dsimp only
    rw [if_neg (Nat.ne_of_gt hn0), isMember_round_iff hn0, signed_mul]
    exact (and_iff_right rfl).symm

end Positive

theorem isFinite_half : half.isFinite = true := by
  decide +kernel

theorem units_half_pos : 0 < units half := by
  decide +kernel

/-- A half more is no number below the brink. -/
theorem isMember_add_half (cost : Single) : isMember (cost.add half) = isMember cost := by
  obtain ⟨m, holds, hhalf, -⟩ := exists_of_units_pos isFinite_half units_half_pos
  rw [hhalf]
  cases cost with
  | nan | infinity => rfl
  | finite negative magnitude holds' =>
    refine (isMember_add_iff rfl rfl).mpr ?_
    have hcost : -(Format.single.brink : Int) < units (.finite negative magnitude holds') :=
      neg_brink_lt_units rfl
    have hhalf' : 0 ≤ units (.finite false m holds) := Int.natCast_nonneg m
    unfold Overflows
    omega

theorem magnitude_lt_of_fraction {magnitude : Nat} (h : Format.single.Holds magnitude)
    (hfraction : ¬ magnitude % 2 ^ Format.single.scale = 0) :
    magnitude < 2 ^ (Format.single.precision + Format.single.scale) := by
  obtain ⟨digits, shift, hdigits, rfl⟩ := h.few
  have hshift : shift < Format.single.scale := by
    refine Nat.lt_of_not_le fun hle => hfraction ?_
    exact Nat.mod_eq_zero_of_dvd (Nat.dvd_mul_left_of_dvd (Nat.pow_dvd_pow 2 hle) digits)
  rw [Nat.pow_add]
  exact Nat.mul_lt_mul_of_lt_of_le hdigits (Nat.pow_le_pow_right (by decide) (Nat.le_of_lt hshift))
    (Nat.two_pow_pos _)

/-- Rounding down to a whole number leaves no cost below the brink: a cost with digits after the
point is small. -/
theorem isMember_floor (cost : Single) : isMember cost.floor = isMember cost := by
  cases cost with
  | nan | infinity => rfl
  | finite negative magnitude holds =>
    unfold Binary.floor
    dsimp only
    split
    · rfl
    · rename_i hfraction
      have hsmall := magnitude_lt_of_fraction holds hfraction
      have hwhole : magnitude / 2 ^ Format.single.scale < 2 ^ Format.single.precision :=
        Nat.div_lt_of_lt_mul (by rwa [← Nat.pow_add, Nat.add_comm])
      refine (isMember_round_iff (by decide)).mpr (not_overflows_of_natAbs_lt ?_)
      rw [Binary.natAbs_signed]
      refine Nat.lt_of_le_of_lt (Nat.mul_le_mul_right _ ?_)
        (by decide +kernel : 2 ^ Format.single.precision * 2 ^ Format.single.scale < _)
      split <;> omega

/-- **A cost has a multiple of a tolerance unless the quotient overflows.** -/
theorem isMember_multiple_iff {delta cost : Single} (hdelta : delta.isFinite = true)
    (hpos : 0 < units delta) (h : isMember cost = true) :
    isMember (multiple delta cost) = true ↔
      ¬ Overflows (units cost * (2 ^ Format.single.scale : Nat)) (units delta) := by
  unfold multiple
  rw [isMember_floor, isMember_add_half, isMember_div_iff hdelta hpos, and_iff_right h]

/-- Infinity is a multiple of every tolerance. -/
theorem quantize_eq {delta cost : Single} (hdelta : delta.isFinite = true)
    (hpos : 0 < units delta) (h : isMember cost = true) :
    quantize delta cost = (multiple delta cost).mul delta := by
  unfold quantize
  rcases eq_zero_or_isFinite h with rfl | hfinite
  · obtain ⟨n, hn, rfl, hn0⟩ := exists_of_units_pos hdelta hpos
    obtain ⟨m, holds, hhalf, -⟩ := exists_of_units_pos isFinite_half units_half_pos
    unfold multiple
    rw [hhalf]
    exact (if_neg (Nat.ne_of_gt hn0)).symm
  · rw [if_pos hfinite]
    rfl

/-- **The multiple of a tolerance nearest to a cost is a cost unless the quotient or its product
with the tolerance overflows.** -/
theorem isMember_quantize_iff {delta cost : Single} (hdelta : delta.isFinite = true)
    (hpos : 0 < units delta) (h : isMember cost = true) :
    isMember (quantize delta cost) = true ↔
      ¬ Overflows (units cost * (2 ^ Format.single.scale : Nat)) (units delta) ∧
      ¬ Overflows (units (multiple delta cost) * units delta)
        (2 ^ Format.single.scale : Nat) := by
  rw [quantize_eq hdelta hpos h, isMember_mul_iff hdelta hpos, isMember_multiple_iff hdelta hpos h]

end Cost

end WeightedTransducer
