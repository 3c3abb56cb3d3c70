import WeightedTransducer.Number.Shortest

/-!
# A numeral is worth its number

`Binary.ofDecimal` goes by what a numeral is worth, not by how it is written: a zero at the end of
the coefficient and a power of ten say the same (`Binary.ofDecimal_mul_ten`), so
`Decimal.normalize` changes nothing (`Binary.ofDecimal_normalize`).  The exact numeral of a
magnitude reads back as it (`Binary.ofDecimal_exactDecimal`); it is the numeral that the search for
a shorter one falls back on, so the shortest numeral always reads back
(`Binary.ofDecimal_shortest`).
-/

namespace WeightedTransducer

/-! ## Rounding a quotient with a common factor -/

theorem nearestEven_mul_left {k : Nat} (hk : 0 < k) (num den : Nat) :
    nearestEven (k * num) (k * den) = nearestEven num den := by
  have hlt : 2 * (k * (num % den)) < k * den ↔ 2 * (num % den) < den := by
    rw [Nat.mul_left_comm]
    exact Nat.mul_lt_mul_left hk
  have hgt : k * den < 2 * (k * (num % den)) ↔ den < 2 * (num % den) := by
    rw [Nat.mul_left_comm]
    exact Nat.mul_lt_mul_left hk
  simp only [nearestEven, Nat.mul_div_mul_left _ _ hk, Nat.mul_mod_mul_left, hlt, hgt]

theorem Format.roundUnits_mul_left (f : Format) {k : Nat} (hk : 0 < k) (num den : Nat) :
    f.roundUnits (k * num) (k * den) = f.roundUnits num den := by
  unfold roundUnits
  rw [Nat.mul_div_mul_left _ _ hk]
  simp only [Nat.mul_assoc, nearestEven_mul_left hk]

/-! ## Digits -/

namespace Decimal

/-- The number of digits is the power of ten that a positive coefficient stays below. -/
theorem width_le_iff {d : Decimal} {k : Nat} (hk : 0 < k) : d.width ≤ k ↔ d.coefficient < 10 ^ k :=
  Nat.length_toDigits_le_iff (by decide) hk

theorem width_pos (d : Decimal) : 0 < d.width :=
  Nat.length_toDigits_pos

/-- A digit at the end makes the coefficient one digit longer. -/
theorem width_mul_ten {negative : Bool} {c : Nat} (hc : 0 < c) (e e' : Int) :
    width ⟨negative, 10 * c, e⟩ = width ⟨negative, c, e'⟩ + 1 := by
  have h := Nat.toDigits_append_toDigits (b := 10) (d := 0) (by decide) hc (by decide)
  rw [Nat.add_zero] at h
  simp [width, ← h]

theorem dropZeros_negative (d : Decimal) (digits : Nat) :
    (d.dropZeros digits).negative = d.negative := by
  induction digits generalizing d with
  | zero => rfl
  | succ digits ih =>
    unfold dropZeros
    split
    · exact ih _
    · rfl

end Decimal

namespace Binary
variable {f : Format}

/-! ## The value of a numeral -/

theorem round_mul_left (negative : Bool) {k : Nat} (hk : 0 < k) (num den : Nat) :
    (round negative (k * num) (k * den) : Binary f) = round negative num den := by
  simp only [round, f.roundUnits_mul_left hk]

/-- A numeral within the range of the format, with the two signs of its power told apart. -/
theorem ofDecimal_of_range {d : Decimal} (hc : d.coefficient ≠ 0) (hlow : -(f.scale : Int) ≤ d.top)
    (hhigh : d.top ≤ (f.limit : Int) - f.scale) :
    (ofDecimal d : Binary f) = match d.exponent with
      | .ofNat power => round d.negative (d.coefficient * 10 ^ power * 2 ^ f.scale) 1
      | .negSucc power => round d.negative (d.coefficient * 2 ^ f.scale) (10 ^ (power + 1)) := by
  unfold ofDecimal
  refine (if_neg hc).trans ?_
  refine (if_neg (by omega)).trans ?_
  refine (if_neg (by omega)).trans ?_
  cases d.exponent <;> rfl

/-- A zero at the end of the coefficient counts as much as one more in the power of ten. -/
theorem ofDecimal_mul_ten (negative : Bool) (c : Nat) (e : Int) :
    (ofDecimal ⟨negative, 10 * c, e⟩ : Binary f) = ofDecimal ⟨negative, c, e + 1⟩ := by
  rcases Nat.eq_zero_or_pos c with rfl | hc
  · rfl
  have htop : Decimal.top ⟨negative, 10 * c, e⟩ = Decimal.top ⟨negative, c, e + 1⟩ := by
    simp only [Decimal.top, Decimal.width_mul_ten hc e (e + 1)]
    omega
  by_cases hhigh : Decimal.top ⟨negative, c, e + 1⟩ ≤ (f.limit : Int) - f.scale
  · by_cases hlow : -(f.scale : Int) ≤ Decimal.top ⟨negative, c, e + 1⟩
    · rw [ofDecimal_of_range (by simp; omega) (htop ▸ hlow) (htop ▸ hhigh),
        ofDecimal_of_range (by simp; omega) hlow hhigh]
      match e with
      | .ofNat power =>
        show round negative (10 * c * 10 ^ power * 2 ^ f.scale) 1 =
          round negative (c * 10 ^ (power + 1) * 2 ^ f.scale) 1
        rw [Nat.pow_succ, Nat.mul_comm 10 c, Nat.mul_assoc c, Nat.mul_comm 10]
      | .negSucc 0 =>
        show round negative (10 * c * 2 ^ f.scale) (10 ^ 1) =
          round negative (c * 10 ^ 0 * 2 ^ f.scale) 1
        rw [Nat.mul_assoc, round_mul_left negative (by decide) (c * 2 ^ f.scale) 1]
        simp
      | .negSucc (power + 1) =>
        show round negative (10 * c * 2 ^ f.scale) (10 ^ (power + 1 + 1)) =
          round negative (c * 2 ^ f.scale) (10 ^ (power + 1))
        rw [Nat.mul_assoc, Nat.pow_succ', round_mul_left negative (by decide)]
    · -- both are too small
      unfold ofDecimal
      rw [htop]
      simp only [if_neg (show ¬ (10 * c = 0) by omega), if_neg (show ¬ (c = 0) by omega)]
      rw [if_neg (by omega), if_pos (by omega), if_neg (by omega), if_pos (by omega)]
  · -- both are too large
    unfold ofDecimal
    rw [htop]
    simp only [if_neg (show ¬ (10 * c = 0) by omega), if_neg (show ¬ (c = 0) by omega)]
    rw [if_pos (by omega), if_pos (by omega)]

theorem ofDecimal_dropZeros (d : Decimal) (digits : Nat) :
    (ofDecimal (d.dropZeros digits) : Binary f) = ofDecimal d := by
  induction digits generalizing d with
  | zero => rfl
  | succ digits ih =>
    unfold Decimal.dropZeros
    split
    · rename_i h
      simp only [Bool.and_eq_true, decide_eq_true_eq] at h
      rw [ih, ← ofDecimal_mul_ten, Nat.mul_div_cancel' (Nat.dvd_of_mod_eq_zero h.1)]
    · rfl

/-- Dropping the zeros at the end keeps the value. -/
theorem ofDecimal_normalize (d : Decimal) : (ofDecimal d.normalize : Binary f) = ofDecimal d :=
  ofDecimal_dropZeros d d.width

/-- Zeros put at the end count as much as the power of ten. -/
theorem ofDecimal_mul_pow (negative : Bool) (c n : Nat) (e : Int) :
    (ofDecimal ⟨negative, 10 ^ n * c, e⟩ : Binary f) = ofDecimal ⟨negative, c, e + n⟩ := by
  induction n generalizing e with
  | zero => simp
  | succ n ih =>
    rw [Nat.pow_succ', Nat.mul_assoc, ofDecimal_mul_ten, ih]
    congr 2
    omega

/-! ## The shortest numeral -/

/-- The numerals that the search accepts were tested to read back. -/
theorem ofDecimal_of_shortened? {value : Binary f} {exact d : Decimal} {cut : Nat}
    (h : shortened? value exact cut = some d) : ofDecimal d = value := by
  unfold shortened? at h
  simp only [Bool.and_eq_true, decide_eq_true_eq] at h
  split at h
  · rename_i hlower
    exact Option.some.inj h ▸ hlower.1
  · split at h
    · rename_i hupper
      exact Option.some.inj h ▸ hupper
    · cases h

/-- The sign of the numerals that the search accepts is that of the exact one. -/
theorem negative_of_shortened? {value : Binary f} {exact d : Decimal} {cut : Nat}
    (h : shortened? value exact cut = some d) : d.negative = exact.negative := by
  unfold shortened? at h
  simp only at h
  split at h
  · exact Option.some.inj h ▸ rfl
  · split at h
    · exact Option.some.inj h ▸ rfl
    · cases h

/-- The exact numeral of a magnitude has at most as many digits as the format's limit has bits. -/
theorem width_exactDecimal_le (hf : f.scale ≤ f.limit) (negative : Bool) {units : Nat}
    (h : f.Holds units) (hu : units ≠ 0) : (exactDecimal f negative units).width ≤ f.limit := by
  have hlimit : 0 < f.limit := by
    refine Nat.pos_of_ne_zero fun h0 => hu ?_
    have := h.below
    rw [h0] at this
    omega
  rw [Decimal.width_le_iff hlimit]
  calc units * 5 ^ f.scale
      < 2 ^ f.limit * 5 ^ f.scale := Nat.mul_lt_mul_of_pos_right h.below (Nat.pow_pos (by decide))
    _ ≤ 2 ^ f.limit * 5 ^ f.limit :=
      Nat.mul_le_mul_left _ (Nat.pow_le_pow_right (by decide) hf)
    _ = 10 ^ f.limit := (Nat.mul_pow 2 5 f.limit).symm

/-- The exact numeral of a magnitude reads back as it. -/
theorem ofDecimal_exactDecimal (hf : f.scale ≤ f.limit) (negative : Bool) {units : Nat}
    (h : f.Holds units) (hu : units ≠ 0) :
    ofDecimal (exactDecimal f negative units) = finite negative units h := by
  have hwidth := width_exactDecimal_le hf negative h hu
  have hpos := Decimal.width_pos (exactDecimal f negative units)
  have hexp : (exactDecimal f negative units).exponent = -(f.scale : Int) := rfl
  have hc : (exactDecimal f negative units).coefficient ≠ 0 :=
    Nat.mul_ne_zero hu (Nat.ne_of_gt (Nat.pow_pos (by decide)))
  have hround : (round negative (units * 5 ^ f.scale * 2 ^ f.scale) (10 ^ f.scale) : Binary f) =
      finite negative units h := by
    have hten : units * 5 ^ f.scale * 2 ^ f.scale = 10 ^ f.scale * units := by
      rw [Nat.mul_assoc, ← Nat.mul_pow, Nat.mul_comm]
    have hself := f.roundUnits_eq_self h
    have := round_mul_left (f := f) negative (Nat.pow_pos (n := f.scale) (by decide : 0 < 10))
      units 1
    rw [Nat.mul_one] at this
    rw [hten, this]
    simp only [round, hself, dif_pos h.below]
  rw [ofDecimal_of_range hc (by unfold Decimal.top; omega) (by unfold Decimal.top; omega)]
  unfold exactDecimal
  -- the power of ten is negative, except in a format whose unit is one
  rcases hs : f.scale with _ | s
  · rw [hs] at hround
    simpa using hround
  · rw [hs] at hround
    exact hround

/-- The shortest numeral has the sign of its value. -/
theorem negative_shortest (negative : Bool) {units : Nat} (h : f.Holds units) :
    (shortest (finite negative units h)).negative = negative := by
  unfold shortest
  by_cases hu : units = 0
  · simp [hu]
  simp only [if_neg hu, Decimal.normalize, Decimal.dropZeros_negative]
  generalize (List.range (exactDecimal f negative units).width).reverse = cuts
  cases hfound : cuts.findSome?
      (shortened? (finite negative units h) (exactDecimal f negative units)) with
  | none => rfl
  | some d =>
    obtain ⟨cut, _, hcut⟩ := List.exists_of_findSome?_eq_some hfound
    exact negative_of_shortened? hcut

/-- **The shortest numeral of a finite value reads back as it.**  What the search finds was tested,
and where it finds nothing the exact numeral stands in. -/
theorem ofDecimal_shortest (hf : f.scale ≤ f.limit) (negative : Bool) {units : Nat}
    (h : f.Holds units) :
    ofDecimal (shortest (finite negative units h)) = finite negative units h := by
  unfold shortest
  by_cases hu : units = 0
  · subst hu
    simp [ofDecimal, zero]
  simp only [if_neg hu, ofDecimal_normalize]
  generalize (List.range (exactDecimal f negative units).width).reverse = cuts
  cases hfound : cuts.findSome?
      (shortened? (finite negative units h) (exactDecimal f negative units)) with
  | none => exact ofDecimal_exactDecimal hf negative h hu
  | some d =>
    obtain ⟨cut, _, hcut⟩ := List.exists_of_findSome?_eq_some hfound
    exact ofDecimal_of_shortened? hcut

end Binary
end WeightedTransducer
