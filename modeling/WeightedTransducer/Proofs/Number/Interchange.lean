import WeightedTransducer.Proofs.Number.Rounding

/-!
# Interchange patterns

A pattern of 32 bits is a sign and a code.  Codes count the magnitudes from zero up to infinity, and
what lies above the code of infinity is not a number (`Single.ofBits`).  A value is read back from
its pattern (`Single.ofBits_toBits`), and every pattern from its value (`Single.toBits_ofBits`).
Two patterns stand for values at the same place if they are one pattern, or those of the two zeros;
what is not a number has many patterns and no place (`Single.place_ofBits_eq_iff`).
-/

namespace WeightedTransducer

namespace Format
variable (f : Format)

/-- The grain of a magnitude with as many significant bits as possible is its power of two. -/
theorem grain_mul_two_pow {digits shift : Nat} (hleast : 2 ^ (f.precision - 1) ≤ digits)
    (hdigits : digits < 2 ^ f.precision) : f.grain (digits * 2 ^ shift) = shift := by
  have hp := f.precision_pos
  have hpos : 0 < digits * 2 ^ shift :=
    Nat.mul_pos (Nat.lt_of_lt_of_le (Nat.two_pow_pos _) hleast) (Nat.two_pow_pos _)
  have hlower : f.precision - 1 + shift ≤ (digits * 2 ^ shift).log2 := by
    rw [Nat.le_log2 (Nat.ne_of_gt hpos), Nat.pow_add]
    exact Nat.mul_le_mul_right _ hleast
  have hupper : (digits * 2 ^ shift).log2 < f.precision + shift := by
    rw [Nat.log2_lt (Nat.ne_of_gt hpos), Nat.pow_add]
    exact Nat.mul_lt_mul_of_pos_right hdigits (Nat.two_pow_pos _)
  unfold grain
  omega

/-- A magnitude whose bits end below the limit is below the limit. -/
theorem mul_two_pow_lt {digits shift : Nat} (hdigits : digits < 2 ^ f.precision)
    (hshift : f.precision + shift ≤ f.limit) : digits * 2 ^ shift < 2 ^ f.limit :=
  calc digits * 2 ^ shift
      < 2 ^ f.precision * 2 ^ shift := Nat.mul_lt_mul_of_pos_right hdigits (Nat.two_pow_pos _)
    _ = 2 ^ (f.precision + shift) := (Nat.pow_add 2 _ _).symm
    _ ≤ 2 ^ f.limit := Nat.pow_le_pow_right (by decide) hshift

/-- A magnitude with fewer bits than the format allows keeps all of them. -/
theorem grain_eq_zero {units : Nat} (h : units < 2 ^ f.precision) : f.grain units = 0 := by
  have := f.grain_le h
  omega

/-- A magnitude with as many bits as the format allows keeps so many of them. -/
theorem le_div_grain {units : Nat} (h : 2 ^ (f.precision - 1) ≤ units) :
    2 ^ (f.precision - 1) ≤ units / 2 ^ f.grain units := by
  have hp := f.precision_pos
  have hne : units ≠ 0 := Nat.ne_of_gt (Nat.lt_of_lt_of_le (Nat.two_pow_pos _) h)
  have hlog : f.precision - 1 ≤ units.log2 := (Nat.le_log2 hne).mpr h
  rw [Nat.le_div_iff_mul_le (Nat.two_pow_pos _), ← Nat.pow_add]
  refine Nat.le_trans (Nat.pow_le_pow_right (by decide) ?_) (Nat.log2_self_le hne)
  unfold grain
  omega

end Format

namespace Single

/-! ## Codes of magnitudes -/

/-- The code of a magnitude: its grain and, in the last 23 bits, what follows the leading one. -/
def code (units : Nat) : Nat :=
  Format.single.grain units * 2 ^ 23 + units / 2 ^ Format.single.grain units

/-- The magnitude of a code.  The first codes are their own magnitudes; from `2 ^ 23` on, the last
23 bits follow a leading one. -/
def magnitude (code : Nat) : Nat :=
  if code < 2 ^ 23 then code else (2 ^ 23 + code % 2 ^ 23) * 2 ^ (code / 2 ^ 23 - 1)

/-- The code of infinity. -/
def infinityCode : Nat := 255 * 2 ^ 23

theorem code_lt {units : Nat} (h : Format.single.Holds units) : code units < infinityCode := by
  have hquotient : units / 2 ^ Format.single.grain units < 2 ^ 24 :=
    Format.single.div_grain_lt units
  have hgrain : Format.single.grain units ≤ 253 := Format.single.grain_le h.below
  unfold code infinityCode
  omega

/-- **A magnitude is read back from its code.** -/
theorem magnitude_code {units : Nat} (h : Format.single.Holds units) :
    magnitude (code units) = units := by
  by_cases hsmall : units < 2 ^ 23
  · have hgrain : Format.single.grain units = 0 :=
      Format.single.grain_eq_zero (Nat.lt_trans hsmall (by decide))
    have hcode : code units = units := by
      unfold code
      rw [hgrain]
      omega
    unfold magnitude
    rw [hcode, if_pos hsmall]
  · have hlower : 2 ^ 23 ≤ units / 2 ^ Format.single.grain units :=
      Format.single.le_div_grain (Nat.le_of_not_lt hsmall)
    have hupper : units / 2 ^ Format.single.grain units < 2 ^ 24 :=
      Format.single.div_grain_lt units
    have hunits := Nat.div_mul_cancel (Format.single.two_pow_grain_dvd h)
    unfold magnitude code
    generalize units / 2 ^ Format.single.grain units = digits at hlower hupper hunits ⊢
    generalize Format.single.grain units = shift at hunits ⊢
    have hrest : (shift * 2 ^ 23 + digits) % 2 ^ 23 = digits - 2 ^ 23 := by omega
    have hexponent : (shift * 2 ^ 23 + digits) / 2 ^ 23 - 1 = shift := by omega
    rw [if_neg (by omega), hrest, hexponent, Nat.add_sub_cancel' hlower, hunits]

/-- **A code is that of its magnitude.** -/
theorem code_magnitude (c : Nat) : code (magnitude c) = c := by
  unfold magnitude
  split
  · rename_i hsmall
    have hgrain : Format.single.grain c = 0 :=
      Format.single.grain_eq_zero (Nat.lt_trans hsmall (by decide))
    unfold code
    rw [hgrain]
    omega
  · rename_i hlarge
    have hrest : c % 2 ^ 23 < 2 ^ 23 := Nat.mod_lt _ (by decide)
    have hgrain : Format.single.grain ((2 ^ 23 + c % 2 ^ 23) * 2 ^ (c / 2 ^ 23 - 1)) =
        c / 2 ^ 23 - 1 :=
      Format.single.grain_mul_two_pow (Nat.le_add_right _ _)
        (Nat.lt_of_lt_of_le (Nat.add_lt_add_left hrest _) (by decide))
    unfold code
    rw [hgrain, Nat.mul_div_cancel _ (Nat.two_pow_pos _)]
    omega

theorem magnitude_injective {c c' : Nat} (h : magnitude c = magnitude c') : c = c' := by
  rw [← code_magnitude c, h, code_magnitude]

theorem magnitude_infinityCode : magnitude infinityCode = 2 ^ Format.single.limit := by
  decide +kernel

theorem magnitude_zero : magnitude 0 = 0 := by
  decide

theorem holds_magnitude {c : Nat} (h : c < infinityCode) : Format.single.Holds (magnitude c) := by
  unfold infinityCode at h
  unfold magnitude
  split
  · rename_i hsmall
    have hbelow : 2 ^ 23 < 2 ^ Format.single.limit :=
      Nat.pow_lt_pow_right (by decide) (by decide)
    exact ⟨Nat.lt_trans hsmall hbelow, c, 0, Nat.lt_trans hsmall (by decide), by simp⟩
  · have hdigits : 2 ^ 23 + c % 2 ^ 23 < 2 ^ 24 := by omega
    have hshift : 24 + (c / 2 ^ 23 - 1) ≤ 24 + 253 := by omega
    exact ⟨Format.single.mul_two_pow_lt hdigits hshift, _, _, hdigits, rfl⟩

/-! ## Patterns -/

/-- The sign of a pattern. -/
def isNegative (bits : UInt32) : Bool :=
  2 ^ 31 ≤ bits.toNat

/-- A pattern without its sign. -/
def unsigned (bits : UInt32) : Nat :=
  bits.toNat % 2 ^ 31

/-- What a pattern has beyond the code of infinity is a payload. -/
theorem marks_of_lt {bits : UInt32} (h : infinityCode < unsigned bits) :
    Format.single.Marks (unsigned bits - infinityCode) where
  pos := Nat.sub_pos_of_lt h
  below := by
    show unsigned bits - infinityCode < 2 ^ 23
    unfold unsigned infinityCode
    omega

/-- The value of a pattern. -/
def ofBits (bits : UInt32) : Single :=
  if h : unsigned bits < infinityCode then
    .finite (isNegative bits) (magnitude (unsigned bits)) (holds_magnitude h)
  else if h : infinityCode < unsigned bits then
    .nan (isNegative bits) (unsigned bits - infinityCode) (marks_of_lt h)
  else .infinity (isNegative bits)

theorem ofBits_of_lt {bits : UInt32} (h : unsigned bits < infinityCode) :
    ofBits bits = .finite (isNegative bits) (magnitude (unsigned bits)) (holds_magnitude h) :=
  dif_pos h

theorem ofBits_of_gt {bits : UInt32} (h : infinityCode < unsigned bits) :
    ofBits bits =
      .nan (isNegative bits) (unsigned bits - infinityCode) (marks_of_lt h) := by
  unfold ofBits
  rw [dif_neg (Nat.lt_asymm h), dif_pos h]

theorem ofBits_of_eq {bits : UInt32} (h : unsigned bits = infinityCode) :
    ofBits bits = .infinity (isNegative bits) := by
  unfold ofBits
  rw [dif_neg (Nat.not_lt_of_le (Nat.le_of_eq h.symm)),
    dif_neg (Nat.not_lt_of_le (Nat.le_of_eq h))]

/-- A pattern is its sign and its code. -/
theorem bits_ext {bits bits' : UInt32} (hsign : isNegative bits = isNegative bits')
    (hcode : unsigned bits = unsigned bits') : bits = bits' := by
  have hbits := bits.toNat_lt
  have hbits' := bits'.toNat_lt
  apply UInt32.toNat_inj.mp
  unfold isNegative at hsign
  unfold unsigned at hcode
  rw [decide_eq_decide] at hsign
  omega

section Signed
variable (negative : Bool) {c : Nat}

/-- The pattern of a sign and a code. -/
def pattern (c : Nat) : UInt32 :=
  (if negative then 0x80000000 else 0) + UInt32.ofNat c

theorem toNat_pattern (h : c < 2 ^ 31) :
    (pattern negative c).toNat = (if negative then 2 ^ 31 else 0) + c := by
  unfold pattern
  rw [UInt32.toNat_add, UInt32.toNat_ofNat']
  cases negative <;> simp <;> omega

theorem isNegative_pattern (h : c < 2 ^ 31) : isNegative (pattern negative c) = negative := by
  unfold isNegative
  rw [toNat_pattern negative h]
  cases negative with
  | false => exact decide_eq_false (by simp; omega)
  | true => exact decide_eq_true (by simp)

theorem unsigned_pattern (h : c < 2 ^ 31) : unsigned (pattern negative c) = c := by
  unfold unsigned
  rw [toNat_pattern negative h]
  cases negative <;> simp <;> omega

end Signed

/-- What is not a number has the code of infinity and its payload on top. -/
theorem toBits_nan (negative : Bool) {payload : Nat} (marks : Format.single.Marks payload) :
    toBits (.nan negative payload marks) = pattern negative (infinityCode + payload) := by
  show (if negative then 0x80000000 else 0) + UInt32.ofNat infinityCode + UInt32.ofNat payload = _
  rw [UInt32.add_assoc, ← UInt32.ofNat_add]
  rfl

/-- **A value is read back from its pattern.** -/
theorem ofBits_toBits (value : Single) : ofBits (toBits value) = value := by
  cases value with
  | nan negative payload marks =>
    have hbelow : payload < 2 ^ 23 := marks.below
    have hpos := marks.pos
    have hsmall : infinityCode + payload < 2 ^ 31 := by
      unfold infinityCode
      omega
    have hcode : unsigned (pattern negative (infinityCode + payload)) = infinityCode + payload :=
      unsigned_pattern negative hsmall
    rw [toBits_nan, ofBits_of_gt (by omega)]
    simp only [hcode, isNegative_pattern negative hsmall, Nat.add_sub_cancel_left]
  | infinity negative => cases negative <;> decide +kernel
  | finite negative units holds =>
    have hcode := code_lt holds
    have hsmall : code units < 2 ^ 31 := Nat.lt_trans hcode (by decide)
    have hunsigned : unsigned (pattern negative (code units)) = code units :=
      unsigned_pattern negative hsmall
    show ofBits (pattern negative (code units)) = _
    rw [ofBits_of_lt (hunsigned.symm ▸ hcode)]
    simp only [hunsigned, isNegative_pattern negative hsmall, magnitude_code holds]

/-- **A pattern is that of its value.** -/
theorem toBits_ofBits (bits : UInt32) : toBits (ofBits bits) = bits := by
  have hsmall : unsigned bits < 2 ^ 31 := Nat.mod_lt _ (by decide)
  have hpattern : pattern (isNegative bits) (unsigned bits) = bits :=
    bits_ext (isNegative_pattern _ hsmall) (unsigned_pattern _ hsmall)
  rcases Nat.lt_trichotomy (unsigned bits) infinityCode with hfinite | hinfinite | hnan
  · rw [ofBits_of_lt hfinite]
    show pattern (isNegative bits) (code (magnitude (unsigned bits))) = bits
    rw [code_magnitude, hpattern]
  · rw [ofBits_of_eq hinfinite]
    rw [hinfinite] at hpattern
    exact hpattern
  · rw [ofBits_of_gt hnan, toBits_nan, Nat.add_sub_cancel' (Nat.le_of_lt hnan), hpattern]

theorem toBits_injective {value value' : Single} (h : toBits value = toBits value') :
    value = value' := by
  rw [← ofBits_toBits value, h, ofBits_toBits]

theorem ofBits_injective {bits bits' : UInt32} (h : ofBits bits = ofBits bits') : bits = bits' := by
  rw [← toBits_ofBits bits, h, toBits_ofBits]

/-! ## Places of patterns -/

/-- What is not a number has no place; all other patterns are placed by sign and code. -/
theorem place_ofBits (bits : UInt32) :
    (ofBits bits).place = if infinityCode < unsigned bits then none
      else some (signed (isNegative bits) (magnitude (unsigned bits))) := by
  rcases Nat.lt_trichotomy (unsigned bits) infinityCode with hfinite | hinfinite | hnan
  · rw [if_neg (Nat.lt_asymm hfinite), ofBits_of_lt hfinite]
    rfl
  · rw [if_neg (Nat.not_lt_of_le (Nat.le_of_eq hinfinite)), ofBits_of_eq hinfinite, hinfinite,
      magnitude_infinityCode]
    rfl
  · rw [if_pos hnan, ofBits_of_gt hnan]
    rfl

/-- Patterns that cannot be told apart by their places: one and the same, two zeros, or two that are
not a number. -/
def Alike (bits bits' : UInt32) : Prop :=
  bits = bits' ∨ (unsigned bits = 0 ∧ unsigned bits' = 0) ∨
    (infinityCode < unsigned bits ∧ infinityCode < unsigned bits')

/-- **Patterns stand for values at one place exactly if they are alike.** -/
theorem place_ofBits_eq_iff {bits bits' : UInt32} :
    (ofBits bits).place = (ofBits bits').place ↔ Alike bits bits' := by
  have hzero : 0 < infinityCode := by decide
  rw [place_ofBits, place_ofBits]
  unfold Alike
  by_cases hnan : infinityCode < unsigned bits <;> by_cases hnan' : infinityCode < unsigned bits'
  · rw [if_pos hnan, if_pos hnan']
    exact iff_of_true rfl (.inr (.inr ⟨hnan, hnan'⟩))
  · rw [if_pos hnan, if_neg hnan']
    refine iff_of_false nofun ?_
    rintro (rfl | ⟨h, -⟩ | ⟨-, h⟩) <;> omega
  · rw [if_neg hnan, if_pos hnan']
    refine iff_of_false nofun ?_
    rintro (rfl | ⟨-, h⟩ | ⟨h, -⟩) <;> omega
  · rw [if_neg hnan, if_neg hnan', Option.some.injEq]
    constructor
    · intro hsigned
      have hcode : unsigned bits = unsigned bits' := by
        have hmagnitude := congrArg Int.natAbs hsigned
        rw [Binary.natAbs_signed, Binary.natAbs_signed] at hmagnitude
        exact magnitude_injective hmagnitude
      rcases Nat.eq_zero_or_pos (unsigned bits) with h | h
      · exact .inr (.inl ⟨h, hcode ▸ h⟩)
      · have hpos : 0 < magnitude (unsigned bits) := by
          refine Nat.pos_of_ne_zero fun hmagnitude => Nat.ne_of_gt h ?_
          exact magnitude_injective (hmagnitude.trans magnitude_zero.symm)
        rw [← hcode] at hsigned
        exact .inl (bits_ext (sign_eq_of_signed_eq hpos hsigned) hcode)
    · rintro (rfl | ⟨h, h'⟩ | ⟨h, -⟩)
      · rfl
      · rw [h, h', magnitude_zero]
        cases isNegative bits <;> cases isNegative bits' <;> rfl
      · exact absurd h hnan

end Single
end WeightedTransducer
