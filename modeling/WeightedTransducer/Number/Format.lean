/-!
# Binary floating-point formats

A `Format` says which magnitudes a binary floating-point value can have: whole numbers of a least
positive magnitude, the *unit* `2 ^ -scale`, with at most `precision` significant bits, below
`2 ^ limit` units.  `Format.Holds` is that condition; `Format.roundUnits` rounds a quotient of
units to the nearest magnitude with so few bits, halves to the even neighbour, and
`Format.holds_roundUnits` says that its result is one unless it is too large.  `Format.Marks` says
which payloads the values that are not a number can have.
-/

namespace WeightedTransducer

-- powers are those of the core library, whatever other powers are in scope
attribute [instance(2000), default_instance 20000] instPowNat

/-- The whole number nearest to `num / den`; of two that are equally near, the even one. -/
def nearestEven (num den : Nat) : Nat :=
  let whole := num / den
  let rest := num % den
  if 2 * rest < den then whole
  else if den < 2 * rest then whole + 1
  else whole + whole % 2

/-- Rounding moves a quotient up by at most one. -/
theorem nearestEven_le (num den : Nat) : nearestEven num den ≤ num / den + 1 := by
  unfold nearestEven
  dsimp only
  split
  · omega
  · split <;> omega

/-- A whole quotient is its own nearest number. -/
theorem nearestEven_mul_right (n : Nat) {den : Nat} (hd : 0 < den) :
    nearestEven (n * den) den = n := by
  unfold nearestEven
  simp [Nat.mul_div_cancel n hd, Nat.mul_mod_left, hd]

/-- A binary floating-point format. -/
structure Format where
  /-- How many significant bits a magnitude may have. -/
  precision : Nat
  /-- The least positive magnitude, the unit, is `2 ^ -scale`. -/
  scale : Nat
  /-- Magnitudes lie below `2 ^ limit` units. -/
  limit : Nat
  /-- A bit is left after the leading one. -/
  one_lt_precision : 1 < precision := by decide
  deriving DecidableEq

namespace Format

/-- The format of 32 bits. -/
def single : Format where
  precision := 24
  scale := 149
  limit := 277

/-- The format of 64 bits. -/
def double : Format where
  precision := 53
  scale := 1074
  limit := 2098

/-- A magnitude may have at least one significant bit. -/
theorem precision_pos (f : Format) : 0 < f.precision :=
  Nat.lt_of_succ_lt f.one_lt_precision

/-- The magnitudes of a format, in units. -/
structure Holds (f : Format) (units : Nat) : Prop where
  /-- The magnitude lies below the format's limit. -/
  below : units < 2 ^ f.limit
  /-- The magnitude has few enough significant bits. -/
  few : ∃ digits shift, digits < 2 ^ f.precision ∧ units = digits * 2 ^ shift

/-- The payloads of a format: they fit into the bits after a leading one, and zero is none of
them. -/
structure Marks (f : Format) (payload : Nat) : Prop where
  /-- A payload is not zero. -/
  pos : 0 < payload
  /-- A payload has one bit fewer than magnitudes can have. -/
  below : payload < 2 ^ (f.precision - 1)

/-- The quiet payload: only its first bit is set. -/
def quietPayload (f : Format) : Nat :=
  2 ^ (f.precision - 2)

theorem marks_quietPayload (f : Format) : f.Marks f.quietPayload where
  pos := Nat.two_pow_pos _
  below := Nat.pow_lt_pow_right (by decide) (by have := f.one_lt_precision; omega)

/-- How many trailing bits a magnitude of this size must do without. -/
def grain (f : Format) (units : Nat) : Nat :=
  units.log2 + 1 - f.precision

/-- The magnitude nearest to `num / den` units among those with few enough significant bits,
however large; a half goes to the even neighbour. -/
def roundUnits (f : Format) (num den : Nat) : Nat :=
  let shift := f.grain (num / den)
  nearestEven num (den * 2 ^ shift) * 2 ^ shift

/-- Dropping the trailing bits of its grain leaves a magnitude of few bits. -/
theorem div_grain_lt (f : Format) (units : Nat) :
    units / 2 ^ f.grain units < 2 ^ f.precision := by
  rw [Nat.div_lt_iff_lt_mul (Nat.two_pow_pos _), ← Nat.pow_add]
  refine Nat.lt_of_lt_of_le Nat.lt_log2_self (Nat.pow_le_pow_right (by decide) ?_)
  unfold grain
  omega

/-- A rounded magnitude has few enough significant bits. -/
theorem few_roundUnits (f : Format) (num den : Nat) :
    ∃ digits shift, digits < 2 ^ f.precision ∧ f.roundUnits num den = digits * 2 ^ shift := by
  have hle : nearestEven num (den * 2 ^ f.grain (num / den)) ≤ 2 ^ f.precision := by
    refine Nat.le_trans (nearestEven_le _ _) ?_
    rw [← Nat.div_div_eq_div_mul]
    exact f.div_grain_lt _
  rcases Nat.lt_or_eq_of_le hle with hlt | heq
  · exact ⟨_, _, hlt, rfl⟩
  · refine ⟨2 ^ (f.precision - 1), f.grain (num / den) + 1, ?_, ?_⟩
    · exact Nat.pow_lt_pow_right (by decide) (by have := f.precision_pos; omega)
    · unfold roundUnits
      dsimp only
      rw [heq, ← Nat.pow_add, ← Nat.pow_add]
      congr 1
      have := f.precision_pos
      omega

/-- A rounded magnitude below the limit is one of the format's. -/
theorem holds_roundUnits (f : Format) {num den : Nat} (h : f.roundUnits num den < 2 ^ f.limit) :
    f.Holds (f.roundUnits num den) :=
  ⟨h, f.few_roundUnits num den⟩

/-- Nothing is a magnitude of every format. -/
theorem holds_zero (f : Format) : f.Holds 0 :=
  ⟨Nat.two_pow_pos _, 0, 0, Nat.two_pow_pos _, by simp⟩

/-- The grain of a magnitude of few bits divides it. -/
theorem two_pow_grain_dvd (f : Format) {units : Nat} (h : f.Holds units) :
    2 ^ f.grain units ∣ units := by
  obtain ⟨digits, shift, hd, rfl⟩ := h.few
  by_cases hz : digits * 2 ^ shift = 0
  · simp [hz]
  by_cases hs : f.grain (digits * 2 ^ shift) ≤ shift
  · exact Nat.dvd_trans (Nat.pow_dvd_pow 2 hs) (Nat.dvd_mul_left _ _)
  · exfalso
    have hlog : 2 ^ (digits * 2 ^ shift).log2 ≤ digits * 2 ^ shift := Nat.log2_self_le hz
    have hlt : digits * 2 ^ shift < 2 ^ (f.precision + shift) := by
      rw [Nat.pow_add]
      exact Nat.mul_lt_mul_of_pos_right hd (Nat.two_pow_pos _)
    have := (Nat.pow_lt_pow_iff_right (by decide : 1 < 2)).1 (Nat.lt_of_le_of_lt hlog hlt)
    unfold grain at hs
    omega

/-- Rounding leaves the format's own magnitudes as they are. -/
theorem roundUnits_eq_self (f : Format) {units : Nat} (h : f.Holds units) :
    f.roundUnits units 1 = units := by
  obtain ⟨q, hq⟩ := f.two_pow_grain_dvd h
  unfold roundUnits
  simp only [Nat.div_one, Nat.one_mul]
  conv => lhs; arg 1; arg 1; rw [hq, Nat.mul_comm]
  rw [nearestEven_mul_right _ (Nat.two_pow_pos _), Nat.mul_comm]
  exact hq.symm

end Format
end WeightedTransducer
