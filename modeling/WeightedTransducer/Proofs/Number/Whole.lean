import WeightedTransducer.Number.Binary

/-!
# Whole numbers are exact

A whole number of at most `precision` bits is a value of the format (`Binary.ofNat_eq`).  So the
sum of two such numbers is the value nearest to their exact sum (`Binary.add_ofNat`), and the
difference that is not negative is exact (`Binary.sub_ofNat`); a number taken from itself leaves the
positive zero.
-/

namespace WeightedTransducer

namespace Format
variable {f : Format} (hf : f.precision + f.scale ≤ f.limit)
include hf

theorem holds_whole {n : Nat} (hn : n < 2 ^ f.precision) : f.Holds (n * 2 ^ f.scale) where
  below := by
    calc n * 2 ^ f.scale
        < 2 ^ f.precision * 2 ^ f.scale := Nat.mul_lt_mul_of_pos_right hn (Nat.two_pow_pos _)
      _ = 2 ^ (f.precision + f.scale) := (Nat.pow_add ..).symm
      _ ≤ 2 ^ f.limit := Nat.pow_le_pow_right (by decide) hf
  few := ⟨n, f.scale, hn, rfl⟩

end Format

namespace Binary
variable {f : Format}

theorem ofNat_zero : (ofNat 0 : Binary f) = zero false := by
  have hround : f.roundUnits (0 * 2 ^ f.scale) 1 = 0 := by
    rw [Nat.zero_mul]
    exact f.roundUnits_eq_self f.holds_zero
  unfold ofNat round
  rw [dif_pos (hround.symm ▸ Nat.two_pow_pos _)]
  simp only [hround]
  rfl

/-- Two finite values that make up a whole number; if they cancel, one of them is positive. -/
theorem add_finite {s t : Bool} {m n k : Nat} {hm : f.Holds m} {hn : f.Holds n}
    (htotal : signed s m + signed t n = (k * 2 ^ f.scale : Nat)) (hsign : (s && t) = false) :
    (finite s m hm).add (finite t n hn) = ofNat k := by
  unfold add
  dsimp only
  rw [htotal]
  -- a total that is not zero has its own sign, and only zero takes it from the terms
  by_cases hk : k = 0
  · subst hk
    rw [Nat.zero_mul, if_pos Int.natCast_zero, hsign, ofNat_zero]
  · have hpos : 0 < k * 2 ^ f.scale := Nat.mul_pos (Nat.pos_of_ne_zero hk) (Nat.two_pow_pos _)
    have hnonneg : ¬ ((k * 2 ^ f.scale : Nat) : Int) < 0 := by omega
    rw [if_neg (by omega), Int.natAbs_natCast, decide_eq_false hnonneg]
    rfl

section Whole
variable (hf : f.precision + f.scale ≤ f.limit)
include hf

theorem ofNat_eq {n : Nat} (hn : n < 2 ^ f.precision) :
    (ofNat n : Binary f) = finite false (n * 2 ^ f.scale) (Format.holds_whole hf hn) := by
  have hround := f.roundUnits_eq_self (Format.holds_whole hf hn)
  have hbelow := (Format.holds_whole hf hn).below
  unfold ofNat round
  rw [dif_pos (hround.symm ▸ hbelow)]
  simp only [hround]

theorem add_ofNat {m n : Nat} (hm : m < 2 ^ f.precision) (hn : n < 2 ^ f.precision) :
    (ofNat m : Binary f).add (ofNat n) = ofNat (m + n) := by
  rw [ofNat_eq hf hm, ofNat_eq hf hn]
  refine add_finite ?_ rfl
  rw [Nat.add_mul]
  rfl

theorem sub_ofNat {m n : Nat} (hle : n ≤ m) (hm : m < 2 ^ f.precision) :
    (ofNat m : Binary f).sub (ofNat n) = ofNat (m - n) := by
  rw [ofNat_eq hf hm, ofNat_eq hf (Nat.lt_of_le_of_lt hle hm)]
  refine add_finite ?_ rfl
  rw [Nat.sub_mul, Int.natCast_sub (Nat.mul_le_mul_right _ hle)]
  rfl

end Whole
end Binary
end WeightedTransducer
