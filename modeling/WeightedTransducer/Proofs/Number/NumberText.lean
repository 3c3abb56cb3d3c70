import Mathlib.Data.List.TakeWhile
import WeightedTransducer.Proofs.Number.Numeral
import WeightedTransducer.Proofs.Text.Blank
import WeightedTransducer.Text.Integer
import WeightedTransducer.Weight.Cost

/-!
# The texts of numbers read back

A number is written in digits, after a minus sign if it is negative; a cost may have a point as
well, and its values without digits have words of their own.  Reading what was written gives the
same number, for whole numbers within bounds (`Text.integer?_writeInteger`) and for every cost
(`Cost.read_write`).  Which characters occur in these texts is needed wherever they stand inside a
composite text (`Cost.mem_characters_of_mem_write`).
-/

namespace WeightedTransducer
namespace Text

/-! ## Digits -/

theorem all_isDigit_toDigits (n : Nat) : ∀ c ∈ Nat.toDigits 10 n, c.isDigit = true :=
  fun _ hc => Nat.isDigit_of_mem_toDigits (by decide) (by decide) hc

theorem takeSign_of_isDigit {c : Char} (hc : c.isDigit) (rest : List Char) :
    takeSign (c :: rest) = (false, c :: rest) := by
  unfold takeSign
  split
  · rename_i h
    cases h
    exact absurd hc (by decide)
  · rename_i h
    cases h
    exact absurd hc (by decide)
  · rfl

/-- Digits begin with a digit. -/
theorem exists_toDigits_eq_cons (n : Nat) :
    ∃ c rest, Nat.toDigits 10 n = c :: rest ∧ c.isDigit := by
  obtain ⟨c, rest, h⟩ := List.exists_cons_of_ne_nil (Nat.toDigits_ne_nil (n := n) (b := 10))
  exact ⟨c, rest, h, all_isDigit_toDigits n c (h ▸ List.mem_cons_self)⟩

theorem takeSign_toDigits (n : Nat) :
    takeSign (Nat.toDigits 10 n) = (false, Nat.toDigits 10 n) := by
  obtain ⟨c, rest, h, hc⟩ := exists_toDigits_eq_cons n
  rw [h, takeSign_of_isDigit hc]

theorem digits?_toDigits (n : Nat) : digits? (Nat.toDigits 10 n) = some n := by
  have hall : (Nat.toDigits 10 n).all Char.isDigit = true :=
    List.all_eq_true.mpr (all_isDigit_toDigits n)
  simp [digits?, hall]

theorem mem_of_isDigit {c : Char} (hc : c.isDigit) : c ∈ "0123456789".toList := by
  have hrange : 48 ≤ c.toNat ∧ c.toNat ≤ 57 := by
    simp only [Char.isDigit, Bool.and_eq_true, decide_eq_true_eq] at hc
    exact ⟨UInt32.le_iff_toNat_le.mp hc.1, UInt32.le_iff_toNat_le.mp hc.2⟩
  have hten : ∀ k < 10, Char.ofNat (48 + k) ∈ "0123456789".toList := by decide
  obtain ⟨k, hk⟩ := Nat.exists_eq_add_of_le hrange.1
  rw [← Char.ofNat_toNat c, hk]
  exact hten k (by omega)

/-! ## Whole numbers -/

theorem signed_natAbs (value : Int) : signed (decide (value < 0)) value.natAbs = value := by
  unfold signed
  by_cases h : value < 0
  · rw [if_pos (decide_eq_true h)]
    omega
  · rw [if_neg (by simpa using h)]
    omega

theorem takeSign_writeInteger (value : Int) :
    takeSign (writeInteger value) = (decide (value < 0), Nat.toDigits 10 value.natAbs) := by
  unfold writeInteger
  split
  · rename_i h
    simp [takeSign, h]
  · rename_i h
    rw [takeSign_toDigits]
    simp [h]

/-- **A whole number within the bounds reads back.** -/
theorem integer?_writeInteger {least greatest value : Int} (hl : least ≤ value)
    (hg : value ≤ greatest) : integer? least greatest (writeInteger value) = some value := by
  have hsign : (decide (value < 0) && decide (0 ≤ least)) = false := by
    simp only [Bool.and_eq_false_iff, decide_eq_false_iff_not]
    omega
  simp [integer?, takeSign_writeInteger, digits?_toDigits, signed_natAbs, hsign, hl, hg]

/-- A natural number that is not too large reads back from its digits. -/
theorem natural?_toDigits {greatest n : Nat} (h : n ≤ greatest) :
    natural? greatest (Nat.toDigits 10 n) = some n := by
  have hread : integer? 0 greatest (writeInteger n) = some (n : Int) :=
    integer?_writeInteger (by omega) (by omega)
  unfold writeInteger at hread
  rw [if_neg (by omega)] at hread
  simp only [natural?, Int.natAbs_natCast] at hread ⊢
  rw [hread]
  rfl

/-- The front of the digits of a number are the digits of a number, and that is zero only if the
whole one is. -/
theorem exists_toDigits_of_prefix {n : Nat} {front : List Char} (hne : front ≠ [])
    (h : front <+: Nat.toDigits 10 n) :
    ∃ m, front = Nat.toDigits 10 m ∧ m ≤ n ∧ (m = 0 → n = 0) := by
  induction n using Nat.strongRecOn with
  | ind n ih =>
    by_cases hsmall : n < 10
    · rw [Nat.toDigits_of_lt_base hsmall] at h
      obtain ⟨x, rest, rfl⟩ := List.exists_cons_of_ne_nil hne
      obtain ⟨rfl, hrest⟩ := List.cons_prefix_cons.mp h
      obtain rfl := List.prefix_nil.mp hrest
      exact ⟨n, (Nat.toDigits_of_lt_base hsmall).symm, Nat.le_refl n, id⟩
    · have hdigits : Nat.toDigits 10 n = Nat.toDigits 10 (n / 10) ++ [(n % 10).digitChar] := by
        rw [Nat.toDigits_eq_if (by decide : 1 < 10), if_neg hsmall]
      rw [hdigits] at h
      rcases List.prefix_concat_iff.mp h with heq | hshort
      · exact ⟨n, heq.trans hdigits.symm, Nat.le_refl n, id⟩
      · obtain ⟨m, hm, hle, hzero⟩ := ih (n / 10) (by omega) hshort
        exact ⟨m, hm, by omega, fun h0 => by have := hzero h0; omega⟩

/-! ## Numerals -/

theorem numeral?_of_digits {text : List Char} (hne : text ≠ [])
    (hd : ∀ c ∈ text, c.isDigit = true) (negative : Bool) :
    numeral? negative text = some ⟨negative, Nat.ofDigitChars 10 text 0, 0⟩ := by
  have htake : text.takeWhile Char.isDigit = text := List.takeWhile_eq_self_iff.mpr hd
  have hdrop : text.dropWhile Char.isDigit = [] := List.dropWhile_eq_nil_iff.mpr hd
  simp [numeral?, htake, hdrop, takeFraction, powerOfTen?, hne]

theorem numeral?_of_point {whole fraction : List Char} (hne : whole ≠ [])
    (hw : ∀ c ∈ whole, c.isDigit = true) (hf : ∀ c ∈ fraction, c.isDigit = true)
    (negative : Bool) :
    numeral? negative (whole ++ '.' :: fraction) =
      some ⟨negative, Nat.ofDigitChars 10 (whole ++ fraction) 0, -(fraction.length : Int)⟩ := by
  have hpoint : ('.' : Char).isDigit = false := by decide
  have htake : (whole ++ '.' :: fraction).takeWhile Char.isDigit = whole := by
    rw [List.takeWhile_append_of_pos hw, List.takeWhile_cons_of_neg (by simp [hpoint]),
      List.append_nil]
  have hdrop : (whole ++ '.' :: fraction).dropWhile Char.isDigit = '.' :: fraction := by
    rw [List.dropWhile_append_of_pos hw, List.dropWhile_cons_of_neg (by simp [hpoint])]
  have hftake : fraction.takeWhile Char.isDigit = fraction := List.takeWhile_eq_self_iff.mpr hf
  have hfdrop : fraction.dropWhile Char.isDigit = [] := List.dropWhile_eq_nil_iff.mpr hf
  simp [numeral?, htake, hdrop, takeFraction, hftake, hfdrop, powerOfTen?, hne]

end Text

namespace NumberStyle
variable {style : NumberStyle}

/-! ## Digits laid out -/

theorem layOut_ofNat (hs : style.showsPoint = false) (digits : List Char) (power : Nat) :
    style.layOut digits (.ofNat power) = digits ++ List.replicate power '0' := by
  simp [layOut, hs]

/-- Digits with a point have zeros in front, at most, and as many places behind the point as the
power of ten says. -/
theorem exists_layOut_negSucc (style : NumberStyle) (digits : List Char) (less : Nat) :
    ∃ whole fraction zeros, style.layOut digits (.negSucc less) = whole ++ '.' :: fraction ∧
      whole ≠ [] ∧ fraction.length = less + 1 ∧
      whole ++ fraction = List.replicate zeros '0' ++ digits := by
  refine ⟨_, _, less + 1 + 1 - digits.length, rfl, ?_, ?_, List.take_append_drop _ _⟩
  all_goals generalize hp : List.replicate (less + 1 + 1 - digits.length) '0' ++ digits = padded
  all_goals
    have hlen : less + 2 ≤ padded.length := by
      rw [← hp, List.length_append, List.length_replicate]
      omega
  · exact List.ne_nil_of_length_pos (by rw [List.length_take]; omega)
  · rw [List.length_drop]
    omega

theorem isDigit_of_mem_zeros_append {zeros n : Nat} {c : Char}
    (hc : c ∈ List.replicate zeros '0' ++ Nat.toDigits 10 n) : c.isDigit = true := by
  rcases List.mem_append.mp hc with hc | hc
  · rw [(List.mem_replicate.mp hc).2]
    decide
  · exact Text.all_isDigit_toDigits n c hc

theorem isDigit_of_mem_append_zeros {zeros n : Nat} {c : Char}
    (hc : c ∈ Nat.toDigits 10 n ++ List.replicate zeros '0') : c.isDigit = true :=
  isDigit_of_mem_zeros_append (List.mem_append.mpr (List.mem_append.mp hc).symm)

/-- Digits laid out are a numeral worth what the digits and the power of ten say. -/
theorem exists_numeral?_layOut (hs : style.showsPoint = false) {f : Format} (negative : Bool)
    (n : Nat) (e : Int) :
    ∃ d, Text.numeral? negative (style.layOut (Nat.toDigits 10 n) e) = some d ∧
      (Binary.ofDecimal d : Binary f) = Binary.ofDecimal ⟨negative, n, e⟩ := by
  match e with
  | .ofNat power =>
    refine ⟨⟨negative, 10 ^ power * n, 0⟩, ?_, ?_⟩
    · rw [layOut_ofNat hs, Text.numeral?_of_digits (by simp)
        (fun c hc => isDigit_of_mem_append_zeros hc), Nat.ofDigitChars_append,
        Nat.ofDigitChars_ten_toDigits, Nat.ofDigitChars_replicate_zero]
    · rw [Binary.ofDecimal_mul_pow]
      congr 2
      exact Int.zero_add _
  | .negSucc less =>
    obtain ⟨whole, fraction, zeros, htext, hne, hlen, hdigits⟩ :=
      exists_layOut_negSucc style (Nat.toDigits 10 n) less
    have hall : ∀ c ∈ whole ++ fraction, c.isDigit = true := by
      rw [hdigits]
      exact fun c hc => isDigit_of_mem_zeros_append hc
    refine ⟨⟨negative, n, .negSucc less⟩, ?_, rfl⟩
    rw [htext, Text.numeral?_of_point hne (fun c hc => hall c (List.mem_append_left _ hc))
      (fun c hc => hall c (List.mem_append_right _ hc)), hdigits, Nat.ofDigitChars_append,
      Nat.ofDigitChars_replicate_zero, Nat.mul_zero, Nat.ofDigitChars_ten_toDigits, hlen]
    rfl

/-- Digits laid out begin with a digit, and besides digits there is at most a point. -/
theorem exists_layOut_eq_cons (hs : style.showsPoint = false) (n : Nat) (e : Int) :
    ∃ c rest, style.layOut (Nat.toDigits 10 n) e = c :: rest ∧ c.isDigit = true ∧
      ∀ x ∈ rest, x.isDigit = true ∨ x = '.' := by
  match e with
  | .ofNat power =>
    obtain ⟨c, rest, h, hc⟩ := Text.exists_toDigits_eq_cons n
    refine ⟨c, rest ++ List.replicate power '0', by rw [layOut_ofNat hs, h]; rfl, hc, ?_⟩
    intro x hx
    have hmem : x ∈ Nat.toDigits 10 n ++ List.replicate power '0' := by
      rw [h]
      exact List.mem_cons_of_mem _ hx
    exact Or.inl (isDigit_of_mem_append_zeros hmem)
  | .negSucc less =>
    obtain ⟨whole, fraction, zeros, htext, hne, -, hdigits⟩ :=
      exists_layOut_negSucc style (Nat.toDigits 10 n) less
    have hall : ∀ c ∈ whole ++ fraction, c.isDigit = true := by
      rw [hdigits]
      exact fun c hc => isDigit_of_mem_zeros_append hc
    obtain ⟨c, rest, rfl⟩ := List.exists_cons_of_ne_nil hne
    refine ⟨c, rest ++ '.' :: fraction, htext, hall c (by simp), ?_⟩
    intro x hx
    rcases List.mem_append.mp hx with hx | hx
    · exact Or.inl (hall x (by simp [hx]))
    · rcases List.mem_cons.mp hx with rfl | hx
      · exact Or.inr rfl
      · exact Or.inl (hall x (by simp [hx]))

end NumberStyle

namespace Cost

/-! ## Costs -/

/-- The characters of the texts of costs. -/
def characters : List Char :=
  "0123456789.-InfinityBadNumber".toList

theorem isBlank_eq_false_of_mem_characters :
    ∀ c ∈ characters, Text.isBlank c = false := by
  decide

theorem showsPoint_style : style.showsPoint = false := rfl

/-- A finite cost is written as a sign and digits laid out. -/
theorem write_finite (negative : Bool) {units : Nat} (h : Format.single.Holds units) :
    ∃ n e, write (.finite negative units h) =
        NumberStyle.sign negative ++ style.layOut (Nat.toDigits 10 n) e ∧
      (Binary.ofDecimal ⟨negative, n, e⟩ : Single) = .finite negative units h := by
  have hshort := Binary.ofDecimal_shortest (f := .single) (by decide) negative h
  have hneg := Binary.negative_shortest negative h
  unfold write NumberStyle.write
  generalize Binary.shortest (Binary.finite negative units h) = d at hshort hneg
  subst hneg
  refine ⟨d.coefficient, d.exponent, ?_, hshort⟩
  simp [NumberStyle.magnitude, style]

theorem mem_characters_of_mem_write {value : Single} {c : Char} (hc : c ∈ write value) :
    c ∈ characters := by
  have hdigit {x : Char} (hx : x.isDigit = true) : x ∈ characters := by
    have hsub : ∀ y ∈ "0123456789".toList, y ∈ characters := by decide
    exact hsub x (Text.mem_of_isDigit hx)
  match value with
  | .nan .. => exact (by decide : ∀ x ∈ write invalid, x ∈ characters) c hc
  | .infinity false => exact (by decide : ∀ x ∈ write (.infinity false), x ∈ characters) c hc
  | .infinity true => exact (by decide : ∀ x ∈ write (.infinity true), x ∈ characters) c hc
  | .finite negative units h =>
    obtain ⟨n, e, htext, -⟩ := write_finite negative h
    obtain ⟨x, rest, hlay, hx, hrest⟩ :=
      NumberStyle.exists_layOut_eq_cons showsPoint_style n e
    rw [htext, hlay] at hc
    rcases List.mem_append.mp hc with hc | hc
    · have hsign : ∀ y ∈ NumberStyle.sign negative, y ∈ characters := by cases negative <;> decide
      exact hsign c hc
    · rcases List.mem_cons.mp hc with rfl | hc
      · exact hdigit hx
      · rcases hrest c hc with hd | rfl
        · exact hdigit hd
        · decide

theorem write_ne_nil (value : Single) : write value ≠ [] := by
  match value with
  | .nan .. => exact (by decide : write invalid ≠ [])
  | .infinity false => decide
  | .infinity true => decide
  | .finite negative units h =>
    obtain ⟨n, e, htext, -⟩ := write_finite negative h
    obtain ⟨x, rest, hlay, -⟩ := NumberStyle.exists_layOut_eq_cons showsPoint_style n e
    rw [htext, hlay]
    simp

/-- The text of a finite cost is none of the words, and none of the words that a number can be
written in. -/
theorem read?_sign_append {c : Char} (hc : c.isDigit = true) (negative : Bool)
    (rest : List Char) :
    (Binary.read? (NumberStyle.sign negative ++ c :: rest) : Option Single) =
      (Text.numeral? negative (c :: rest)).map Binary.ofDecimal := by
  have hsign : Text.takeSign (NumberStyle.sign negative ++ c :: rest) = (negative, c :: rest) := by
    cases negative
    · exact Text.takeSign_of_isDigit hc rest
    · rfl
  have hlower : ∀ y ∈ "0123456789".toList, y.toLower ≠ 'i' ∧ y.toLower ≠ 'n' := by decide
  obtain ⟨hi, hn⟩ := hlower c (Text.mem_of_isDigit hc)
  unfold Binary.read?
  rw [hsign]
  simp [hi, hn]

/-- What is read back from the text of a value: the value, but of those that are not a number always
the quiet one. -/
def readBack (value : Single) : Single :=
  if value.isNan then invalid else value

theorem readBack_finite (negative : Bool) {units : Nat} (h : Format.single.Holds units) :
    readBack (.finite negative units h) = .finite negative units h := rfl

theorem eqv_readBack (value : Single) : eqv (readBack value) value = true := by
  unfold readBack
  rw [eqv_iff]
  cases value <;> rfl

/-- **Every cost reads back from its text**, minus zero and the values that are no members
included. -/
theorem read_write (typeName : String) (value : Single) :
    read typeName (write value) = .ok (readBack value) := by
  match value with
  | .nan .. => rfl
  | .infinity false => rfl
  | .infinity true => rfl
  | .finite negative units h =>
    obtain ⟨n, e, htext, hvalue⟩ := write_finite negative h
    obtain ⟨c, rest, hlay, hc, -⟩ := NumberStyle.exists_layOut_eq_cons showsPoint_style n e
    obtain ⟨d, hd, hworth⟩ :=
      NumberStyle.exists_numeral?_layOut showsPoint_style (f := .single) negative n e
    have hletter : ∀ y ∈ "0123456789".toList, y ≠ 'I' ∧ y ≠ '-' ∧ y ≠ 'B' := by decide
    obtain ⟨hI, hminus, hB⟩ := hletter c (Text.mem_of_isDigit hc)
    have hread : Binary.read? (write (.finite negative units h)) =
        some (Binary.finite negative units h) := by
      rw [htext, hlay, read?_sign_append hc, ← hlay, hd, Option.map_some, hworth, hvalue]
    unfold read
    rw [readBack_finite, hread, htext, hlay]
    cases negative <;> simp [NumberStyle.sign, hI, hminus, hB]

/-- The digits are characters of costs. -/
theorem exists_mem_write_of_isDigit {c : Char} (hc : c.isDigit = true) :
    ∃ value, c ∈ write value := by
  -- a digit is the text of the cost that it names
  have hten : ∀ y ∈ "0123456789".toList, y ∈ write (Binary.ofNat (y.toNat - 48)) := by
    decide +kernel
  exact ⟨_, hten c (Text.mem_of_isDigit hc)⟩

end Cost
end WeightedTransducer
