import WeightedTransducer.Proofs.Number.Rounding
import WeightedTransducer.Proofs.Weight.Pareto

/-!
# The laws of least costs hold exactly

A sum of least costs is one of its terms, so nothing is rounded in it.  A product is the rounded sum
of two costs, and rounding keeps the order of sums (`Cost.times_le_times_left`).  So products
distribute over sums without any error, as long as no product falls below the range
(`Tropical.times_plus`).  With that, the laws of the semiring hold of all values of the type, and
not only of small whole costs or within a tolerance (`Tropical.semiring_laws`).  The associativity
of products is not among them, because a sum of three costs is rounded twice.
-/

namespace WeightedTransducer

/-! ## Products of costs -/

namespace Cost
variable {a b c : Single}

theorem times_of_not_isMember (h : isMember a = false ∨ isMember b = false) :
    times a b = invalid := by
  unfold times
  rw [if_pos]
  rcases h with h | h <;> simp [h]

/-- The product of two costs is their rounded sum, also where one is infinite. -/
theorem times_eq_add_of_isMember (ha : isMember a = true) (hb : isMember b = true) :
    times a b = a.add b := by
  have hzero {c : Single} (hc : isMember c = true) : zero.add c = zero := by
    rcases eq_zero_or_isFinite hc with rfl | hfinite
    · rfl
    · cases c with
      | nan | infinity => cases hfinite
      | finite => rfl
  rcases eq_zero_or_isFinite ha with rfl | hfinite
  · rw [zero_times hb, hzero hb]
  rcases eq_zero_or_isFinite hb with rfl | hfinite'
  · rw [times_zero ha, Binary.add_comm, hzero ha]
  · exact times_eq_add hfinite hfinite'

theorem times_comm (a b : Single) : times a b = times b a := by
  by_cases hmembers : isMember a = true ∧ isMember b = true
  · obtain ⟨ha, hb⟩ := hmembers
    rw [times_eq_add_of_isMember ha hb, times_eq_add_of_isMember hb ha, Binary.add_comm]
  · rw [not_and_or, Bool.not_eq_true, Bool.not_eq_true] at hmembers
    rw [times_of_not_isMember hmembers, times_of_not_isMember hmembers.symm]

/-- **A product of costs is a cost unless their rounded sum is minus infinity.** -/
theorem isMember_times_iff_add_ne (ha : isMember a = true) (hb : isMember b = true) :
    isMember (times a b) = true ↔ a.add b ≠ .infinity true := by
  have hnan : (times a b).isNan = false := by
    rcases eq_zero_or_isFinite ha with rfl | hfinite
    · rw [zero_times hb]
      rfl
    rcases eq_zero_or_isFinite hb with rfl | hfinite'
    · rw [times_zero ha]
      rfl
    · rw [times_eq_add hfinite hfinite', Binary.isNan_eq]
      cases a <;> cases hfinite
      cases b <;> cases hfinite'
      rw [Binary.place_add_finite]
      rfl
  rw [← times_eq_add_of_isMember ha hb]
  generalize times a b = product at hnan
  cases product with
  | nan => cases hnan
  | infinity negative => cases negative <;> simp [isMember]
  | finite => simp [isMember]

/-- Infinity is the greatest cost. -/
theorem le_zero (ha : isMember a = true) : a.le zero = true := by
  rw [le_iff ha rfl]
  rcases eq_zero_or_isFinite ha with rfl | hfinite
  · exact Int.le_refl _
  · have := natAbs_units_lt hfinite
    have := brink_lt_units_zero
    omega

/-- **A product does not shrink when a factor grows.** -/
theorem times_le_times_left (ha : isMember a = true) (hb : isMember b = true)
    (hc : isMember c = true) (hproduct : isMember (times a b) = true) (h : b.le c = true) :
    (times a b).le (times a c) = true := by
  rcases eq_zero_or_isFinite ha with rfl | hfinite
  · rw [zero_times hb, zero_times hc]
    exact le_zero rfl
  rcases eq_zero_or_isFinite hc with rfl | hfinite'
  · rw [times_zero ha]
    exact le_zero hproduct
  · have hbfinite : b.isFinite = true := by
      refine (eq_zero_or_isFinite hb).resolve_left ?_
      rintro rfl
      have hle := (le_iff rfl hc).mp h
      have := natAbs_units_lt hfinite'
      have := brink_lt_units_zero
      omega
    rw [times_eq_add hfinite hbfinite, times_eq_add hfinite hfinite']
    exact Binary.add_le_add_left hfinite hbfinite hfinite' h

end Cost

/-! ## Sums and products of least costs -/

namespace Tropical
variable {u v w : Tropical}

theorem plus_of_not_isMember (h : Weight.isMember v = false ∨ Weight.isMember w = false) :
    Weight.plus v w = Weight.noWeight := by
  show plus v w = _
  unfold plus
  rw [if_pos]
  · rfl
  · rcases h with h | h
    · rw [show Cost.isMember v.value = false from h]
      rfl
    · rw [show Cost.isMember w.value = false from h]
      simp

theorem times_of_not_isMember (h : Weight.isMember v = false ∨ Weight.isMember w = false) :
    Weight.times v w = Weight.noWeight :=
  congrArg Tropical.mk (Cost.times_of_not_isMember h)

/-- Sums can be regrouped, whatever their terms are. -/
theorem plus_assoc (u v w : Tropical) :
    (Weight.plus (Weight.plus u v) w == Weight.plus u (Weight.plus v w)) = true := by
  have hno : Weight.isMember (Weight.noWeight : Tropical) = false := rfl
  cases hu : Weight.isMember u with
  | false =>
    rw [plus_of_not_isMember (.inl hu), plus_of_not_isMember (.inl hno),
      plus_of_not_isMember (.inl hu)]
    exact BEq.rfl
  | true =>
    cases hv : Weight.isMember v with
    | false =>
      rw [plus_of_not_isMember (.inr hv), plus_of_not_isMember (.inl hno),
        plus_of_not_isMember (.inl hv), plus_of_not_isMember (.inr hno)]
      exact BEq.rfl
    | true =>
      cases hw : Weight.isMember w with
      | false =>
        rw [plus_of_not_isMember (.inr hw), plus_of_not_isMember (.inr hw),
          plus_of_not_isMember (.inr hno)]
        exact BEq.rfl
      | true => exact Weight.Semilattice.plus_assoc hu hv hw

/-- Sums can be reordered, whatever their terms are. -/
theorem plus_comm (v w : Tropical) : (Weight.plus v w == Weight.plus w v) = true := by
  by_cases hmembers : Weight.isMember v = true ∧ Weight.isMember w = true
  · exact Weight.Semilattice.plus_comm hmembers.1 hmembers.2
  · rw [not_and_or, Bool.not_eq_true, Bool.not_eq_true] at hmembers
    rw [plus_of_not_isMember hmembers, plus_of_not_isMember hmembers.symm]
    exact BEq.rfl

theorem times_comm (v w : Tropical) : Weight.times v w = Weight.times w v :=
  congrArg Tropical.mk (Cost.times_comm v.value w.value)

theorem plus_zero (hv : Weight.isMember v = true) : (Weight.plus v Weight.zero == v) = true :=
  (plus_beq_iff hv rfl).mpr (Cost.le_zero hv)

theorem times_one (hv : Weight.isMember v = true) : (Weight.times v Weight.one == v) = true := by
  have hsum : (Weight.times v Weight.one).value = v.value.add (.zero false) :=
    Cost.times_eq_add_of_isMember hv rfl
  rw [beq_iff, hsum]
  exact Binary.place_add_zero v.value

theorem times_zero (hv : Weight.isMember v = true) :
    (Weight.times v Weight.zero == Weight.zero) = true := by
  rw [show Weight.times v Weight.zero = Weight.zero from
    congrArg Tropical.mk (Cost.times_zero hv)]
  exact BEq.rfl

/-- **Products distribute over sums**, if they are members. -/
theorem times_plus (hu : Weight.isMember u = true) (hv : Weight.isMember v = true)
    (hw : Weight.isMember w = true) (huv : Weight.isMember (Weight.times u v) = true)
    (huw : Weight.isMember (Weight.times u w) = true) :
    (Weight.times u (Weight.plus v w) ==
      Weight.plus (Weight.times u v) (Weight.times u w)) = true := by
  rw [plus_eq_ite hv hw]
  by_cases hle : v.value.le w.value = true
  · have hproducts := Cost.times_le_times_left hu hv hw huv hle
    rw [if_pos hle, plus_eq_ite huv huw]
    exact (if_pos hproducts).symm ▸ BEq.rfl
  · -- equal products may have come from different costs, so the sum need not be this product
    have hge : w.value.le v.value = true := by
      rw [Cost.le_iff hv hw] at hle
      rw [Cost.le_iff hw hv]
      omega
    have hproducts := (Cost.le_iff huw huv).mp (Cost.times_le_times_left hu hw hv huw hge)
    rw [if_neg hle, beq_iff_units huw (isMember_plus huv huw), units_plus huv huw]
    exact (Int.min_eq_right hproducts).symm

/-- **The laws of the semiring of least costs**, up to `==` and without a tolerance.  What is no
member makes every sum and product with it the value that is no weight.  Sums are associative and
commutative and products commutative for all values; on members, a sum is one of its terms, zero and
one are identities and zero annihilates.  Products of members distribute over sums unless the
rounded sum of the costs of one of them is minus infinity. -/
theorem semiring_laws :
    (∀ a b : Tropical, Weight.isMember a = false ∨ Weight.isMember b = false →
      Weight.plus a b = Weight.noWeight ∧ Weight.times a b = Weight.noWeight) ∧
    (∀ a b c : Tropical,
      (Weight.plus (Weight.plus a b) c == Weight.plus a (Weight.plus b c)) = true) ∧
    (∀ a b : Tropical, (Weight.plus a b == Weight.plus b a) = true) ∧
    (∀ a b : Tropical, (Weight.times a b == Weight.times b a) = true) ∧
    (∀ a b : Tropical, Weight.isMember a = true → Weight.isMember b = true →
      Weight.plus a b = a ∨ Weight.plus a b = b) ∧
    (∀ a : Tropical, Weight.isMember a = true →
      (Weight.plus a a == a) = true ∧
      (Weight.plus a Weight.zero == a) = true ∧ (Weight.plus Weight.zero a == a) = true ∧
      (Weight.times a Weight.one == a) = true ∧ (Weight.times Weight.one a == a) = true ∧
      (Weight.times a Weight.zero == Weight.zero) = true ∧
      (Weight.times Weight.zero a == Weight.zero) = true) ∧
    (∀ a b c : Tropical, Weight.isMember a = true → Weight.isMember b = true →
      Weight.isMember c = true → a.value.add b.value ≠ .infinity true →
      a.value.add c.value ≠ .infinity true →
      (Weight.times a (Weight.plus b c) ==
        Weight.plus (Weight.times a b) (Weight.times a c)) = true) := by
  refine ⟨fun a b h => ⟨plus_of_not_isMember h, times_of_not_isMember h⟩, plus_assoc, plus_comm,
    fun a b => ?_, fun a b ha hb => ?_, fun a ha => ?_, fun a b c ha hb hc hab hac => ?_⟩
  · rw [times_comm a b]
    exact BEq.rfl
  · rw [plus_eq_ite ha hb]
    split
    · exact .inl rfl
    · exact .inr rfl
  · rw [times_comm Weight.one a, times_comm Weight.zero a]
    have hzero := plus_zero ha
    exact ⟨Weight.Semilattice.plus_self ha, hzero, BEq.trans (plus_comm _ _) hzero, times_one ha,
      times_one ha, times_zero ha, times_zero ha⟩
  · exact times_plus ha hb hc ((Cost.isMember_times_iff_add_ne ha hb).mpr hab)
      ((Cost.isMember_times_iff_add_ne ha hc).mpr hac)

/-- A cost so large that the next one is rounded back to it. -/
theorem semiring_laws_of_absorbed :
    let a : Tropical := ⟨Cost.whole (2 ^ 24)⟩
    let b : Tropical := ⟨Cost.whole 1⟩
    let c : Tropical := ⟨(Cost.whole 3).div (Cost.whole 2)⟩
    let low : Tropical := ⟨.infinity true⟩
    Weight.isMember low = false ∧ Weight.isMember a = true ∧ Weight.isMember b = true ∧
      Weight.isMember c = true ∧ a.value.add b.value ≠ .infinity true ∧
      a.value.add c.value ≠ .infinity true ∧ (Weight.times a b).value = a.value ∧
      (Weight.plus low a = Weight.noWeight ∧ Weight.times low a = Weight.noWeight) ∧
      (Weight.plus a Weight.zero == a) = true ∧
      (Weight.times a (Weight.plus b c) ==
        Weight.plus (Weight.times a b) (Weight.times a c)) = true := by
  intro a b c low
  obtain ⟨hno, -, -, -, -, hmember, htimes⟩ := semiring_laws
  have ha : Weight.isMember a = true := by decide +kernel
  have hb : Weight.isMember b = true := by decide +kernel
  have hc : Weight.isMember c = true := by decide +kernel
  have hab : a.value.add b.value ≠ .infinity true := by decide +kernel
  have hac : a.value.add c.value ≠ .infinity true := by decide +kernel
  have habsorbed : (Weight.times a b).value = a.value := by decide +kernel
  exact ⟨rfl, ha, hb, hc, hab, hac, habsorbed, hno low a (.inl rfl), (hmember a ha).2.1,
    htimes a b c ha hb hc hab hac⟩

end Tropical
end WeightedTransducer
