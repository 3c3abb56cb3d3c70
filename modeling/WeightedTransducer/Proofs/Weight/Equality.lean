import WeightedTransducer.Weight.Kind

/-!
# Equality of weights

Weights are equal by the `==` of their type, which identifies the two zeros and makes what is not a
number equal to itself.  It is an equivalence on costs, because it compares places
(`Cost.eqv_iff`), and therefore on pairs; so codices can rely on it.
-/

namespace WeightedTransducer

/-- Where values are equal exactly if something about them is the same, equality is an
equivalence. -/
theorem equivBEq_of_iff {α β : Type} [BEq α] (f : α → β)
    (h : ∀ a b : α, (a == b) = true ↔ f a = f b) : EquivBEq α where
  rfl := (h _ _).mpr rfl
  symm hab := (h _ _).mpr ((h _ _).mp hab).symm
  trans hab hbc := (h _ _).mpr (((h _ _).mp hab).trans ((h _ _).mp hbc))

theorem Binary.place_infinity_ne_place_zero {f : Format} :
    (Binary.infinity false : Binary f).place ≠ (Binary.zero false : Binary f).place := by
  intro h
  have hlimit : ((2 ^ f.limit : Nat) : Int) = 0 := Option.some.inj h
  exact absurd (Int.natCast_eq_zero.mp hlimit) (Nat.ne_of_gt (Nat.two_pow_pos _))

theorem Tropical.beq_iff {v w : Tropical} :
    (v == w) = true ↔ v.value.place = w.value.place :=
  Cost.eqv_iff

theorem Log.beq_iff [Elementary] {v w : Log} : (v == w) = true ↔ v.value.place = w.value.place :=
  Cost.eqv_iff

theorem Tropical.zero_ne_one : ((Weight.zero : Tropical) == Weight.one) = false := by
  rw [Bool.eq_false_iff]
  exact fun h => Binary.place_infinity_ne_place_zero (Tropical.beq_iff.mp h)

theorem Log.zero_ne_one [Elementary] : ((Weight.zero : Log) == Weight.one) = false := by
  rw [Bool.eq_false_iff]
  exact fun h => Binary.place_infinity_ne_place_zero (Log.beq_iff.mp h)

instance : EquivBEq Tropical :=
  equivBEq_of_iff (fun w => w.value.place) fun _ _ => Tropical.beq_iff

instance [Elementary] : EquivBEq Log :=
  equivBEq_of_iff (fun w => w.value.place) fun _ _ => Log.beq_iff

instance : @EquivBEq Boolean Weight.toBEq :=
  letI : BEq Boolean := Weight.toBEq
  equivBEq_of_iff id fun _ _ => decide_eq_true_iff

instance (table : FiniteTable) : @EquivBEq (FiniteWeight table) Weight.toBEq :=
  letI : BEq (FiniteWeight table) := Weight.toBEq
  equivBEq_of_iff (fun w => w.index) fun a b => beq_iff_eq (a := a.index) (b := b.index)

section Product
variable {A B : Type} [Weight A] [Weight B]

theorem Product.beq_iff {v w : Product A B} :
    (v == w) = true ↔ (v.first == w.first) = true ∧ (v.second == w.second) = true := by
  show (v.first == w.first && v.second == w.second) = true ↔ _
  exact Bool.and_eq_true_iff

instance [EquivBEq A] [EquivBEq B] : EquivBEq (Product A B) where
  rfl := Product.beq_iff.mpr ⟨BEq.rfl, BEq.rfl⟩
  symm h := by
    obtain ⟨hfirst, hsecond⟩ := Product.beq_iff.mp h
    exact Product.beq_iff.mpr ⟨BEq.symm hfirst, BEq.symm hsecond⟩
  trans h h' := by
    obtain ⟨hfirst, hsecond⟩ := Product.beq_iff.mp h
    obtain ⟨hfirst', hsecond'⟩ := Product.beq_iff.mp h'
    exact Product.beq_iff.mpr ⟨BEq.trans hfirst hfirst', BEq.trans hsecond hsecond'⟩

end Product

namespace WeightKind

instance instEquivBEq [Elementary] : (k : WeightKind) → EquivBEq k.Carrier
  | tropical => inferInstanceAs (EquivBEq Tropical)
  | log => inferInstanceAs (EquivBEq Log)
  | boolean => inferInstanceAs (@EquivBEq Boolean Weight.toBEq)
  | finite table => inferInstanceAs (@EquivBEq (FiniteWeight table) Weight.toBEq)
  | product first second =>
    letI := instEquivBEq first
    letI := instEquivBEq second
    inferInstanceAs (EquivBEq (Product first.Carrier second.Carrier))

/-- The kinds that pairs are built from, in order. -/
def leaves : WeightKind → List WeightKind
  | product first second => first.leaves ++ second.leaves
  | k => [k]

theorem leaves_ne_nil (k : WeightKind) : k.leaves ≠ [] := by
  induction k with
  | product first second ihf _ => exact List.append_ne_nil_of_left_ne_nil ihf _
  | _ => exact List.cons_ne_nil _ _

/-- The kinds built from costs by pairs. -/
def OfCosts : WeightKind → Prop
  | tropical => True
  | log => True
  | boolean => False
  | finite _ => False
  | product first second => first.OfCosts ∧ second.OfCosts

/-- What holds of the two costs, and of pairs if it holds of both components. -/
@[elab_as_elim]
theorem OfCosts.induction {P : (k : WeightKind) → k.OfCosts → Prop} (tropical : P tropical trivial)
    (log : P log trivial)
    (product : ∀ (first second : WeightKind) (hfirst : first.OfCosts) (hsecond : second.OfCosts),
      P first hfirst → P second hsecond → P (product first second) ⟨hfirst, hsecond⟩)
    {k : WeightKind} (hk : k.OfCosts) : P k hk := by
  induction k with
  | tropical => exact tropical
  | log => exact log
  | boolean => exact hk.elim
  | finite table => exact hk.elim
  | product first second ihf ihs => exact product first second hk.1 hk.2 (ihf hk.1) (ihs hk.2)

theorem zero_ne_one [Elementary] {k : WeightKind} (hk : k.OfCosts) :
    ((Weight.zero : k.Carrier) == Weight.one) = false := by
  induction hk using OfCosts.induction with
  | tropical => exact Tropical.zero_ne_one
  | log => exact Log.zero_ne_one
  | product first second hfirst hsecond ihf ihs =>
    show ((Weight.zero : first.Carrier) == Weight.one
      && (Weight.zero : second.Carrier) == Weight.one) = false
    rw [ihf, Bool.false_and]

end WeightKind
end WeightedTransducer
