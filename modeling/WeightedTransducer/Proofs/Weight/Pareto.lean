import WeightedTransducer.Proofs.Weight.KindCosts
import WeightedTransducer.Proofs.Weight.NaturalOrder

/-!
# The natural order of nested costs

Among the types built from costs by pairs, those have a natural order whose every leaf is a cost of
which the least counts (`WeightKind.isDefined_iff`).  A sum of such weights is the lesser cost at
every leaf, so the natural order compares all the leaves at once: it is the order of Pareto, in
which a weight is below another one that is nowhere less and somewhere greater
(`WeightKind.less_iff_dominates`).  Two weights are not ordered if each is less than the other
somewhere, which needs two leaves; a single cost has a total order, and no pair has
(`WeightKind.naturalOrder_iff`).
-/

namespace WeightedTransducer

namespace Cost

/-! ## Costs in a line -/

theorem place_eq_units {a : Single} (h : isMember a = true) : a.place = some (units a) := by
  cases a with
  | nan => cases h
  | infinity | finite => rfl

section Members
variable {a b : Single} (ha : isMember a = true) (hb : isMember b = true)
include ha hb

theorem le_iff : a.le b = true ↔ units a ≤ units b := by
  unfold Binary.le
  rw [place_eq_units ha, place_eq_units hb]
  exact decide_eq_true_iff

theorem lt_iff : a.lt b = true ↔ units a < units b := by
  unfold Binary.lt
  rw [place_eq_units ha, place_eq_units hb]
  exact decide_eq_true_iff

/-- The two zeros are one place, so they are equal costs. -/
theorem eqv_iff_units : eqv a b = true ↔ units a = units b := by
  rw [eqv_iff, place_eq_units ha, place_eq_units hb, Option.some.injEq]

end Members
end Cost

/-! ## Least costs -/

namespace Tropical
variable {v w : Tropical} (hv : Weight.isMember v = true) (hw : Weight.isMember w = true)
include hv hw

theorem beq_iff_units : (v == w) = true ↔ Cost.units v.value = Cost.units w.value :=
  Cost.eqv_iff_units hv hw

/-- A sum of members is the lesser one. -/
theorem plus_eq_ite : Weight.plus v w = if v.value.le w.value then v else w := by
  have hv' : Cost.isMember v.value = true := hv
  have hw' : Cost.isMember w.value = true := hw
  show plus v w = _
  unfold plus
  rw [hv', hw', if_neg (by decide)]

theorem units_plus :
    Cost.units (Weight.plus v w).value = min (Cost.units v.value) (Cost.units w.value) := by
  rw [plus_eq_ite hv hw]
  by_cases hle : v.value.le w.value = true
  · rw [if_pos hle, Int.min_eq_left ((Cost.le_iff hv hw).mp hle)]
  · have hlt : Cost.units w.value ≤ Cost.units v.value := by
      rw [Cost.le_iff hv hw] at hle
      omega
    rw [if_neg hle, Int.min_eq_right hlt]

theorem plus_beq_iff : (Weight.plus v w == v) = true ↔ v.value.le w.value = true := by
  rw [beq_iff_units (Tropical.isMember_plus hv hw) hv, units_plus hv hw,
    Cost.le_iff hv hw]
  omega

end Tropical

/-- Sums of least costs are the meets of a line. -/
instance : Weight.Semilattice Tropical where
  isMember_plus := Tropical.isMember_plus
  plus_congr {v v' w w'} hv hw := by
    have hsum := Tropical.isMember_plus hv.left hw.left
    have hsum' := Tropical.isMember_plus hv.right hw.right
    rw [Tropical.beq_iff_units hsum hsum', Tropical.units_plus hv.left hw.left,
      Tropical.units_plus hv.right hw.right,
      (Tropical.beq_iff_units hv.left hv.right).mp hv.beq,
      (Tropical.beq_iff_units hw.left hw.right).mp hw.beq]
  plus_assoc {u v w} hu hv hw := by
    have huv := Tropical.isMember_plus hu hv
    have hvw := Tropical.isMember_plus hv hw
    rw [Tropical.beq_iff_units (Tropical.isMember_plus huv hw)
      (Tropical.isMember_plus hu hvw), Tropical.units_plus huv hw, Tropical.units_plus hu hvw,
      Tropical.units_plus hu hv, Tropical.units_plus hv hw]
    omega
  plus_comm {v w} hv hw := by
    rw [Tropical.beq_iff_units (Tropical.isMember_plus hv hw)
      (Tropical.isMember_plus hw hv), Tropical.units_plus hv hw, Tropical.units_plus hw hv]
    omega
  plus_self {v} hv := by
    rw [Tropical.beq_iff_units (Tropical.isMember_plus hv hv) hv, Tropical.units_plus hv hv]
    omega

/-! ## Pareto's order -/

namespace Weight

/-- No cost of the first weight is greater than that of the second, and one is less. -/
def Dominates {W : Type} (costs : List (W → Single)) (a b : W) : Prop :=
  (∀ cost ∈ costs, (cost a).le (cost b) = true) ∧ ∃ cost ∈ costs, (cost a).lt (cost b) = true

/-- Each of two weights has a cost that is less than that of the other. -/
def Crosses {W : Type} (costs : List (W → Single)) (a b : W) : Prop :=
  (∃ cost ∈ costs, (cost a).lt (cost b) = true) ∧ ∃ cost ∈ costs, (cost b).lt (cost a) = true

namespace IsMadeOf
variable {W : Type} [Weight W] {costs : List (W → Single)} (h : IsMadeOf W costs)
include h

/-- The one is less than zero somewhere. -/
theorem exists_one_lt_zero : ∃ cost ∈ costs, (cost Weight.one).lt (cost Weight.zero) = true := by
  obtain ⟨cost, hcost⟩ := List.exists_mem_of_ne_nil costs h.ne_nil
  refine ⟨cost, hcost, ?_⟩
  rw [h.one_eq cost hcost, h.zero_eq cost hcost, Cost.lt_iff rfl rfl]
  exact Int.lt_trans Cost.brink_pos Cost.brink_lt_units_zero

omit h in
/-- In a pair, the one can be less than zero in either component. -/
theorem exists_crosses {A B : Type} [Weight A] [Weight B] {first : List (A → Single)}
    {second : List (B → Single)} (hfirst : IsMadeOf A first) (hsecond : IsMadeOf B second) :
    ∃ a b : Product A B, isMember a = true ∧ isMember b = true ∧
      Crosses (Product.costs first second) a b := by
  obtain ⟨cost, hcost, hlt⟩ := hfirst.exists_one_lt_zero
  obtain ⟨cost', hcost', hlt'⟩ := hsecond.exists_one_lt_zero
  -- each of the two is less where it is the one
  refine ⟨⟨Weight.one, Weight.zero⟩, ⟨Weight.zero, Weight.one⟩, ?_, ?_, ?_⟩
  · exact Product.isMember_iff.mpr ⟨hfirst.isMember_one, hsecond.isMember_zero⟩
  · exact Product.isMember_iff.mpr ⟨hfirst.isMember_zero, hsecond.isMember_one⟩
  · refine ⟨⟨fun w => cost w.first, ?_, hlt⟩, fun w => cost' w.second, ?_, hlt'⟩
    · exact List.mem_append_left _ (List.mem_map_of_mem hcost)
    · exact List.mem_append_right _ (List.mem_map_of_mem hcost')

section Members
variable {a b : W} (ha : isMember a = true) (hb : isMember b = true)
include ha hb

/-- A weight that is nowhere greater than another is less somewhere unless they are equal. -/
theorem beq_eq_false_iff_of_le (hle : ∀ cost ∈ costs, (cost a).le (cost b) = true) :
    (a == b) = false ↔ ∃ cost ∈ costs, (cost a).lt (cost b) = true := by
  rw [← Bool.not_eq_true, h.beq_iff]
  push Not
  refine exists_congr fun cost => and_congr_right fun hcost => ?_
  have ha' := h.isMember_iff.mp ha cost hcost
  have hb' := h.isMember_iff.mp hb cost hcost
  have hle' := hle cost hcost
  rw [Cost.le_iff ha' hb'] at hle'
  rw [ne_eq, Cost.eqv_iff_units ha' hb', Cost.lt_iff ha' hb']
  omega

/-- A weight that is not at most another one everywhere is greater somewhere. -/
theorem not_forall_le_iff :
    (¬ ∀ cost ∈ costs, (cost a).le (cost b) = true) ↔
      ∃ cost ∈ costs, (cost b).lt (cost a) = true := by
  push Not
  refine exists_congr fun cost => and_congr_right fun hcost => ?_
  have ha' := h.isMember_iff.mp ha cost hcost
  have hb' := h.isMember_iff.mp hb cost hcost
  rw [ne_eq, Cost.le_iff ha' hb', Cost.lt_iff hb' ha']
  omega

end Members
end IsMadeOf
end Weight

namespace WeightKind
variable {k : WeightKind}

/-- Every leaf is a cost of which the least counts. -/
def OnlyTropical (k : WeightKind) : Prop :=
  ∀ leaf ∈ k.leaves, leaf = tropical

instance : DecidablePred OnlyTropical :=
  fun k => inferInstanceAs (Decidable (∀ leaf ∈ k.leaves, _))

theorem onlyTropical_product_iff {first second : WeightKind} :
    (product first second).OnlyTropical ↔ first.OnlyTropical ∧ second.OnlyTropical :=
  List.forall_mem_append

theorem not_onlyTropical_log : ¬ log.OnlyTropical := by
  intro h
  cases h log (List.mem_singleton_self _)

/-- What holds of least costs, and of pairs if it holds of both components. -/
@[elab_as_elim]
theorem OnlyTropical.induction {P : WeightKind → Prop} {k : WeightKind} (hk : k.OnlyTropical)
    (htropical : P tropical)
    (hproduct : ∀ first second : WeightKind, P first → P second → P (product first second)) :
    P k := by
  induction k with
  | product first second ihf ihs =>
    obtain ⟨hfirst, hsecond⟩ := onlyTropical_product_iff.mp hk
    exact hproduct first second (ihf hfirst) (ihs hsecond)
  | tropical => exact htropical
  | log => cases hk log (List.mem_singleton_self _)
  | boolean => cases hk boolean (List.mem_singleton_self _)
  | finite table => cases hk (finite table) (List.mem_singleton_self _)

theorem OnlyTropical.ofCosts (hk : k.OnlyTropical) : k.OfCosts :=
  hk.induction trivial fun _ _ hfirst hsecond => ⟨hfirst, hsecond⟩

theorem OnlyTropical.semilattice [Elementary] (hk : k.OnlyTropical) :
    Weight.Semilattice k.Carrier := by
  refine hk.induction ?_ ?_
  · exact inferInstanceAs (Weight.Semilattice Tropical)
  · intro first second hfirst hsecond
    exact inferInstanceAs (Weight.Semilattice (Product first.Carrier second.Carrier))

/-! ## Which types have an order -/

/-- **A type of costs has a natural order exactly if every leaf is a least cost.** -/
theorem isDefined_iff [Elementary] (hk : k.OfCosts) :
    NaturalOrder.isDefined k.Carrier = true ↔ k.OnlyTropical := by
  induction hk using OfCosts.induction with
  | tropical =>
    have hdefined : NaturalOrder.isDefined Tropical = true := rfl
    exact iff_of_true hdefined (by decide)
  | log =>
    have hundefined : ¬ (Properties.semiring.union .commutative).contains .idempotent = true := by
      decide
    exact iff_of_false hundefined not_onlyTropical_log
  | product first second hfirst hsecond ihf ihs =>
    have hasked := Product.isAsked_properties (A := first.Carrier) (B := second.Carrier) .idempotent
    rw [onlyTropical_product_iff, ← ihf, ← ihs, ← Bool.and_eq_true]
    exact Bool.eq_iff_iff.mp (hasked.trans (Bool.and_true _))

/-- Only single costs declare that a sum is one of its terms. -/
theorem contains_path_iff [Elementary] (hk : k.OfCosts) :
    (Weight.properties k.Carrier).contains .path = true ↔ k = tropical := by
  induction hk using OfCosts.induction with
  | tropical =>
    have hpath : (Weight.properties Tropical).contains .path = true := rfl
    exact iff_of_true hpath rfl
  | log =>
    have hpath : ¬ (Properties.semiring.union .commutative).contains .path = true := by decide
    exact iff_of_false hpath nofun
  | product first second hfirst hsecond =>
    have hasked := Product.isAsked_properties (A := first.Carrier) (B := second.Carrier) .path
    exact iff_of_false (Bool.eq_false_iff.mp (hasked.trans (Bool.and_false _))) nofun

theorem isTotal_create_iff [Elementary] (hk : k.OfCosts) :
    (NaturalOrder.create : Traced (NaturalOrder k.Carrier)).value.isTotal = true ↔
      k = tropical := by
  rw [NaturalOrder.value_create]
  unfold NaturalOrder.isTotal
  rw [Bool.and_eq_true, isDefined_iff hk, contains_path_iff hk]
  refine and_iff_right_of_imp ?_
  rintro rfl
  decide

/-! ## The order -/

/-- A sum is its first term exactly if that is nowhere greater than the second. -/
theorem plus_beq_iff [Elementary] (hk : k.OnlyTropical) :
    ∀ a b : k.Carrier, Weight.isMember a = true → Weight.isMember b = true →
      ((Weight.plus a b == a) = true ↔ ∀ cost ∈ k.costs, (cost a).le (cost b) = true) := by
  refine hk.induction ?_ ?_
  · intro a b ha hb
    show _ ↔ ∀ cost ∈ [Tropical.value], (cost a).le (cost b) = true
    rw [List.forall_mem_singleton]
    exact Tropical.plus_beq_iff ha hb
  · intro first second ihf ihs a b ha hb
    obtain ⟨ha1, ha2⟩ := Product.isMember_iff.mp ha
    obtain ⟨hb1, hb2⟩ := Product.isMember_iff.mp hb
    show _ ↔ ∀ cost ∈ Product.costs first.costs second.costs, (cost a).le (cost b) = true
    rw [Product.forall_mem_costs]
    exact Product.beq_iff.trans (and_congr (ihf _ _ ha1 hb1) (ihs _ _ ha2 hb2))

section Order
variable [Elementary] (hk : k.OnlyTropical) (order : NaturalOrder k.Carrier) {a b : k.Carrier}
  (ha : Weight.isMember a = true) (hb : Weight.isMember b = true)
include hk ha hb

/-- **The natural order is Pareto's.** -/
theorem less_iff_dominates : order.less a b = true ↔ Weight.Dominates k.costs a b := by
  rw [NaturalOrder.less_iff, plus_beq_iff hk a b ha hb]
  exact and_congr_right ((isMadeOf hk.ofCosts).beq_eq_false_iff_of_le ha hb)

/-- **Two weights are not ordered exactly if they cross.** -/
theorem compare_eq_none_iff_crosses :
    order.compare a b = none ↔ Weight.Crosses k.costs a b := by
  -- equal members have their sum for an equal, so at most is what the sum alone tells
  have := hk.semilattice
  have hmade := isMadeOf hk.ofCosts
  rw [NaturalOrder.compare_eq_none_iff, ← Bool.not_eq_true, ← Bool.not_eq_true,
    order.atMost_iff_plus ha hb, order.atMost_iff_plus hb ha, plus_beq_iff hk a b ha hb,
    plus_beq_iff hk b a hb ha, hmade.not_forall_le_iff ha hb, hmade.not_forall_le_iff hb ha]
  exact and_comm

end Order

/-- **Any two members are ordered only if they are single costs.** -/
theorem forall_isSome_compare_iff [Elementary] (hk : k.OnlyTropical)
    (order : NaturalOrder k.Carrier) :
    (∀ a b : k.Carrier, Weight.isMember a = true → Weight.isMember b = true →
      (order.compare a b).isSome = true) ↔ k = tropical := by
  have hnone {a b : k.Carrier} (ha : Weight.isMember a = true) (hb : Weight.isMember b = true) :=
    compare_eq_none_iff_crosses hk order ha hb
  cases k with
  | tropical =>
    refine iff_of_true (fun a b ha hb => ?_) rfl
    rw [Option.isSome_iff_ne_none, Ne, hnone ha hb]
    -- there is only one cost to be less in
    rintro ⟨⟨cost, hcost, hab⟩, cost', hcost', hba⟩
    cases List.mem_singleton.mp hcost
    cases List.mem_singleton.mp hcost'
    rw [Cost.lt_iff ha hb] at hab
    rw [Cost.lt_iff hb ha] at hba
    omega
  | product first second =>
    refine iff_of_false (fun hall => ?_) nofun
    obtain ⟨a, b, ha, hb, hcrosses⟩ :=
      (isMadeOf hk.ofCosts.1).exists_crosses (isMadeOf hk.ofCosts.2)
    have hsome := hall a b ha hb
    rw [(hnone ha hb).mpr hcrosses] at hsome
    cases hsome
  | log => cases hk log (List.mem_singleton_self _)
  | boolean => cases hk boolean (List.mem_singleton_self _)
  | finite table => cases hk (finite table) (List.mem_singleton_self _)

/-- **The natural order of a type of costs.**  It can be created, and is valid, exactly if every
leaf is a least cost; it is total exactly if the type is that of the costs themselves, and only then
are any two members ordered.  A weight is less than another one exactly if it dominates that one,
and two weights are not ordered exactly if each is less than the other at some leaf. -/
theorem naturalOrder_iff [Elementary] {k : WeightKind} (hk : k.OfCosts) :
    let created := (NaturalOrder.create : Traced (NaturalOrder k.Carrier)).value
    (∀ order : NaturalOrder k.Carrier,
      NaturalOrder.create? = .ok order ↔ k.OnlyTropical ∧ order = created) ∧
    (created.valid = true ↔ k.OnlyTropical) ∧
    (created.isTotal = true ↔ k = tropical) ∧
    (k.OnlyTropical → ∀ order : NaturalOrder k.Carrier,
      ((∀ a b : k.Carrier, Weight.isMember a = true → Weight.isMember b = true →
        (order.compare a b).isSome = true) ↔ k = tropical) ∧
      ∀ a b : k.Carrier, Weight.isMember a = true → Weight.isMember b = true →
        (order.less a b = true ↔ Weight.Dominates k.costs a b) ∧
        (order.compare a b = none ↔ Weight.Crosses k.costs a b)) := by
  intro created
  have hvalid : created.valid = true ↔ k.OnlyTropical := by
    show (NaturalOrder.create : Traced (NaturalOrder k.Carrier)).value.valid = true ↔ _
    rw [NaturalOrder.value_create]
    exact isDefined_iff hk
  refine ⟨fun order => ?_, hvalid, isTotal_create_iff hk, fun htropical order => ⟨?_, ?_⟩⟩
  · rw [NaturalOrder.create?_eq_ok_iff, isDefined_iff hk]
  · exact forall_isSome_compare_iff htropical order
  · intro a b ha hb
    exact ⟨less_iff_dominates htropical order ha hb,
      compare_eq_none_iff_crosses htropical order ha hb⟩

/-- Three costs, of which one is infinite and one is a zero of either sign. -/
theorem naturalOrder_iff_of_triples :
    let k : WeightKind := .product (.product .tropical .tropical) .tropical
    let triple (x y z : Single) : k.Carrier :=
      (⟨⟨⟨x⟩, ⟨y⟩⟩, ⟨z⟩⟩ : Product (Product Tropical Tropical) Tropical)
    let a := triple (Cost.whole (-1)) (.zero true) (.infinity false)
    let b := triple (Cost.whole 2) (.zero false) (.infinity false)
    let c := triple (Cost.whole (-3)) (Cost.whole 5) (Cost.whole 7)
    k.OfCosts ∧ k.OnlyTropical ∧ Weight.isMember a = true ∧ Weight.isMember b = true ∧
      Weight.isMember c = true ∧
      ∃ order : NaturalOrder k.Carrier, NaturalOrder.create? = .ok order ∧
        order.isTotal = false ∧ order.less a b = true ∧ order.compare a c = none := by
  intro k triple a b c
  have hk : k.OfCosts := ⟨⟨trivial, trivial⟩, trivial⟩
  have htropical : k.OnlyTropical := by decide
  obtain ⟨hcreated, -, htotal, horder⟩ := naturalOrder_iff hk
  obtain ⟨-, hpairs⟩ := horder htropical NaturalOrder.create.value
  have ha : Weight.isMember a = true := by decide +kernel
  have hb : Weight.isMember b = true := by decide +kernel
  have hc : Weight.isMember c = true := by decide +kernel
  refine ⟨hk, htropical, ha, hb, hc, NaturalOrder.create.value, ?_, ?_, ?_, ?_⟩
  · exact (hcreated _).mpr ⟨htropical, rfl⟩
  · rw [← Bool.not_eq_true, htotal]
    nofun
  · exact (hpairs a b ha hb).1.mpr ⟨by decide +kernel, by decide +kernel⟩
  · exact (hpairs a c ha hc).2.mpr ⟨by decide +kernel, by decide +kernel⟩

end WeightKind
end WeightedTransducer
