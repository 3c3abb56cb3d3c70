import WeightedTransducer.Proofs.Weight.Closure

/-!
# Weights are made of their costs

A weight built from costs by pairs is nothing but the costs in it: what `==`, membership, products
and quotients say about a weight, they say about each of its costs (`Weight.IsMadeOf`).  Two such
types make one of pairs (`Weight.IsMadeOf.product`), so this holds however the pairs are nested
(`WeightKind.isMadeOf`), and a statement about such weights can be proved on single costs.
-/

namespace WeightedTransducer

/-- The quotient of two costs does not depend on what the type is called. -/
theorem Cost.value_divide_eq (name name' : String) (a b : Single) :
    (Cost.divide name a b).value = (Cost.divide name' a b).value := by
  unfold Cost.divide
  by_cases hmembers : (!Cost.isMember a || !Cost.isMember b) = true
  · rw [if_pos hmembers, if_pos hmembers]
  · rw [if_neg hmembers, if_neg hmembers]
    split
    · rfl
    · split <;> rfl

namespace Weight

/-- The weights of a type are the tuples of some costs, and `==`, membership and the operations but
`plus` go cost by cost. -/
structure IsMadeOf (W : Type) [Weight W] (costs : List (W → Single)) : Prop where
  ne_nil : costs ≠ []
  ext {v w : W} : (∀ cost ∈ costs, cost v = cost w) → v = w
  beq_iff {v w : W} : (v == w) = true ↔ ∀ cost ∈ costs, Cost.eqv (cost v) (cost w) = true
  isMember_iff {w : W} : isMember w = true ↔ ∀ cost ∈ costs, Cost.isMember (cost w) = true
  zero_eq : ∀ cost ∈ costs, cost Weight.zero = Cost.zero
  one_eq : ∀ cost ∈ costs, cost Weight.one = Cost.one
  times_eq (v w : W) : ∀ cost ∈ costs, cost (Weight.times v w) = Cost.times (cost v) (cost w)
  divide_eq (name : String) (side : Side) (v w : W) : ∀ cost ∈ costs,
    cost (Weight.divide side v w).value = (Cost.divide name (cost v) (cost w)).value

namespace IsMadeOf

/-- A type whose weights are costs is made of one cost. -/
theorem of_isType {W : Type} [Weight W] {value : W → Single} (h : Cost.IsType W value)
    (hext : ∀ {v w : W}, value v = value w → v = w)
    (hbeq : ∀ v w : W, (v == w) = Cost.eqv (value v) (value w))
    (hzero : value Weight.zero = Cost.zero) : IsMadeOf W [value] where
  ne_nil := List.cons_ne_nil _ _
  ext hcosts := hext (hcosts value (List.mem_singleton_self value))
  beq_iff {v w} := by rw [hbeq, List.forall_mem_singleton]
  isMember_iff {w} := by rw [h.isMember, List.forall_mem_singleton]
  zero_eq := List.forall_mem_singleton.mpr hzero
  one_eq := List.forall_mem_singleton.mpr h.one
  times_eq v w := List.forall_mem_singleton.mpr (h.times v w)
  divide_eq name side v w := List.forall_mem_singleton.mpr
    ((h.divide side v w).trans (Cost.value_divide_eq _ name _ _))

theorem tropical : IsMadeOf Tropical [Tropical.value] :=
  of_isType Cost.tropical (fun {v w} h => by cases v; cases w; cases h; rfl) (fun _ _ => rfl) rfl

theorem log [Elementary] : IsMadeOf Log [Log.value] :=
  of_isType Cost.log (fun {v w} h => by cases v; cases w; cases h; rfl) (fun _ _ => rfl) rfl

/-- **Pairs of weights made of costs are made of the costs of both.** -/
theorem product {A B : Type} [Weight A] [Weight B] {first : List (A → Single)}
    {second : List (B → Single)} (hfirst : IsMadeOf A first) (hsecond : IsMadeOf B second) :
    IsMadeOf (Product A B) (Product.costs first second) where
  ne_nil := by
    intro hnil
    have hfirst' : first.map _ = [] := (List.append_eq_nil_iff.mp hnil).1
    exact hfirst.ne_nil (List.map_eq_nil_iff.mp hfirst')
  ext {v w} h := by
    obtain ⟨hcosts, hcosts'⟩ := Product.forall_mem_costs.mp h
    cases v
    cases w
    rw [Product.mk.injEq]
    exact ⟨hfirst.ext hcosts, hsecond.ext hcosts'⟩
  beq_iff {v w} := by
    rw [Product.beq_iff, hfirst.beq_iff, hsecond.beq_iff, Product.forall_mem_costs]
  isMember_iff {w} := by
    rw [Product.isMember_iff, hfirst.isMember_iff, hsecond.isMember_iff, Product.forall_mem_costs]
  zero_eq := Product.forall_mem_costs.mpr ⟨hfirst.zero_eq, hsecond.zero_eq⟩
  one_eq := Product.forall_mem_costs.mpr ⟨hfirst.one_eq, hsecond.one_eq⟩
  times_eq v w := Product.forall_mem_costs.mpr ⟨hfirst.times_eq _ _, hsecond.times_eq _ _⟩
  divide_eq name side v w := Product.forall_mem_costs.mpr
    ⟨hfirst.divide_eq name side _ _, hsecond.divide_eq name side _ _⟩

section Members
variable {W : Type} [Weight W] {costs : List (W → Single)} (h : IsMadeOf W costs)
include h

theorem isMember_zero : isMember (Weight.zero : W) = true := by
  rw [h.isMember_iff]
  intro cost hcost
  rw [h.zero_eq cost hcost]
  rfl

theorem isMember_one : isMember (Weight.one : W) = true := by
  rw [h.isMember_iff]
  intro cost hcost
  rw [h.one_eq cost hcost]
  rfl

end Members
end IsMadeOf
end Weight

/-- **Weights of the kinds built from costs are made of their costs.** -/
theorem WeightKind.isMadeOf [Elementary] {k : WeightKind} (hk : k.OfCosts) :
    Weight.IsMadeOf k.Carrier k.costs := by
  induction hk using OfCosts.induction with
  | tropical => exact Weight.IsMadeOf.tropical
  | log => exact Weight.IsMadeOf.log
  | product first second hfirst hsecond ihf ihs => exact ihf.product ihs

end WeightedTransducer
