import WeightedTransducer.Proofs.Weight.Contract
import WeightedTransducer.Proofs.Weight.CostRange
import WeightedTransducer.Proofs.Weight.Equality

/-!
# Which runs of operations stay among the members

A step is one operation on a weight: a sum, a product, a power, a multiple of a tolerance or a
quotient.  On a cost it gives a member exactly if no exact result on the way is rounded to minus
infinity, and a sum always does (`Cost.IsType.isMember_apply_iff`).  On a pair it is a step on both
components, so weights built from costs by pairs leave the members where a cost in them does
(`WeightKind.isMember_apply_iff`), and a run stays among the members exactly if no step of it
overflows (`WeightKind.isMember_scanl_iff`).
-/

namespace WeightedTransducer

/-! ## Steps -/

/-- An operation on a weight. -/
inductive Step (W : Type) where
  /-- The sum with another weight, which stands on either side. -/
  | plus (place : FactorPlace) (other : W)
  /-- The product with another weight. -/
  | times (place : FactorPlace) (other : W)
  /-- A power. -/
  | power (n : Nat)
  /-- The nearest multiple of a tolerance. -/
  | quantize (delta : Single)
  /-- The quotient by another weight. -/
  | divide (side : Side) (divisor : W)

namespace Step
variable {V W : Type}

/-- The weight after an operation. -/
def apply [Weight W] (step : Step W) (w : W) : W :=
  match step with
  | plus .leading other => Weight.plus other w
  | plus .trailing other => Weight.plus w other
  | times place other => place.product other w
  | power n => Weight.power w n
  | quantize delta => Weight.quantize delta w
  | divide side divisor => (Weight.divide side w divisor).value

/-- The operation on a part of the weight. -/
def map (part : V → W) : Step V → Step W
  | plus place other => plus place (part other)
  | times place other => times place (part other)
  | power n => power n
  | quantize delta => quantize delta
  | divide side divisor => divide side (part divisor)

/-- The operations on a weight made of some costs that the contract allows: the other weights are
members, the tolerance is finite and positive, and no cost of the divisor is infinite. -/
def Admitted [Weight W] (costs : List (W → Single)) : Step W → Prop
  | plus _ other => Weight.isMember other = true
  | times _ other => Weight.isMember other = true
  | power _ => True
  | quantize delta => delta.isFinite = true ∧ 0 < Cost.units delta
  | divide _ divisor =>
    Weight.isMember divisor = true ∧ ∀ cost ∈ costs, (cost divisor).same Cost.zero = false

/-- An operation on a cost has an exact result that is rounded to minus infinity. -/
def Overflows : Step Single → Single → Prop
  | plus _ _, _ => False
  | times _ other, cost => Cost.Overflows (Cost.units cost + Cost.units other) 1
  | power n, cost =>
    ∃ i < n, Cost.Overflows (Cost.units (Cost.power cost i) + Cost.units cost) 1
  | quantize delta, cost =>
    Cost.Overflows (Cost.units cost * (2 ^ Format.single.scale : Nat)) (Cost.units delta) ∨
      Cost.Overflows (Cost.units (Cost.multiple delta cost) * Cost.units delta)
        (2 ^ Format.single.scale : Nat)
  | divide _ divisor, cost => Cost.Overflows (Cost.units cost - Cost.units divisor) 1

/-- An operation on a weight made of some costs overflows in one of them. -/
def OverflowsIn (costs : List (W → Single)) (step : Step W) (w : W) : Prop :=
  ∃ cost ∈ costs, (step.map cost).Overflows (cost w)

instance [Weight W] (costs : List (W → Single)) : DecidablePred (Admitted costs)
  | plus _ _ | times _ _ => inferInstanceAs (Decidable (_ = true))
  | power _ => inferInstanceAs (Decidable True)
  | quantize _ | divide _ _ => inferInstanceAs (Decidable (_ ∧ _))

instance : (step : Step Single) → DecidablePred step.Overflows
  | plus _ _ => fun _ => inferInstanceAs (Decidable False)
  | times _ _ | divide _ _ => fun _ => inferInstanceAs (Decidable (Cost.Overflows _ _))
  | power _ => fun _ => inferInstanceAs (Decidable (∃ i < _, _))
  | quantize _ => fun _ => inferInstanceAs (Decidable (_ ∨ _))

instance (costs : List (W → Single)) (step : Step W) : DecidablePred (step.OverflowsIn costs) :=
  fun _ => inferInstanceAs (Decidable (∃ cost ∈ costs, _))

end Step

/-! ## Types of costs -/

/-- The lesser of two costs is a cost. -/
theorem Tropical.isMember_plus {v w : Tropical} (hv : Weight.isMember v = true)
    (hw : Weight.isMember w = true) : Weight.isMember (Weight.plus v w) = true := by
  show Weight.isMember (Tropical.plus v w) = true
  unfold Tropical.plus
  have hv' : Cost.isMember v.value = true := hv
  have hw' : Cost.isMember w.value = true := hw
  rw [hv', hw', if_neg (by decide)]
  split
  · exact hv
  · exact hw

namespace Cost

/-- The cost nearest to a whole number. -/
def whole (n : Int) : Single :=
  Binary.round (n < 0) (n.natAbs * 2 ^ Format.single.scale) 1

/-- A type whose weights are costs, multiplied, divided and rounded as costs. -/
structure IsType (W : Type) [Weight W] (value : W → Single) : Prop where
  isMember (w : W) : Weight.isMember w = Cost.isMember (value w)
  one : value Weight.one = Cost.one
  times (v w : W) : value (Weight.times v w) = Cost.times (value v) (value w)
  divide (side : Side) (v w : W) : value (Weight.divide side v w).value =
    (Cost.divide (Weight.typeName W) (value v) (value w)).value
  quantize (delta : Single) (w : W) :
    value (Weight.quantize delta w) = Cost.quantize delta (value w)

theorem tropical : IsType Tropical Tropical.value where
  isMember _ := rfl
  one := rfl
  times _ _ := rfl
  divide _ _ _ := rfl
  quantize _ _ := rfl

theorem log [Elementary] : IsType Log Log.value where
  isMember _ := rfl
  one := rfl
  times _ _ := rfl
  divide _ _ _ := rfl
  quantize _ _ := rfl

namespace IsType
variable {W : Type} [Weight W] {value : W → Single}

theorem power (h : IsType W value) (w : W) (n : Nat) :
    value (Weight.power w n) = Cost.power (value w) n := by
  induction n with
  | zero => exact h.one
  | succ n ih =>
    rw [Weight.power_succ, h.times, ih]
    rfl

/-- **An operation on a cost gives a cost unless it overflows**, where sums of costs are costs. -/
theorem isMember_apply_iff (h : IsType W value)
    (hplus : ∀ {v w : W}, Weight.isMember v = true → Weight.isMember w = true →
      Weight.isMember (Weight.plus v w) = true)
    {step : Step W} (hstep : step.Admitted [value]) {w : W} (hw : Weight.isMember w = true) :
    Weight.isMember (step.apply w) = true ↔ ¬ step.OverflowsIn [value] w := by
  have hoverflows : step.OverflowsIn [value] w ↔ (step.map value).Overflows (value w) := by
    simp [Step.OverflowsIn]
  rw [hoverflows]
  have hw' := (h.isMember w).symm.trans hw
  cases step with
  | plus place other =>
    refine iff_of_true ?_ not_false
    cases place
    · exact hplus hstep hw
    · exact hplus hw hstep
  | times place other =>
    have hother := (h.isMember other).symm.trans hstep
    rw [h.isMember]
    cases place
    · exact (h.times other w ▸ isMember_times_iff hother hw').trans
        (by rw [Int.add_comm]; exact Iff.rfl)
    · exact h.times w other ▸ isMember_times_iff hw' hother
  | power n =>
    rw [h.isMember]
    refine (h.power w n ▸ isMember_power_iff hw' n).trans ?_
    simp [Step.map, Step.Overflows]
  | quantize delta =>
    rw [h.isMember]
    exact (h.quantize delta w ▸ isMember_quantize_iff hstep.1 hstep.2 hw').trans not_or.symm
  | divide side divisor =>
    have hdivisor := (h.isMember divisor).symm.trans hstep.1
    have hne := hstep.2 value (List.mem_singleton_self value)
    rw [h.isMember]
    exact h.divide side w divisor ▸ isMember_divide_iff hw' hdivisor hne

end IsType
end Cost

/-! ## Pairs -/

namespace Product
variable {A B : Type}

/-- The costs of a pair are those of its components. -/
def costs (first : List (A → Single)) (second : List (B → Single)) :
    List (Product A B → Single) :=
  first.map (fun cost w => cost w.first) ++ second.map (fun cost w => cost w.second)

/-- What holds of every cost of a pair holds of those of both components. -/
theorem forall_mem_costs {first : List (A → Single)} {second : List (B → Single)}
    {P : (Product A B → Single) → Prop} :
    (∀ cost ∈ costs first second, P cost) ↔
      (∀ cost ∈ first, P fun w => cost w.first) ∧ ∀ cost ∈ second, P fun w => cost w.second := by
  simp [costs, or_imp, forall_and]

/-- A pair overflows where a component does. -/
theorem overflowsIn_iff {first : List (A → Single)} {second : List (B → Single)}
    {step : Step (Product A B)} {w : Product A B} :
    step.OverflowsIn (costs first second) w ↔
      (step.map Product.first).OverflowsIn first w.first ∨
        (step.map Product.second).OverflowsIn second w.second := by
  have hmap {C : Type} (part : Product A B → C) (cost : C → Single) :
      step.map (fun w => cost (part w)) = (step.map part).map cost := by
    cases step <;> rfl
  simp [Step.OverflowsIn, costs, or_and_right, exists_or, hmap Product.first, hmap Product.second]

variable [Weight A] [Weight B]

/-- An operation on a pair is the operation on both components. -/
theorem apply_eq (step : Step (Product A B)) (w : Product A B) :
    step.apply w =
      ⟨(step.map Product.first).apply w.first, (step.map Product.second).apply w.second⟩ := by
  cases step with
  | plus place other => cases place <;> rfl
  | times place other => exact product_eq place other w
  | power n => exact power_eq w n
  | quantize delta => rfl
  | divide side divisor => rfl

theorem admitted_iff {first : List (A → Single)} {second : List (B → Single)}
    {step : Step (Product A B)} :
    step.Admitted (costs first second) ↔
      (step.map Product.first).Admitted first ∧ (step.map Product.second).Admitted second := by
  cases step with
  | plus place other => exact isMember_iff
  | times place other => exact isMember_iff
  | power n => exact (and_iff_left trivial).symm
  | quantize delta => exact (and_self_iff).symm
  | divide side divisor => exact (and_congr isMember_iff forall_mem_costs).trans and_and_and_comm

theorem isMember_apply_iff {step : Step (Product A B)} {w : Product A B} :
    Weight.isMember (step.apply w) = true ↔
      Weight.isMember ((step.map Product.first).apply w.first) = true ∧
        Weight.isMember ((step.map Product.second).apply w.second) = true := by
  rw [apply_eq]
  exact isMember_iff

end Product

namespace WeightKind

/-- The costs that a weight is made of. -/
def costs : (k : WeightKind) → List (k.Carrier → Single)
  | tropical => [Tropical.value]
  | log => [Log.value]
  | boolean => []
  | finite _ => []
  | product first second => Product.costs first.costs second.costs

/-- **An operation on a weight made of costs gives a member unless it overflows in one of them.** -/
theorem isMember_apply_iff [Elementary] (hbounded : Elementary.Bounded) {k : WeightKind}
    (hk : k.OfCosts) {step : Step k.Carrier} (hstep : step.Admitted k.costs) {w : k.Carrier}
    (hw : Weight.isMember w = true) :
    Weight.isMember (step.apply w) = true ↔ ¬ step.OverflowsIn k.costs w := by
  induction hk using OfCosts.induction with
  | tropical => exact Cost.tropical.isMember_apply_iff Tropical.isMember_plus hstep hw
  | log => exact Cost.log.isMember_apply_iff (Log.isMember_plus hbounded) hstep hw
  | product first second hk hk' ihf ihs =>
    obtain ⟨hfirst, hsecond⟩ := Product.admitted_iff.mp hstep
    obtain ⟨hw1, hw2⟩ := Product.isMember_iff.mp hw
    refine Product.isMember_apply_iff.trans (Iff.trans ?_ (not_congr Product.overflowsIn_iff).symm)
    rw [not_or, ihf hfirst hw1, ihs hsecond hw2]

end WeightKind

/-! ## Runs -/

/-- What holds of every element of a list and what was folded before it. -/
theorem forall_split_cons {α β : Type} (f : β → α → β) (P : α → β → Prop) (x : α)
    (xs : List α) (b : β) :
    (∀ front y back, x :: xs = front ++ y :: back → P y (front.foldl f b)) ↔
      P x b ∧ ∀ front y back, xs = front ++ y :: back → P y (front.foldl f (f b x)) := by
  constructor
  · refine fun h => ⟨h [] x xs rfl, fun front y back heq => ?_⟩
    exact h (x :: front) y back (congrArg (x :: ·) heq)
  · rintro ⟨hx, hxs⟩ front y back heq
    rcases List.cons_eq_append_iff.mp heq with ⟨rfl, hy⟩ | ⟨front, rfl, hy⟩
    · cases hy
      exact hx
    · exact hxs front y back hy

namespace WeightKind

/-- **A run of operations stays among the members unless one of its steps overflows.**  A sum never
overflows, and the other steps do if an exact sum, difference, quotient or multiple on the way lies
so far below zero that it is rounded to minus infinity.  Nothing is asked of the exponential and the
logarithm but that they stay in their ranges. -/
theorem isMember_scanl_iff [Elementary] (hbounded : Elementary.Bounded) {k : WeightKind}
    (hk : k.OfCosts) {steps : List (Step k.Carrier)}
    (hsteps : ∀ step ∈ steps, step.Admitted k.costs) {w : k.Carrier}
    (hw : Weight.isMember w = true) :
    (∀ v ∈ steps.scanl (fun v step => step.apply v) w, Weight.isMember v = true) ↔
      ∀ front step back, steps = front ++ step :: back →
        ¬ step.OverflowsIn k.costs (front.foldl (fun v step => step.apply v) w) := by
  induction steps generalizing w with
  | nil => simp [hw]
  | cons step steps ih =>
    obtain ⟨hstep, hsteps⟩ := List.forall_mem_cons.mp hsteps
    rw [List.scanl_cons, List.forall_mem_cons, and_iff_right hw]
    refine Iff.trans ?_ (forall_split_cons (fun v step => Step.apply step v)
      (fun step v => ¬ Step.OverflowsIn k.costs step v) step steps w).symm
    rw [← isMember_apply_iff hbounded hk hstep hw]
    -- a run that has left the members is not looked at any further
    by_cases hnext : Weight.isMember (step.apply w) = true
    · rw [ih hsteps hnext, and_iff_right hnext]
    · refine iff_of_false (fun hall => hnext (hall _ ?_)) fun h => hnext h.1
      cases steps with
      | nil => exact List.mem_singleton_self _
      | cons => exact List.scanl_cons ▸ List.mem_cons_self

/-- A run over pairs that stays among the members, with the exponential and the logarithm that are
computed. -/
theorem isMember_scanl_iff_of_pairs :
    let k : WeightKind := .product .tropical .log
    let w : k.Carrier := (⟨⟨Cost.whole (-3)⟩, ⟨Cost.whole 5⟩⟩ : Product Tropical Log)
    let steps : List (Step k.Carrier) := [.times .trailing w, .plus .leading w, .power 3,
      .quantize Weight.defaultDelta, .divide .any w]
    Elementary.Bounded ∧ k.OfCosts ∧ (∀ step ∈ steps, step.Admitted k.costs) ∧
      Weight.isMember w = true ∧ ∀ front step back, steps = front ++ step :: back →
        ¬ step.OverflowsIn k.costs (front.foldl (fun v step => step.apply v) w) := by
  intro k w steps
  have hk : k.OfCosts := ⟨trivial, trivial⟩
  have hsteps : ∀ step ∈ steps, step.Admitted k.costs := by decide +kernel
  have hw : Weight.isMember w = true := by decide +kernel
  have hbounded := Elementary.bounded_computed
  have hmembers := (isMember_scanl_iff hbounded hk hsteps hw).mp (by decide +kernel)
  exact ⟨hbounded, hk, hsteps, hw, hmembers⟩

/-- **Single steps that lead out of the costs**: `-2 ^ 127` times itself, and the multiple of 1/1024
nearest to `-10 ^ 36`. -/
theorem not_isMember_apply_of_overflow :
    let low : tropical.Carrier := (⟨Cost.whole (-2 ^ 127)⟩ : Tropical)
    let value : tropical.Carrier := (⟨Cost.whole (-10 ^ 36)⟩ : Tropical)
    let square : Step tropical.Carrier := .times .trailing low
    let rounding : Step tropical.Carrier := .quantize Weight.defaultDelta
    (Weight.isMember low = true ∧ square.Admitted tropical.costs ∧
      Weight.isMember (square.apply low) = false) ∧
    Weight.isMember value = true ∧ rounding.Admitted tropical.costs ∧
      Weight.isMember (rounding.apply value) = false := by
  intro low value square rounding
  decide +kernel

end WeightKind
end WeightedTransducer
