import WeightedTransducer.Proofs.Number.Whole
import WeightedTransducer.Proofs.Weight.KindCosts

/-!
# Random weights can be divided by

A weight that is drawn at random for a type built from costs is zero, where that is allowed, or all
of its costs are whole numbers below `Weight.sampleCount`; and every such weight is drawn from some
source (`WeightKind.drawn_iff`).  No weight is drawn that is zero in some of its costs only, because
a pair draws its components where zero is not allowed.  So a weight that is drawn and is not zero
can be divided by: costs that are whole numbers are added and subtracted without rounding, and the
product of two such weights divided by one of them is the other one
(`Weight.IsMadeOf.divide_times_of_isSample`).
-/

namespace WeightedTransducer

/-! ## Samples -/

namespace Cost

/-- A whole cost that is drawn at random. -/
def IsSample (cost : Single) : Prop :=
  ∃ n < Weight.sampleCount, cost = Binary.ofNat n

theorem whole_le_limit : Format.single.precision + Format.single.scale ≤ Format.single.limit := by
  decide

theorem isFinite_ofNat {n : Nat} (hn : n < 2 ^ Format.single.precision) :
    (Binary.ofNat n : Single).isFinite = true := by
  rw [Binary.ofNat_eq whole_le_limit hn]
  rfl

/-- The sum of two samples has few enough bits to be exact. -/
theorem lt_two_pow_precision {n : Nat} (hn : n < 2 * Weight.sampleCount) :
    n < 2 ^ Format.single.precision :=
  Nat.lt_trans hn (by decide)

theorem IsSample.isFinite {cost : Single} (h : IsSample cost) : cost.isFinite = true := by
  obtain ⟨n, hn, hcost⟩ := h
  rw [hcost]
  exact isFinite_ofNat (lt_two_pow_precision (by omega))

/-- **The product of samples divided by one of them is the other one**, which may be infinite. -/
theorem IsSample.value_divide_times {name : String} {a b : Single} (ha : IsSample a)
    (hb : b = zero ∨ IsSample b) : (divide name (times a b) a).value = b := by
  rcases hb with rfl | hb
  · rw [times_zero (isMember_of_isFinite ha.isFinite), value_zero_divide ha.isFinite]
  · rw [times_eq_add ha.isFinite hb.isFinite]
    obtain ⟨m, hm, ha⟩ := ha
    obtain ⟨n, hn, hb⟩ := hb
    have hm' := lt_two_pow_precision (n := m) (by omega)
    have hn' := lt_two_pow_precision (n := n) (by omega)
    have hsum := lt_two_pow_precision (n := m + n) (by omega)
    rw [ha, hb, Binary.add_ofNat whole_le_limit hm' hn',
      value_divide_eq_sub (isFinite_ofNat hsum) (isFinite_ofNat hm'),
      Binary.sub_ofNat whole_le_limit (Nat.le_add_right m n) hsum, Nat.add_sub_cancel_left]

end Cost

namespace Weight
variable {W : Type} [Weight W]

/-- A weight made of some costs that is drawn at random: zero, where that is allowed, or whole in
every cost. -/
def IsSample (costs : List (W → Single)) (allowZero : Bool) (w : W) : Prop :=
  (w = zero ∧ allowZero = true) ∨ ∀ cost ∈ costs, Cost.IsSample (cost w)

theorem isSample_false_iff {costs : List (W → Single)} {w : W} :
    IsSample costs false w ↔ ∀ cost ∈ costs, Cost.IsSample (cost w) :=
  or_iff_right fun h => Bool.false_ne_true h.2

/-- A sample is zero if one of its costs is. -/
theorem IsSample.eq_zero {costs : List (W → Single)} {allowZero : Bool} {w : W}
    (hw : IsSample costs allowZero w) {cost : W → Single} (hcost : cost ∈ costs)
    (hzero : Cost.eqv (cost w) Cost.zero = true) : w = zero := by
  rcases hw with ⟨rfl, -⟩ | hcosts
  · rfl
  · have hunits : Cost.units (cost w) = Cost.units Cost.zero :=
      congrArg (Option.getD · 0) (Cost.eqv_iff.mp hzero)
    have hbelow := Cost.natAbs_units_lt (hcosts cost hcost).isFinite
    have habove := Cost.brink_lt_units_zero
    omega

namespace IsMadeOf
variable {costs : List (W → Single)} (h : IsMadeOf W costs)
include h

theorem isMember_of_isSample {allowZero : Bool} {w : W} (hw : IsSample costs allowZero w) :
    isMember w = true := by
  rcases hw with ⟨rfl, -⟩ | hcosts
  · exact h.isMember_zero
  · rw [h.isMember_iff]
    intro cost hcost
    exact Cost.isMember_of_isFinite (hcosts cost hcost).isFinite

/-- **The product of samples divided by one of them that is not zero is the other one.** -/
theorem divide_times_of_isSample {allowZero allowZero' : Bool} {a b : W}
    (ha : IsSample costs allowZero a) (hne : (a == zero) = false)
    (hb : IsSample costs allowZero' b) (side : Side) :
    (divide side (times a b) a).value = b := by
  rcases ha with ⟨rfl, -⟩ | ha
  · have hself : ((zero : W) == zero) = true := h.beq_iff.mpr fun _ _ => Cost.eqv_iff.mpr rfl
    rw [hself] at hne
    cases hne
  · refine h.ext fun cost hcost => ?_
    rw [h.divide_eq (typeName W) side _ _ cost hcost, h.times_eq _ _ cost hcost]
    refine (ha cost hcost).value_divide_times ?_
    rcases hb with ⟨rfl, -⟩ | hb
    · exact Or.inl (h.zero_eq cost hcost)
    · exact Or.inr (hb cost hcost)

end IsMadeOf
end Weight

/-! ## What is drawn -/

section Source
variable {σ : Type} [Source σ]

theorem Cost.random_cases (allowZero : Bool) (source : σ) :
    ((Cost.random allowZero source).1 = Cost.zero ∧ allowZero = true) ∨
      Cost.IsSample (Cost.random allowZero source).1 := by
  obtain ⟨n, hn, hrandom⟩ : ∃ n < Weight.sampleCount + if allowZero then 1 else 0,
      (Cost.random allowZero source).1 =
        if n = Weight.sampleCount then Cost.zero else Binary.ofNat n :=
    ⟨_, (Source.below _ _ source).1.isLt, rfl⟩
  rw [hrandom]
  by_cases hlast : n = Weight.sampleCount
  · rw [if_pos hlast]
    refine Or.inl ⟨rfl, ?_⟩
    -- only the greater bound leaves room for the last number
    by_contra hallow
    rw [if_neg hallow] at hn
    omega
  · rw [if_neg hlast]
    refine Or.inr ⟨n, ?_, rfl⟩
    split at hn <;> omega

variable {A B : Type} [Weight A] [Weight B] [RandomWeight A] [RandomWeight B]

theorem Product.value_randomPair (source : σ) :
    (Product.randomPair source : Traced (Product A B × σ)).value =
      let first := (RandomWeight.random (W := A) false source).value
      let second := (RandomWeight.random (W := B) false first.2).value
      (⟨first.1, second.1⟩, second.2) :=
  rfl

theorem Product.random_true (source : σ) :
    (RandomWeight.random true source : Traced (Product A B × σ)) =
      let draw := Source.oneIn (Weight.sampleCount + 1) (Nat.succ_pos _) source
      if draw.1 then pure (Weight.zero, draw.2) else Product.randomPair draw.2 := by
  unfold RandomWeight.random
  dsimp only [instRandomWeight]
  rcases Source.oneIn (Weight.sampleCount + 1) (Nat.succ_pos _) source with ⟨happens, rest⟩
  cases happens <;> rfl

/-- A pair is drawn as zero, where that is allowed, or as two components that are not. -/
theorem Product.random_cases (allowZero : Bool) (source : σ) :
    ((RandomWeight.random allowZero source).value.1 = (Weight.zero : Product A B) ∧
        allowZero = true) ∨
      ∃ first second : σ, (RandomWeight.random allowZero source).value.1 =
        (⟨(RandomWeight.random false first).value.1, (RandomWeight.random false second).value.1⟩ :
          Product A B) := by
  have hpair (source : σ) : ∃ first second : σ, (Product.randomPair source).value.1 =
      (⟨(RandomWeight.random false first).value.1, (RandomWeight.random false second).value.1⟩ :
        Product A B) :=
    ⟨source, _, rfl⟩
  cases allowZero with
  | false => exact Or.inr (hpair source)
  | true =>
    rw [Product.random_true]
    dsimp only
    split
    · exact Or.inl ⟨rfl, rfl⟩
    · exact Or.inr (hpair _)

end Source

namespace RandomWeight
variable {W σ : Type} [Weight W] [RandomWeight W] [Source σ]

/-- Every sample is drawn from some state of the source. -/
theorem exists_of_mem_sample {allowZero : Bool} {count : Nat} {source : σ} {w : W}
    (hw : w ∈ (sample allowZero count source).value.1) :
    ∃ state : σ, w = (random allowZero state).value.1 := by
  induction count generalizing source with
  | zero => cases hw
  | succ count ih =>
    rcases List.mem_cons.mp hw with hfirst | hrest
    · exact ⟨source, hfirst⟩
    · exact ih hrest

/-- A weight is among the samples that some source gives. -/
def Drawn {W : Type} [Weight W] [RandomWeight W] (allowZero : Bool) (w : W) : Prop :=
  ∃ (σ : Type) (_ : Source σ) (source : σ) (count : Nat),
    w ∈ (sample allowZero count source).value.1

end RandomWeight

/-! ## Everything is drawn -/

/-- A source that gives numbers decided in advance, of which those that are too great count as
nothing. -/
structure ScriptedSource where
  /-- The numbers still to be given. -/
  draws : List Nat

instance : Source ScriptedSource where
  below n hn script :=
    let draw := script.draws.headD 0
    (if h : draw < n then ⟨draw, h⟩ else ⟨0, hn⟩, ⟨script.draws.tail⟩)
  oneIn _ _ script := (script.draws.headD 0 = 0, ⟨script.draws.tail⟩)

theorem Cost.random_script (allowZero : Bool) {n : Nat} (hn : n < Weight.sampleCount)
    (rest : List Nat) :
    Cost.random allowZero (⟨n :: rest⟩ : ScriptedSource) = (Binary.ofNat n, ⟨rest⟩) := by
  have hbound : n < Weight.sampleCount + if allowZero then 1 else 0 :=
    Nat.lt_of_lt_of_le hn (Nat.le_add_right _ _)
  have hbelow : (Source.below _ (Nat.add_pos_left (by decide) _) (⟨n :: rest⟩ : ScriptedSource)) =
      ((⟨n, hbound⟩, ⟨rest⟩) : Fin _ × ScriptedSource) := by
    show (if h : n < _ then _ else _, _) = _
    rw [dif_pos hbound]
    rfl
  unfold Cost.random
  dsimp only
  rw [hbelow, if_neg (Nat.ne_of_lt hn)]

namespace WeightKind
variable {k : WeightKind}

/-- **Only samples are drawn.** -/
theorem isSample_random [Elementary] (hk : k.OfCosts) {σ : Type} [Source σ] (allowZero : Bool)
    (source : σ) :
    Weight.IsSample k.costs allowZero
      (RandomWeight.random (W := k.Carrier) allowZero source).value.1 := by
  induction hk using OfCosts.induction generalizing allowZero source with
  | tropical | log =>
    rcases Cost.random_cases allowZero source with ⟨hzero, hallow⟩ | hsample
    · exact Or.inl ⟨(isMadeOf (by trivial)).ext (List.forall_mem_singleton.mpr hzero), hallow⟩
    · exact Or.inr (List.forall_mem_singleton.mpr hsample)
  | product first second hfirst hsecond ihf ihs =>
    rcases Product.random_cases (A := first.Carrier) (B := second.Carrier) allowZero source with
      hzero | ⟨state, state', hpair⟩
    · exact Or.inl hzero
    · have hleft := Weight.isSample_false_iff.mp (ihf false state)
      have hright := Weight.isSample_false_iff.mp (ihs false state')
      refine Or.inr fun cost hcost => ?_
      have hcosts := (Product.forall_mem_costs (P := fun cost => Cost.IsSample (cost ⟨_, _⟩))).mpr
        ⟨hleft, hright⟩ cost hcost
      rwa [← hpair] at hcosts

/-- A weight that is whole in every cost is drawn from a script, of which the rest is left. -/
theorem exists_script [Elementary] (hk : k.OfCosts) {w : k.Carrier}
    (hw : ∀ cost ∈ k.costs, Cost.IsSample (cost w)) (allowZero : Bool) :
    ∃ draws : List Nat, ∀ rest : List Nat,
      (RandomWeight.random allowZero (⟨draws ++ rest⟩ : ScriptedSource)).value =
        (w, (⟨rest⟩ : ScriptedSource)) := by
  induction hk using OfCosts.induction generalizing allowZero with
  | tropical | log =>
    obtain ⟨n, hn, hcost⟩ := hw _ (List.mem_singleton_self _)
    refine ⟨[n], fun rest => ?_⟩
    have hdraw := Cost.random_script allowZero hn rest
    refine Prod.ext ((isMadeOf (by trivial)).ext (List.forall_mem_singleton.mpr ?_)) ?_
    · show (Cost.random allowZero (⟨n :: rest⟩ : ScriptedSource)).1 = _
      rw [hdraw]
      dsimp only
      exact hcost.symm
    · show (Cost.random allowZero (⟨n :: rest⟩ : ScriptedSource)).2 = _
      rw [hdraw]
  | product first second hfirst hsecond ihf ihs =>
    obtain ⟨hleft, hright⟩ := Product.forall_mem_costs.mp hw
    obtain ⟨draws, hdraws⟩ := ihf hleft false
    obtain ⟨draws', hdraws'⟩ := ihs hright false
    have hpair (rest : List Nat) :
        (Product.randomPair (A := first.Carrier) (B := second.Carrier)
          (⟨draws ++ draws' ++ rest⟩ : ScriptedSource)).value = (w, ⟨rest⟩) := by
      rw [Product.value_randomPair, List.append_assoc, hdraws]
      dsimp only
      rw [hdraws']
      rfl
    -- where zero is allowed, it is asked for first, and any number but nothing declines it
    cases allowZero with
    | false => exact ⟨draws ++ draws', hpair⟩
    | true => exact ⟨1 :: (draws ++ draws'), hpair⟩

theorem exists_script_zero [Elementary] (hk : k.OfCosts) :
    ∃ draws : List Nat,
      (RandomWeight.random true (⟨draws⟩ : ScriptedSource)).value.1 =
        (Weight.zero : k.Carrier) := by
  induction hk using OfCosts.induction with
  | tropical => exact ⟨[Weight.sampleCount], rfl⟩
  | log => exact ⟨[Weight.sampleCount], rfl⟩
  | product first second => exact ⟨[0], rfl⟩

/-- **The samples are what is drawn.** -/
theorem drawn_iff [Elementary] (hk : k.OfCosts) {allowZero : Bool} {w : k.Carrier} :
    RandomWeight.Drawn allowZero w ↔ Weight.IsSample k.costs allowZero w := by
  constructor
  · rintro ⟨σ, _, source, count, hw⟩
    obtain ⟨state, rfl⟩ := RandomWeight.exists_of_mem_sample hw
    exact isSample_random hk allowZero state
  · intro hw
    have hdrawn : ∃ draws : List Nat,
        (RandomWeight.random allowZero (⟨draws⟩ : ScriptedSource)).value.1 = w := by
      rcases hw with ⟨rfl, rfl⟩ | hw
      · exact exists_script_zero hk
      · obtain ⟨draws, hdraws⟩ := exists_script hk hw allowZero
        exact ⟨draws ++ [], congrArg Prod.fst (hdraws [])⟩
    obtain ⟨draws, rfl⟩ := hdrawn
    exact ⟨ScriptedSource, inferInstance, ⟨draws⟩, 1, List.mem_singleton_self _⟩

/-- **The random weights of a type of costs.**  Whatever source they are drawn from, they are zero,
where that is allowed, or whole numbers below five in every cost, and all of these are drawn.  They
are members, and none is zero in some of its costs only.  So the product of two of them divided by
one that is not zero is the other one, from whichever side it is divided. -/
theorem samples_of_costs [Elementary] {k : WeightKind} (hk : k.OfCosts) :
    (∀ (allowZero : Bool) (w : k.Carrier), RandomWeight.Drawn allowZero w ↔
      (w = Weight.zero ∧ allowZero = true) ∨
        ∀ cost ∈ k.costs, ∃ n < 5, cost w = Binary.ofNat n) ∧
    (∀ (allowZero : Bool) (w : k.Carrier), RandomWeight.Drawn allowZero w →
      Weight.isMember w = true ∧
        ∀ cost ∈ k.costs, Cost.eqv (cost w) Cost.zero = true → w = Weight.zero) ∧
    ∀ (allowZero allowZero' : Bool) (a b : k.Carrier), RandomWeight.Drawn allowZero a →
      RandomWeight.Drawn allowZero' b → (a == Weight.zero) = false → ∀ side : Side,
        let product := Weight.times a b
        let quotient := (Weight.divide side product a).value
        quotient = b ∧ Weight.isMember quotient = true ∧
          (Weight.times a quotient == product) = true := by
  have hmade := isMadeOf hk
  refine ⟨fun allowZero w => drawn_iff hk, fun allowZero w hw => ?_, ?_⟩
  · rw [drawn_iff hk] at hw
    exact ⟨hmade.isMember_of_isSample hw, fun cost hcost hzero => hw.eq_zero hcost hzero⟩
  · intro allowZero allowZero' a b ha hb hne side
    rw [drawn_iff hk] at ha hb
    have hquotient := hmade.divide_times_of_isSample ha hne hb side
    dsimp only
    rw [hquotient]
    exact ⟨rfl, hmade.isMember_of_isSample hb, BEq.rfl⟩

/-- Three pairs that are drawn from seeds, of which the second is zero. -/
theorem samples_of_costs_of_pairs :
    let k : WeightKind := .product .tropical .log
    let draw (allowZero : Bool) (seed : UInt64) : k.Carrier :=
      (RandomWeight.random allowZero (⟨seed, 0⟩ : SeededSource)).value.1
    let a := draw false 4
    let b := draw true 3
    let c := draw true 7
    let quotient (w : k.Carrier) := (Weight.divide .right (Weight.times a w) a).value
    k.OfCosts ∧ RandomWeight.Drawn false a ∧ RandomWeight.Drawn true b ∧
      RandomWeight.Drawn true c ∧ (a == Weight.zero) = false ∧ (b == Weight.zero) = true ∧
      (c == (⟨⟨Cost.whole 0⟩, ⟨Cost.whole 4⟩⟩ : Product Tropical Log)) = true ∧
      quotient b = b ∧ quotient c = c := by
  intro k draw a b c quotient
  have hk : k.OfCosts := ⟨trivial, trivial⟩
  have hdrawn (allowZero : Bool) (seed : UInt64) :
      RandomWeight.Drawn allowZero (draw allowZero seed) :=
    ⟨SeededSource, inferInstance, ⟨seed, 0⟩, 1, List.mem_singleton_self _⟩
  have ha : (a == Weight.zero) = false := by decide +kernel
  have hb : (b == Weight.zero) = true := by decide +kernel
  have hc : (c == (⟨⟨Cost.whole 0⟩, ⟨Cost.whole 4⟩⟩ : Product Tropical Log)) = true := by
    decide +kernel
  obtain ⟨-, -, hdivide⟩ := samples_of_costs hk
  refine ⟨hk, hdrawn _ _, hdrawn _ _, hdrawn _ _, ha, hb, hc, ?_, ?_⟩
  · exact (hdivide _ _ a b (hdrawn _ _) (hdrawn _ _) ha .right).1
  · exact (hdivide _ _ a c (hdrawn _ _) (hdrawn _ _) ha .right).1

end WeightKind
end WeightedTransducer
