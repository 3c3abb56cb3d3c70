import WeightedTransducer.Law.Checker
import WeightedTransducer.Proofs.Weight.Contract

/-!
# What the law checker finds

The checker is sound and complete on what it samples: it accepts every run on samples from a set
exactly if the weights of that set keep the laws that are checked (`LawChecker.run_eq_ok_iff`).

A run makes the same checks in every round, so it succeeds exactly if every check of every round
holds (`LawChecker.value_run_eq_ok_iff`), and three samples that are drawn in turn, over and over,
put any three weights through a round.  Each group of checks then comes down to laws
(`LawChecker.Lawful`).  Two groups ask for nothing of their own: that the natural order is total
follows from the path property, and the laws of powers from the identity of `times`.
-/

namespace WeightedTransducer
namespace LawChecker
variable {W R σ : Type} [Weight W] [Weight R] [Reversible W R]

/-! ## Checks that hold -/

/-- All checks of a list hold. -/
def AllHold (checks : List (Traced Check)) : Prop :=
  ∀ check ∈ checks, check.value.holds = true

@[simp] theorem allHold_nil : AllHold [] :=
  nofun

@[simp] theorem allHold_cons {check : Traced Check} {checks : List (Traced Check)} :
    AllHold (check :: checks) ↔ check.value.holds = true ∧ AllHold checks :=
  List.forall_mem_cons

@[simp] theorem allHold_append {checks more : List (Traced Check)} :
    AllHold (checks ++ more) ↔ AllHold checks ∧ AllHold more :=
  List.forall_mem_append

@[simp] theorem allHold_ifDeclared {p : Properties} {checks : List (Traced Check)} :
    AllHold (ifDeclared W p checks) ↔
      ((Weight.properties W).contains p = true → AllHold checks) := by
  unfold ifDeclared
  split <;> simp [*]

@[simp] theorem holds_plain (law : Law) (holds : Bool) (detail : Unit → String) :
    (plain law holds detail).value.holds = holds := rfl

theorem value_firstFailure_eq_ok_iff {checks : List (Traced Check)} :
    (Check.firstFailure checks).value = .ok () ↔ AllHold checks := by
  induction checks with
  | nil => simp [Check.firstFailure]
  | cons check checks ih =>
    unfold Check.firstFailure
    rw [Traced.value_bind, allHold_cons, ← ih]
    cases check.value.holds <;> simp

/-! ## Samples -/

/-- The values that are drawn from a source. -/
def drawn (draw : σ → Traced (W × σ)) : σ → Nat → W
  | source, 0 => (draw source).value.1
  | source, k + 1 => drawn draw (draw source).value.2 k

/-- A source of which only values from a set are drawn. -/
def DrawsFrom (S : Set W) (draw : σ → Traced (W × σ)) (source : σ) : Prop :=
  ∀ k, drawn draw source k ∈ S

/-- The checks of a round, by its number among the rounds to come. -/
def roundAt (R : Type) [Weight R] [Reversible W R] (checker : LawChecker)
    (draw : σ → Traced (W × σ)) (source : σ) (k : Nat) : List (Traced Check) :=
  round checker (drawn draw source (3 * k)) (drawn draw source (3 * k + 1))
    (drawn draw source (3 * k + 2))

/-- After a round, the rounds to come are those from where it leaves the source. -/
theorem roundAt_succ (checker : LawChecker) (draw : σ → Traced (W × σ)) (source : σ) (k : Nat) :
    roundAt R checker draw source (k + 1) =
      roundAt R checker draw (draw (draw (draw source).value.2).value.2).value.2 k := by
  unfold roundAt
  rw [Nat.mul_succ]
  rfl

/-- Rounds find no violation exactly if every check of every round holds. -/
theorem value_rounds_eq_ok_iff (checker : LawChecker) (draw : σ → Traced (W × σ)) (n : Nat)
    (source : σ) :
    (rounds (R := R) checker draw n source).value = .ok () ↔
      ∀ k < n, AllHold (roundAt R checker draw source k) := by
  induction n generalizing source with
  | zero => simp [rounds]
  | succ n ih =>
    rw [Nat.forall_lt_succ_left', ← value_firstFailure_eq_ok_iff]
    simp only [roundAt_succ, ← ih]
    have hfirst : roundAt R checker draw source 0 =
        round checker (draw source).value.1 (draw (draw source).value.2).value.1
          (draw (draw (draw source).value.2).value.2).value.1 := rfl
    rw [hfirst, rounds]
    simp only [Traced.value_bind]
    generalize Check.firstFailure _ = found
    cases found.value <;> simp

/-- A run finds no violation exactly if the identities hold and every check of every round. -/
theorem value_run_eq_ok_iff (checker : LawChecker) (draw : σ → Traced (W × σ)) (n : Nat)
    (source : σ) :
    (run (R := R) checker draw n source).value = .ok () ↔
      AllHold (identities W) ∧ ∀ k < n, AllHold (roundAt R checker draw source k) := by
  rw [← value_firstFailure_eq_ok_iff, ← value_rounds_eq_ok_iff]
  unfold run
  rw [Traced.value_bind]
  cases (Check.firstFailure (identities W)).value <;> simp

theorem drawn_cycle (samples : Array W) (position k : Nat) :
    drawn (cycle samples) position k = samples.getD ((position + k) % samples.size) Weight.one := by
  induction k generalizing position with
  | zero => rfl
  | succ k ih =>
    show drawn (cycle samples) (position + 1) k = _
    rw [ih, Nat.add_right_comm]
    rfl

theorem drawsFrom_cycle {S : Set W} {a b c : W} (ha : a ∈ S) (hb : b ∈ S) (hc : c ∈ S) :
    DrawsFrom S (cycle #[a, b, c]) 0 := by
  intro k
  rw [drawn_cycle, Nat.zero_add]
  show #[a, b, c].getD (k % 3) Weight.one ∈ S
  obtain hk | hk | hk : k % 3 = 0 ∨ k % 3 = 1 ∨ k % 3 = 2 := by omega
  · rw [hk]
    exact ha
  · rw [hk]
    exact hb
  · rw [hk]
    exact hc

/-- Every round on three samples that are drawn in turn, over and over, is about these. -/
theorem roundAt_cycle (checker : LawChecker) (a b c : W) (k : Nat) :
    roundAt R checker (cycle #[a, b, c]) 0 k = round checker a b c := by
  have h0 : (0 + 3 * k) % #[a, b, c].size = 0 := by show _ % 3 = 0; omega
  have h1 : (0 + (3 * k + 1)) % #[a, b, c].size = 1 := by show _ % 3 = 1; omega
  have h2 : (0 + (3 * k + 2)) % #[a, b, c].size = 2 := by show _ % 3 = 2; omega
  unfold roundAt
  rw [drawn_cycle, drawn_cycle, drawn_cycle, h0, h1, h2]
  rfl

/-- No run on samples from a set finds a violation exactly if the identities hold and every check of
every round on weights from the set. -/
theorem forall_run_eq_ok_iff (checker : LawChecker) {S : Set W} (hS : S.Nonempty) :
    (∀ (σ : Type) (draw : σ → Traced (W × σ)) (source : σ), DrawsFrom S draw source →
        ∀ n, (run (R := R) checker draw n source).value = .ok ()) ↔
      AllHold (identities W) ∧ ∀ a ∈ S, ∀ b ∈ S, ∀ c ∈ S,
        AllHold (round (R := R) checker a b c) := by
  simp only [value_run_eq_ok_iff]
  constructor
  · intro h
    obtain ⟨a, ha⟩ := hS
    refine ⟨(h Nat (cycle #[a, a, a]) 0 (drawsFrom_cycle ha ha ha) 0).1, ?_⟩
    intro a ha b hb c hc
    rw [← roundAt_cycle checker a b c 0]
    exact (h Nat (cycle #[a, b, c]) 0 (drawsFrom_cycle ha hb hc) 1).2 0 Nat.zero_lt_one
  · rintro ⟨hidentities, hrounds⟩ σ draw source hdraws n
    exact ⟨hidentities, fun k _ => hrounds _ (hdraws _) _ (hdraws _) _ (hdraws _)⟩

/-! ## Checks and laws -/

/-- The three samples of a round pass its checks. -/
structure Passes (R : Type) [Weight R] [Reversible W R] (checker : LawChecker) (a b c : W) :
    Prop where
  common : AllHold (commonLaws checker a b c)
  left : (Weight.properties W).contains .leftSemiring = true →
    AllHold (leftLaws checker a b c) ∧ AllHold (leftDivisionLaws checker a b)
  right : (Weight.properties W).contains .rightSemiring = true →
    AllHold (rightLaws checker a b c) ∧ AllHold (rightDivisionLaws checker a b)
  idempotent : (Weight.properties W).contains .idempotent = true →
    AllHold (idempotentLaws a) ∧ AllHold (orderLaws a b)
  path : (Weight.properties W).contains .path = true → AllHold (pathLaws a b)
  commutative : (Weight.properties W).contains .commutative = true →
    AllHold (commutativeLaws checker a b) ∧ AllHold (anyDivisionLaws checker a b)
  power : AllHold (powerLaws checker a)
  reverse : AllHold (reverseLaws (R := R) checker a b)
  quantize : AllHold (quantizeLaws checker a)
  hash : AllHold (hashLaws a)
  text : AllHold (textLaws checker a)

theorem allHold_round_iff {checker : LawChecker} {a b c : W} :
    AllHold (round (R := R) checker a b c) ↔ Passes R checker a b c := by
  unfold round
  simp only [allHold_append, allHold_ifDeclared, and_assoc]
  constructor
  · rintro ⟨hcommon, hleft, hright, hidempotent, hpath, hcommutative, horder, hpower, hleftDivision,
      hrightDivision, hanyDivision, hreverse, hquantize, hhash, htext⟩
    exact ⟨hcommon, fun h => ⟨hleft h, hleftDivision h⟩, fun h => ⟨hright h, hrightDivision h⟩,
      fun h => ⟨hidempotent h, horder h⟩, hpath, fun h => ⟨hcommutative h, hanyDivision h⟩, hpower,
      hreverse, hquantize, hhash, htext⟩
  · intro h
    exact ⟨h.common, fun hp => (h.left hp).1, fun hp => (h.right hp).1,
      fun hp => (h.idempotent hp).1, h.path, fun hp => (h.commutative hp).1,
      fun hp => (h.idempotent hp).2, h.power, fun hp => (h.left hp).2, fun hp => (h.right hp).2,
      fun hp => (h.commutative hp).2, h.reverse, h.quantize, h.hash, h.text⟩

/-! ## One group of checks -/

section Groups
variable {checker : LawChecker} {a b c : W}

/-- The natural order is total where sums are one of their terms. -/
theorem less_ne_less [EquivBEq W] (order : NaturalOrder W) (hne : (a == b) = false)
    (hcomm : (Weight.plus a b == Weight.plus b a) = true)
    (hpath : (Weight.plus a b == a) = true ∨ (Weight.plus a b == b) = true) :
    order.less a b ≠ order.less b a := by
  have hnotBoth : ¬ ((Weight.plus a b == a) = true ∧ (Weight.plus a b == b) = true) := by
    rintro ⟨hfirst, hsecond⟩
    rw [BEq.trans (BEq.symm hfirst) hsecond] at hne
    cases hne
  have hless : order.less a b = (Weight.plus a b == a) := by simp [NaturalOrder.less, hne]
  have hless' : order.less b a = (Weight.plus a b == b) := by
    rw [BEq.congr_left hcomm]
    simp [NaturalOrder.less, BEq.comm, hne]
  rw [hless, hless']
  rcases hpath with hsum | hsum
  · simpa [hsum] using hnotBoth
  · simpa [hsum] using hnotBoth

theorem allHold_orderLaws [EquivBEq W] (hcomm : (Weight.plus a b == Weight.plus b a) = true)
    (hpath : (Weight.properties W).contains .path = true →
      (Weight.plus a b == a) = true ∨ (Weight.plus a b == b) = true) :
    AllHold (orderLaws a b) := by
  unfold orderLaws
  rw [allHold_append]
  constructor
  · simp [NaturalOrder.less]
  · split
    · rename_i hchecked
      obtain ⟨htotal, hne⟩ := Bool.and_eq_true_iff.mp hchecked
      have hne : (a == b) = false := by simpa using hne
      have hdeclared : (Weight.properties W).contains .path = true :=
        (Bool.and_eq_true_iff.mp htotal).2
      simpa using less_ne_less ⟨true⟩ hne hcomm (hpath hdeclared)
    · exact allHold_nil

variable (happrox : ∀ a b : W, Weight.approxEq checker.delta a b = (a == b))
include happrox

/-- The laws of powers come down to the identity of `times` on the left. -/
theorem allHold_powerLaws_iff [ReflBEq W] :
    AllHold (powerLaws checker a) ↔ (Weight.times Weight.one a == a) = true := by
  have hone : Weight.power a 1 = Weight.times Weight.one a := rfl
  simp [powerLaws, powerRecursion, happrox, hone, Weight.power_zero, Weight.power_succ]

/-- The laws of representatives come down to the tolerance. -/
theorem allHold_quantizeLaws_iff [EquivBEq W]
    (hquantize : ∀ a b : W, (a == b) = true →
      (Weight.quantize checker.delta a == Weight.quantize checker.delta b) = true) :
    AllHold (quantizeLaws checker a) ↔ (Weight.quantize checker.delta a == a) = true := by
  simp only [quantizeLaws, allHold_cons, allHold_nil, holds_plain, happrox, and_true]
  exact ⟨fun h => h.2, fun h => ⟨hquantize _ _ h, h⟩⟩

theorem allHold_textLaws_iff :
    AllHold (textLaws checker a) ↔ ∃ back,
      (Textual.read checker.delimiters (Textual.text checker.delimiters a)).value = .ok back ∧
        (back == a) = true := by
  unfold textLaws
  dsimp only
  rw [allHold_cons, Traced.value_bind]
  cases (Textual.read checker.delimiters (Textual.text checker.delimiters a) :
      Traced (Except ReadError W)).value with
  | ok back => simp [happrox]
  | error e => simp

/-- A division is checked where the divisor is not zero. -/
theorem allHold_division_iff {side : Side} {membership law : Law} {divisor : W}
    {back : W → W × String} :
    AllHold (if divisor == Weight.zero then []
        else divisionLaws checker side membership law a b divisor back) ↔
      (divisor ∈ Weight.nonzero W →
        Weight.isMember (Weight.divide side (Weight.times a b) divisor).value = true ∧
          ((back (Weight.divide side (Weight.times a b) divisor).value).1 ==
            Weight.times a b) = true) := by
  unfold Weight.nonzero
  rw [Set.mem_ofPred_eq]
  cases divisor == Weight.zero <;> simp [divisionLaws, happrox]

end Groups

/-! ## All samples -/

/-- The weights of a set keep the laws that are checked: some of every type, and others of a type
that declares a property.  Not every law of the contract is among them. -/
structure Lawful (checker : LawChecker) (S : Set W) : Prop where
  identities : ∀ law ∈ [Requirement.zeroMember, .oneMember, .noWeightNonMember],
    law.Holds W S (Weight.nonzero W)
  member : ∀ a ∈ S, Weight.isMember a = true
  common : ∀ law ∈ [Requirement.plusAssociative, .plusIdentity, .plusCommutative,
    .timesAssociative], law.Holds W S (Weight.nonzero W)
  identity : Requirement.leftIdentity.Holds W S (Weight.nonzero W)
  left : (Weight.properties W).contains .leftSemiring = true →
    ∀ law ∈ [Requirement.leftIdentity, .leftAnnihilation, .leftDistributive,
      .division .left .leading .leading], law.Holds W S (Weight.nonzero W)
  right : (Weight.properties W).contains .rightSemiring = true →
    ∀ law ∈ [Requirement.rightIdentity, .rightAnnihilation, .rightDistributive,
      .division .right .trailing .trailing], law.Holds W S (Weight.nonzero W)
  idempotent : (Weight.properties W).contains .idempotent = true →
    Requirement.idempotent.Holds W S (Weight.nonzero W)
  path : (Weight.properties W).contains .path = true →
    Requirement.path.Holds W S (Weight.nonzero W)
  commutative : (Weight.properties W).contains .commutative = true →
    ∀ law ∈ [Requirement.timesCommutative, .division .any .leading .trailing],
      law.Holds W S (Weight.nonzero W)
  reverse : ∀ law ∈ [Requirement.reverseInvolution, .reverseOfPlus, .reverseOfTimes],
    law.Holds W S (Weight.nonzero W)
  quantize : ∀ a ∈ S, (Weight.quantize checker.delta a == a) = true
  hash : ∀ a ∈ S, Weight.hashValue (Weight.clone a) = Weight.hashValue a
  text : ∀ a ∈ S, ∃ back,
    (Textual.read checker.delimiters (Textual.text checker.delimiters a)).value = .ok back ∧
      (back == a) = true

section Lawful
variable {checker : LawChecker} {S : Set W}
  (happrox : ∀ a b : W, Weight.approxEq checker.delta a b = (a == b))

section
include happrox

theorem forall_commonLaws_iff :
    (∀ a ∈ S, ∀ b ∈ S, ∀ c ∈ S, AllHold (commonLaws checker a b c)) ↔
      (∀ a ∈ S, Weight.isMember a = true) ∧
        ∀ law ∈ [Requirement.plusAssociative, .plusIdentity, .plusCommutative, .timesAssociative],
          law.Holds W S (Weight.nonzero W) := by
  simp only [commonLaws, allHold_cons, allHold_nil, holds_plain, happrox, Bool.and_eq_true,
    and_true, List.forall_mem_cons, List.not_mem_nil, false_imp_iff, implies_true,
    Requirement.Holds]
  constructor
  · intro h
    exact ⟨fun a ha => (h a ha a ha a ha).1, fun a ha b hb c hc => (h a ha b hb c hc).2.1,
      fun a ha => (h a ha a ha a ha).2.2.1, fun a ha b hb => (h a ha b hb a ha).2.2.2.1,
      fun a ha b hb c hc => (h a ha b hb c hc).2.2.2.2⟩
  · rintro ⟨hmember, hassoc, hidentity, hcomm, htimes⟩ a ha b hb c hc
    exact ⟨hmember a ha, hassoc a ha b hb c hc, hidentity a ha, hcomm a ha b hb,
      htimes a ha b hb c hc⟩

theorem forall_leftLaws_iff :
    (∀ a ∈ S, ∀ b ∈ S, ∀ c ∈ S,
        AllHold (leftLaws checker a b c) ∧ AllHold (leftDivisionLaws checker a b)) ↔
      ∀ law ∈ [Requirement.leftIdentity, .leftAnnihilation, .leftDistributive,
        .division .left .leading .leading], law.Holds W S (Weight.nonzero W) := by
  simp only [leftLaws, leftDivisionLaws, allHold_division_iff happrox, allHold_cons, allHold_nil,
    holds_plain, happrox, and_true, List.forall_mem_cons, List.not_mem_nil, false_imp_iff,
    implies_true, Requirement.Holds]
  constructor
  · intro h
    exact ⟨fun a ha => (h a ha a ha a ha).1.1, fun a ha => (h a ha a ha a ha).1.2.1,
      fun a ha b hb c hc => (h a ha b hb c hc).1.2.2,
      fun a ha hne b hb => (h a ha b hb a ha).2 hne⟩
  · rintro ⟨hidentity, hzero, hdistributive, hdivision⟩ a ha b hb c hc
    exact ⟨⟨hidentity a ha, hzero a ha, hdistributive a ha b hb c hc⟩,
      fun hne => hdivision a ha hne b hb⟩

theorem forall_rightLaws_iff :
    (∀ a ∈ S, ∀ b ∈ S, ∀ c ∈ S,
        AllHold (rightLaws checker a b c) ∧ AllHold (rightDivisionLaws checker a b)) ↔
      ∀ law ∈ [Requirement.rightIdentity, .rightAnnihilation, .rightDistributive,
        .division .right .trailing .trailing], law.Holds W S (Weight.nonzero W) := by
  simp only [rightLaws, rightDivisionLaws, allHold_division_iff happrox, allHold_cons, allHold_nil,
    holds_plain, happrox, and_true, List.forall_mem_cons, List.not_mem_nil, false_imp_iff,
    implies_true, Requirement.Holds]
  constructor
  · intro h
    exact ⟨fun a ha => (h a ha a ha a ha).1.1, fun a ha => (h a ha a ha a ha).1.2.1,
      fun a ha b hb c hc => (h a ha b hb c hc).1.2.2,
      fun b hb hne a ha => (h a ha b hb a ha).2 hne⟩
  · rintro ⟨hidentity, hzero, hdistributive, hdivision⟩ a ha b hb c hc
    exact ⟨⟨hidentity a ha, hzero a ha, hdistributive a ha b hb c hc⟩,
      fun hne => hdivision b hb hne a ha⟩

theorem forall_commutativeLaws_iff :
    (∀ a ∈ S, ∀ b ∈ S,
        AllHold (commutativeLaws checker a b) ∧ AllHold (anyDivisionLaws checker a b)) ↔
      ∀ law ∈ [Requirement.timesCommutative, .division .any .leading .trailing],
        law.Holds W S (Weight.nonzero W) := by
  simp only [commutativeLaws, anyDivisionLaws, allHold_division_iff happrox, allHold_cons,
    allHold_nil, holds_plain, happrox, and_true, List.forall_mem_cons, List.not_mem_nil,
    false_imp_iff, implies_true, Requirement.Holds]
  constructor
  · intro h
    exact ⟨fun a ha b hb => (h a ha b hb).1, fun a ha hne b hb => (h a ha b hb).2 hne⟩
  · rintro ⟨hcomm, hdivision⟩ a ha b hb
    exact ⟨hcomm a ha b hb, fun hne => hdivision a ha hne b hb⟩

end

theorem forall_pathLaws_iff :
    (∀ a ∈ S, ∀ b ∈ S, AllHold (pathLaws a b)) ↔ Requirement.path.Holds W S (Weight.nonzero W) := by
  simp [pathLaws, Requirement.Holds]

theorem forall_reverseLaws_iff
    (hreversed : ∀ a b : R, Weight.approxEq checker.delta a b = (a == b)) :
    (∀ a ∈ S, ∀ b ∈ S, AllHold (reverseLaws (R := R) checker a b)) ↔
      ∀ law ∈ [Requirement.reverseInvolution, .reverseOfPlus, .reverseOfTimes],
        law.Holds W S (Weight.nonzero W) := by
  simp only [reverseLaws, allHold_cons, allHold_nil, holds_plain, hreversed, and_true,
    List.forall_mem_cons, List.not_mem_nil, false_imp_iff, implies_true, Requirement.Holds]
  constructor
  · intro h
    exact ⟨fun a ha => (h a ha a ha).1, fun a ha b hb => (h a ha b hb).2.1,
      fun a ha b hb => (h a ha b hb).2.2⟩
  · rintro ⟨hinvolution, hplus, htimes⟩ a ha b hb
    exact ⟨hinvolution a ha, hplus a ha b hb, htimes a ha b hb⟩

theorem allHold_identities_iff :
    AllHold (identities W) ↔
      ∀ law ∈ [Requirement.zeroMember, .oneMember, .noWeightNonMember],
        law.Holds W S (Weight.nonzero W) := by
  simp [identities, Requirement.Holds]

variable [EquivBEq W] (hreversed : ∀ a b : R, Weight.approxEq checker.delta a b = (a == b))
  (hquantize : ∀ a b : W, (a == b) = true →
    (Weight.quantize checker.delta a == Weight.quantize checker.delta b) = true)
include happrox hreversed hquantize

/-- What passes in every round keeps the laws. -/
theorem lawful_of_passes (hidentities : AllHold (identities W))
    (h : ∀ a ∈ S, ∀ b ∈ S, ∀ c ∈ S, Passes R checker a b c) : Lawful checker S := by
  have hcommon := (forall_commonLaws_iff happrox).mp fun a ha b hb c hc =>
    (h a ha b hb c hc).common
  constructor
  case identities => exact allHold_identities_iff.mp hidentities
  case member => exact hcommon.1
  case common => exact hcommon.2
  case identity =>
    intro a ha
    exact (allHold_powerLaws_iff happrox).mp (h a ha a ha a ha).power
  case left =>
    intro hdeclared
    exact (forall_leftLaws_iff happrox).mp fun a ha b hb c hc =>
      (h a ha b hb c hc).left hdeclared
  case right =>
    intro hdeclared
    exact (forall_rightLaws_iff happrox).mp fun a ha b hb c hc =>
      (h a ha b hb c hc).right hdeclared
  case idempotent =>
    intro hdeclared a ha
    simpa [idempotentLaws] using ((h a ha a ha a ha).idempotent hdeclared).1
  case path =>
    intro hdeclared
    exact forall_pathLaws_iff.mp fun a ha b hb => (h a ha b hb a ha).path hdeclared
  case commutative =>
    intro hdeclared
    exact (forall_commutativeLaws_iff happrox).mp fun a ha b hb =>
      (h a ha b hb a ha).commutative hdeclared
  case reverse =>
    exact (forall_reverseLaws_iff hreversed).mp fun a ha b hb => (h a ha b hb a ha).reverse
  case quantize =>
    intro a ha
    exact (allHold_quantizeLaws_iff happrox hquantize).mp (h a ha a ha a ha).quantize
  case hash =>
    intro a ha
    simpa [hashLaws] using (h a ha a ha a ha).hash
  case text =>
    intro a ha
    exact (allHold_textLaws_iff happrox).mp (h a ha a ha a ha).text

/-- Samples that keep the laws pass. -/
theorem Lawful.passes (h : Lawful checker S) {a b c : W} (ha : a ∈ S) (hb : b ∈ S) (hc : c ∈ S) :
    Passes R checker a b c := by
  constructor
  case common => exact (forall_commonLaws_iff happrox).mpr ⟨h.member, h.common⟩ a ha b hb c hc
  case left =>
    intro hdeclared
    exact (forall_leftLaws_iff happrox).mpr (h.left hdeclared) a ha b hb c hc
  case right =>
    intro hdeclared
    exact (forall_rightLaws_iff happrox).mpr (h.right hdeclared) a ha b hb c hc
  case idempotent =>
    intro hdeclared
    refine ⟨by simpa [idempotentLaws] using h.idempotent hdeclared a ha, ?_⟩
    have hcomm : Requirement.plusCommutative.Holds W S (Weight.nonzero W) :=
      h.common .plusCommutative (by decide)
    exact allHold_orderLaws (hcomm a ha b hb) fun hpath => h.path hpath a ha b hb
  case path =>
    intro hdeclared
    exact forall_pathLaws_iff.mpr (h.path hdeclared) a ha b hb
  case commutative =>
    intro hdeclared
    exact (forall_commutativeLaws_iff happrox).mpr (h.commutative hdeclared) a ha b hb
  case power => exact (allHold_powerLaws_iff happrox).mpr (h.identity a ha)
  case reverse => exact (forall_reverseLaws_iff hreversed).mpr h.reverse a ha b hb
  case quantize => exact (allHold_quantizeLaws_iff happrox hquantize).mpr (h.quantize a ha)
  case hash => simpa [hashLaws] using h.hash a ha
  case text => exact (allHold_textLaws_iff happrox).mpr (h.text a ha)

/-- **The law checker is sound and complete on what it samples.**  It finds no violation in any
number of rounds on any samples from a set exactly if the weights of the set keep the laws that are
checked.  Equality has to be an equivalence that representatives respect, and what counts as equal
under the tolerance has to be what is equal. -/
theorem run_eq_ok_iff (hS : S.Nonempty) :
    (∀ (σ : Type) (draw : σ → Traced (W × σ)) (source : σ), DrawsFrom S draw source →
        ∀ n, (run (R := R) checker draw n source).value = .ok ()) ↔
      Lawful checker S := by
  rw [forall_run_eq_ok_iff checker hS]
  simp only [allHold_round_iff]
  constructor
  · rintro ⟨hidentities, hrounds⟩
    exact lawful_of_passes happrox hreversed hquantize hidentities hrounds
  · intro h
    exact ⟨allHold_identities_iff.mpr h.identities,
      fun _ ha _ hb _ hc => h.passes happrox hreversed hquantize ha hb hc⟩

end Lawful

/-- The members among the truth values keep the laws, so no run on them finds a violation; some run
finds one where the value that is no member is drawn too. -/
theorem run_eq_ok_of_boolean :
    let checker : LawChecker := {}
    let sound (S : Set Boolean) : Prop :=
      ∀ (σ : Type) (draw : σ → Traced (Boolean × σ)) (source : σ), DrawsFrom S draw source →
        ∀ n, (run (R := Boolean) checker draw n source).value = .ok ()
    Lawful checker (Weight.members Boolean) ∧ sound (Weight.members Boolean) ∧
      ¬ sound {w | w = .neither ∨ w = .yes} := by
  intro checker sound
  have hlawful : Lawful checker (Weight.members Boolean) :=
    { identities := fun law _ => Boolean.holds law
      member := fun _ ha => ha
      common := fun law _ => Boolean.holds law
      identity := Boolean.holds .leftIdentity
      left := fun _ law _ => Boolean.holds law
      right := fun _ law _ => Boolean.holds law
      idempotent := fun _ => Boolean.holds .idempotent
      path := fun _ => Boolean.holds .path
      commutative := fun _ law _ => Boolean.holds law
      reverse := fun law _ => Boolean.holds law
      quantize := fun _ _ => beq_self_eq_true _
      hash := fun _ _ => rfl
      text := by
        intro a ha
        cases a with
        | no => exact ⟨.no, rfl, rfl⟩
        | yes => exact ⟨.yes, rfl, rfl⟩
        | neither => cases ha }
  have happrox (a b : Boolean) : Weight.approxEq checker.delta a b = (a == b) := rfl
  have hiff (S : Set Boolean) (hS : S.Nonempty) : sound S ↔ Lawful checker S :=
    run_eq_ok_iff happrox happrox (fun _ _ h => h) hS
  refine ⟨hlawful, (hiff (Weight.members Boolean) ⟨.yes, rfl⟩).mpr hlawful, ?_⟩
  rw [hiff {w | w = .neither ∨ w = .yes} ⟨.yes, Or.inr rfl⟩]
  intro h
  cases h.member .neither (Or.inl rfl)

end LawChecker
end WeightedTransducer
