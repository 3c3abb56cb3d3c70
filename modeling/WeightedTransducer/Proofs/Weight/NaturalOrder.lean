import Mathlib.Order.Lattice
import WeightedTransducer.Proofs.Weight.Contract
import WeightedTransducer.Weight.NaturalOrder

/-!
# The natural order is a lattice order

The order of an idempotent semiring is told by sums alone: `a` is at most `b` if `a + b` is `a`.  A
type whose members have associative, commutative and idempotent sums (`Weight.Semilattice`) is
ordered by it, up to the type's own equality, and a sum is the greatest lower bound of its terms.
The reason is that the members, with equal ones taken for one (`Weight.Class`), form a meet
semilattice whose order is the natural one (`NaturalOrder.less_iff_lt`); so the laws of the order
are those of every semilattice (`NaturalOrder.laws`).  Only products need not stay among the
members, so that they keep the order is shown on the weights themselves.
-/

namespace WeightedTransducer

namespace Weight
variable {W : Type} [Weight W]

/-- The sums of members are members, respect equality, and can be taken in any order and with any
number of repetitions. -/
class Semilattice (W : Type) [Weight W] : Prop where
  isMember_plus {a b : W} (ha : isMember a = true) (hb : isMember b = true) :
    isMember (plus a b) = true
  plus_congr {a a' b b' : W} (ha : Equal a a') (hb : Equal b b') : (plus a b == plus a' b') = true
  plus_assoc {a b c : W} (ha : isMember a = true) (hb : isMember b = true)
    (hc : isMember c = true) : (plus (plus a b) c == plus a (plus b c)) = true
  plus_comm {a b : W} (ha : isMember a = true) (hb : isMember b = true) :
    (plus a b == plus b a) = true
  plus_self {a : W} (ha : isMember a = true) : (plus a a == a) = true

/-- The products of equal members are equal. -/
def TimesRespectsEqual (W : Type) [Weight W] : Prop :=
  ∀ {a a' b b' : W}, Equal a a' → Equal b b' → (times a b == times a' b') = true

/-- Products with a common left factor distribute over the sums of members. -/
def DistributesLeft (W : Type) [Weight W] : Prop :=
  ∀ {a b c : W}, isMember a = true → isMember b = true → isMember c = true →
    (times c (plus a b) == plus (times c a) (times c b)) = true

/-- Products with a common right factor distribute over the sums of members. -/
def DistributesRight (W : Type) [Weight W] : Prop :=
  ∀ {a b c : W}, isMember a = true → isMember b = true → isMember c = true →
    (times (plus a b) c == plus (times a c) (times b c)) = true

/-- The sum of two members is one of them. -/
def Chooses (W : Type) [Weight W] : Prop :=
  ∀ {a b : W}, isMember a = true → isMember b = true →
    (plus a b == a) = true ∨ (plus a b == b) = true

theorem product_equal_iff {A B : Type} [Weight A] [Weight B] {v w : Product A B} :
    Equal v w ↔ Equal v.first w.first ∧ Equal v.second w.second := by
  constructor
  · rintro ⟨hv, hw, hbeq⟩
    obtain ⟨hv, hv'⟩ := Product.isMember_iff.mp hv
    obtain ⟨hw, hw'⟩ := Product.isMember_iff.mp hw
    obtain ⟨hbeq, hbeq'⟩ := Product.beq_iff.mp hbeq
    exact ⟨⟨hv, hw, hbeq⟩, ⟨hv', hw', hbeq'⟩⟩
  · rintro ⟨⟨hv, hw, hbeq⟩, ⟨hv', hw', hbeq'⟩⟩
    exact ⟨Product.isMember_iff.mpr ⟨hv, hv'⟩, Product.isMember_iff.mpr ⟨hw, hw'⟩,
      Product.beq_iff.mpr ⟨hbeq, hbeq'⟩⟩

instance {A B : Type} [Weight A] [Weight B] [Semilattice A] [Semilattice B] :
    Semilattice (Product A B) where
  isMember_plus ha hb := by
    rw [Product.isMember_iff] at ha hb ⊢
    exact ⟨Semilattice.isMember_plus ha.1 hb.1, Semilattice.isMember_plus ha.2 hb.2⟩
  plus_congr ha hb := by
    rw [product_equal_iff] at ha hb
    exact Product.beq_iff.mpr
      ⟨Semilattice.plus_congr ha.1 hb.1, Semilattice.plus_congr ha.2 hb.2⟩
  plus_assoc ha hb hc := by
    rw [Product.isMember_iff] at ha hb hc
    exact Product.beq_iff.mpr
      ⟨Semilattice.plus_assoc ha.1 hb.1 hc.1, Semilattice.plus_assoc ha.2 hb.2 hc.2⟩
  plus_comm ha hb := by
    rw [Product.isMember_iff] at ha hb
    exact Product.beq_iff.mpr
      ⟨Semilattice.plus_comm ha.1 hb.1, Semilattice.plus_comm ha.2 hb.2⟩
  plus_self ha := by
    rw [Product.isMember_iff] at ha
    exact Product.beq_iff.mpr ⟨Semilattice.plus_self ha.1, Semilattice.plus_self ha.2⟩

/-! ## Members up to equality -/

section Class
variable [EquivBEq W]

/-- Members are taken for one if they are equal. -/
instance memberSetoid (W : Type) [Weight W] [EquivBEq W] :
    Setoid {w : W // isMember w = true} where
  r a b := (a.val == b.val) = true
  iseqv := ⟨fun _ => BEq.rfl, BEq.symm, BEq.trans⟩

/-- The members of a type up to equality. -/
def Class (W : Type) [Weight W] [EquivBEq W] : Type :=
  Quotient (memberSetoid W)

/-- A member up to equality. -/
def toClass (w : W) (h : isMember w = true) : Class W :=
  Quotient.mk _ ⟨w, h⟩

theorem toClass_eq_iff {a b : W} (ha : isMember a = true) (hb : isMember b = true) :
    toClass a ha = toClass b hb ↔ (a == b) = true :=
  Quotient.eq (r := memberSetoid W)

variable [Semilattice W]

/-- The sum of two members, up to equality. -/
def Class.plus : Class W → Class W → Class W :=
  Quotient.map₂ (fun a b => ⟨Weight.plus a.val b.val, Semilattice.isMember_plus a.2 b.2⟩)
    fun a a' ha b b' hb => Semilattice.plus_congr ⟨a.2, a'.2, ha⟩ ⟨b.2, b'.2, hb⟩

/-- **Members up to equality are a meet semilattice**, whose meets are the sums. -/
instance : SemilatticeInf (Class W) :=
  @SemilatticeInf.mk' (Class W) ⟨Class.plus⟩
    (fun a b => Quotient.inductionOn₂ a b fun a b =>
      (toClass_eq_iff _ _).mpr (Semilattice.plus_comm a.2 b.2))
    (fun a b c => Quotient.inductionOn₃ a b c fun a b c =>
      (toClass_eq_iff _ _).mpr (Semilattice.plus_assoc a.2 b.2 c.2))
    (fun a => Quotient.inductionOn a fun a => (toClass_eq_iff _ _).mpr (Semilattice.plus_self a.2))

theorem toClass_plus {a b : W} (ha : isMember a = true) (hb : isMember b = true)
    (hsum : isMember (plus a b) = true) :
    toClass (plus a b) hsum = toClass a ha ⊓ toClass b hb :=
  rfl

theorem toClass_le_iff {a b : W} (ha : isMember a = true) (hb : isMember b = true) :
    toClass a ha ≤ toClass b hb ↔ (plus a b == a) = true := by
  rw [← inf_eq_left, ← toClass_plus ha hb (Semilattice.isMember_plus ha hb), toClass_eq_iff]

end Class
end Weight

/-! ## The order -/

namespace NaturalOrder
open Weight
variable {W : Type} [Weight W] (order : NaturalOrder W)

theorem value_create : (create : Traced (NaturalOrder W)).value = ⟨isDefined W⟩ := by
  unfold create
  split <;> rfl

/-- Where there is an order, it is the one that is created without asking. -/
theorem create?_eq_ok_iff : create? = .ok order ↔
    isDefined W = true ∧ order = (create : Traced (NaturalOrder W)).value := by
  rw [value_create]
  unfold create?
  cases isDefined W with
  | true => exact ⟨fun h => ⟨rfl, (Except.ok.inj h).symm⟩, fun h => congrArg Except.ok h.2.symm⟩
  | false => exact iff_of_false nofun fun h => Bool.false_ne_true h.1

/-- Whether the first weight is below the second or equal to it. -/
def atMost (a b : W) : Bool :=
  order.less a b || a == b

theorem less_iff {a b : W} :
    order.less a b = true ↔ (plus a b == a) = true ∧ (a == b) = false := by
  simp [less]

theorem atMost_iff {a b : W} :
    order.atMost a b = true ↔ order.less a b = true ∨ (a == b) = true := by
  simp [atMost]

theorem atMost_of_plus {a b : W} (h : (plus a b == a) = true) : order.atMost a b = true := by
  cases heq : a == b with
  | true => exact order.atMost_iff.mpr (Or.inr heq)
  | false => exact order.atMost_iff.mpr (Or.inl (order.less_iff.mpr ⟨h, heq⟩))

section Class
variable [EquivBEq W] [Semilattice W] {a b : W}

/-- **The natural order is the order of the semilattice.** -/
theorem less_iff_lt (ha : isMember a = true) (hb : isMember b = true) :
    order.less a b = true ↔ toClass a ha < toClass b hb := by
  rw [less_iff, lt_iff_le_and_ne, toClass_le_iff, Ne, toClass_eq_iff, Bool.not_eq_true]

theorem atMost_iff_le (ha : isMember a = true) (hb : isMember b = true) :
    order.atMost a b = true ↔ toClass a ha ≤ toClass b hb := by
  rw [atMost_iff, order.less_iff_lt ha hb, ← toClass_eq_iff ha hb, le_iff_lt_or_eq]

theorem atMost_iff_plus (ha : isMember a = true) (hb : isMember b = true) :
    order.atMost a b = true ↔ (plus a b == a) = true :=
  (order.atMost_iff_le ha hb).trans (toClass_le_iff ha hb)

theorem less_asymm (ha : isMember a = true) (hb : isMember b = true)
    (hab : order.less a b = true) : order.less b a = false := by
  rw [order.less_iff_lt ha hb] at hab
  rw [← Bool.not_eq_true, order.less_iff_lt hb ha]
  exact lt_asymm hab

end Class

/-! ## Comparing -/

theorem compare_eq_iff {a b : W} : order.compare a b = some .eq ↔ (a == b) = true := by
  unfold compare
  split
  · simp_all
  · split
    · simp_all
    · split <;> simp_all

/-- Two weights are not ordered if neither is at most the other. -/
theorem compare_eq_none_iff [EquivBEq W] {a b : W} :
    order.compare a b = none ↔ order.atMost a b = false ∧ order.atMost b a = false := by
  have hsymm : (b == a) = (a == b) := BEq.comm
  unfold compare atMost
  rw [hsymm]
  cases a == b <;> cases order.less a b <;> cases order.less b a <;> simp

/-! ## The laws -/

/-- What a natural order satisfies on the members of a type. -/
structure Laws (order : NaturalOrder W) : Prop where
  less_irrefl {a : W} (ha : isMember a = true) : order.less a a = false
  less_asymm {a b : W} (ha : isMember a = true) (hb : isMember b = true) :
    order.less a b = true → order.less b a = false
  less_trans {a b c : W} (ha : isMember a = true) (hb : isMember b = true)
    (hc : isMember c = true) :
    order.less a b = true → order.less b c = true → order.less a c = true
  /-- A sum is a lower bound of its terms. -/
  plus_atMost {a b : W} (ha : isMember a = true) (hb : isMember b = true) :
    order.atMost (plus a b) a = true ∧ order.atMost (plus a b) b = true
  /-- A sum is the greatest lower bound of its terms. -/
  atMost_plus {a b c : W} (ha : isMember a = true) (hb : isMember b = true)
    (hc : isMember c = true) :
    order.atMost c a = true → order.atMost c b = true → order.atMost c (plus a b) = true
  plus_mono {a b c : W} (ha : isMember a = true) (hb : isMember b = true)
    (hc : isMember c = true) : order.atMost a b = true →
      order.atMost (plus c a) (plus c b) = true ∧ order.atMost (plus a c) (plus b c) = true
  times_mono_left {a b c : W} (hleft : DistributesLeft W) (ha : isMember a = true)
    (hb : isMember b = true) (hc : isMember c = true) :
    order.atMost a b = true → order.atMost (times c a) (times c b) = true
  times_mono_right {a b c : W} (hright : DistributesRight W) (ha : isMember a = true)
    (hb : isMember b = true) (hc : isMember c = true) :
    order.atMost a b = true → order.atMost (times a c) (times b c) = true
  compare_swap {a b : W} (ha : isMember a = true) (hb : isMember b = true) :
    order.compare b a = (order.compare a b).map Ordering.swap
  compare_eq_iff {a b : W} : order.compare a b = some .eq ↔ (a == b) = true
  /-- Where sums choose one of their terms, any two members are ordered. -/
  compare_isSome {a b : W} (hchooses : Chooses W) (ha : isMember a = true)
    (hb : isMember b = true) : (order.compare a b).isSome = true

/-- **The natural order of an idempotent type.**  On members it is a strict order, sums are the
greatest lower bounds of their terms, and sums keep the order; products keep it on the side from
which they distribute, whether or not they are members themselves.  Comparing in the other
direction gives the opposite answer, and there is always an answer where sums choose one of their
terms. -/
theorem laws [EquivBEq W] [Semilattice W] (htimes : TimesRespectsEqual W)
    (order : NaturalOrder W) : order.Laws where
  less_irrefl ha := by
    rw [← Bool.not_eq_true, order.less_iff_lt ha ha]
    exact lt_irrefl _
  less_asymm ha hb := order.less_asymm ha hb
  less_trans ha hb hc hab hbc := by
    rw [order.less_iff_lt ha hb] at hab
    rw [order.less_iff_lt hb hc] at hbc
    exact (order.less_iff_lt ha hc).mpr (lt_trans hab hbc)
  plus_atMost ha hb := by
    have hsum := Semilattice.isMember_plus ha hb
    rw [order.atMost_iff_le hsum ha, order.atMost_iff_le hsum hb, toClass_plus ha hb]
    exact ⟨inf_le_left, inf_le_right⟩
  atMost_plus ha hb hc hca hcb := by
    rw [order.atMost_iff_le hc ha] at hca
    rw [order.atMost_iff_le hc hb] at hcb
    rw [order.atMost_iff_le hc (Semilattice.isMember_plus ha hb), toClass_plus ha hb]
    exact le_inf hca hcb
  plus_mono ha hb hc hab := by
    rw [order.atMost_iff_le ha hb] at hab
    rw [order.atMost_iff_le (Semilattice.isMember_plus hc ha) (Semilattice.isMember_plus hc hb),
      order.atMost_iff_le (Semilattice.isMember_plus ha hc) (Semilattice.isMember_plus hb hc),
      toClass_plus hc ha, toClass_plus hc hb, toClass_plus ha hc, toClass_plus hb hc]
    exact ⟨inf_le_inf_left _ hab, inf_le_inf_right _ hab⟩
  times_mono_left {a b c} hleft ha hb hc hab := by
    have hsum : Equal (plus a b) a :=
      ⟨Semilattice.isMember_plus ha hb, ha, (order.atMost_iff_plus ha hb).mp hab⟩
    have hproduct : (times c (plus a b) == times c a) = true := htimes (.refl hc) hsum
    exact order.atMost_of_plus (BEq.trans (BEq.symm (hleft ha hb hc)) hproduct)
  times_mono_right {a b c} hright ha hb hc hab := by
    have hsum : Equal (plus a b) a :=
      ⟨Semilattice.isMember_plus ha hb, ha, (order.atMost_iff_plus ha hb).mp hab⟩
    have hproduct : (times (plus a b) c == times a c) = true := htimes hsum (.refl hc)
    exact order.atMost_of_plus (BEq.trans (BEq.symm (hright ha hb hc)) hproduct)
  compare_swap {a b} ha hb := by
    have hsymm : (b == a) = (a == b) := BEq.comm
    have hasymm := order.less_asymm ha hb
    unfold compare
    rw [hsymm]
    cases a == b <;> cases hab : order.less a b <;> cases hba : order.less b a <;> simp_all
  compare_eq_iff := order.compare_eq_iff
  compare_isSome hchooses ha hb := by
    rw [Option.isSome_iff_ne_none, Ne, order.compare_eq_none_iff]
    rintro ⟨hab, hba⟩
    rcases hchooses ha hb with hsum | hsum
    · rw [order.atMost_of_plus hsum] at hab
      cases hab
    · rw [order.atMost_of_plus (BEq.trans (Semilattice.plus_comm hb ha) hsum)] at hba
      cases hba

/-- Truth values have the sums of a semilattice. -/
instance : Semilattice Boolean where
  isMember_plus := Boolean.leftSemiring.isMember_plus
  plus_congr := Boolean.leftSemiring.plus_congr
  plus_assoc := Boolean.leftSemiring.plus_assoc
  plus_comm := Boolean.leftSemiring.plus_comm
  plus_self {a} := by revert a; decide

/-- Pairs of truth values, of which the ones that are true in more places come first.  A product
keeps the order of its right factors, and two pairs that are true in different places are not
ordered, one way or the other. -/
theorem laws_of_pairs :
    let order : NaturalOrder (Product Boolean Boolean) := ⟨true⟩
    let both : Product Boolean Boolean := ⟨.yes, .yes⟩
    let first : Product Boolean Boolean := ⟨.yes, .no⟩
    let second : Product Boolean Boolean := ⟨.no, .yes⟩
    TimesRespectsEqual (Product Boolean Boolean) ∧ order.Laws ∧
      DistributesLeft (Product Boolean Boolean) ∧ order.less both first = true ∧
      order.less first zero = true ∧ order.less both zero = true ∧
      order.atMost (times second both) (times second first) = true ∧
      order.compare first second = none ∧ order.compare second first = none := by
  intro order both first second
  have htimes : TimesRespectsEqual (Product Boolean Boolean) := by
    intro a a' b b' ha hb
    rw [product_equal_iff] at ha hb
    exact Product.beq_iff.mpr ⟨Boolean.leftSemiring.times_congr ha.1 hb.1,
      Boolean.leftSemiring.times_congr ha.2 hb.2⟩
  have hleft : DistributesLeft (Product Boolean Boolean) := by
    intro a b c ha hb hc
    rw [Product.isMember_iff] at ha hb hc
    exact Product.beq_iff.mpr ⟨Boolean.leftSemiring.times_plus hc.1 ha.1 hb.1,
      Boolean.leftSemiring.times_plus hc.2 ha.2 hb.2⟩
  have hlaws : order.Laws := laws htimes order
  have hboth : order.less both first = true := rfl
  have hfirst : order.less first zero = true := rfl
  have hnone : order.compare first second = none := rfl
  have hmono := hlaws.times_mono_left (a := both) (b := first) (c := second) hleft rfl rfl rfl
    (order.atMost_iff.mpr (Or.inl hboth))
  refine ⟨htimes, hlaws, hleft, hboth, hfirst, hlaws.less_trans rfl rfl rfl hboth hfirst, hmono,
    hnone, ?_⟩
  rw [hlaws.compare_swap (a := first) rfl rfl, hnone]
  rfl

end NaturalOrder
end WeightedTransducer
