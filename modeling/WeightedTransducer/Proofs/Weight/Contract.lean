import Mathlib.Data.Set.Operations
import WeightedTransducer.Proofs.Weight.Sum

/-!
# The contract of weight types, and pairs

`Requirement` lists the laws of the contract that weight types keep.  Some are asked of every type,
and some only of those that declare a property (`Requirement.isAsked`).  Laws speak of the members
of a type and hold up to its own equality.

A pair keeps a law that both components keep, except that a sum of pairs need not be one of the two
(`Product.holds`), and it is asked for the laws that both components are asked for, with the same
exception (`Product.isAsked_properties`).  Pairs may be nested to any depth (`Nested`), so both
come down to the types at the leaves (`Nested.keeps_contract`).  A pair divides by a pair whose
components both divide, so dividing by a nested pair takes leaves that are all different from zero
(`Nested.divisors`).
-/

namespace WeightedTransducer

namespace Weight
variable (W : Type) [Weight W]

/-- The members of a type. -/
def members : Set W :=
  {w | isMember w = true}

/-- The weights of a type that are not zero. -/
def nonzero : Set W :=
  {w | (w == zero) = false}

end Weight

/-- Where a divisor stands in a product. -/
inductive FactorPlace where
  | leading
  | trailing
  deriving DecidableEq, Repr

/-- The product of a divisor and another weight. -/
def FactorPlace.product {W : Type} [Weight W] (place : FactorPlace) (divisor other : W) : W :=
  match place with
  | leading => Weight.times divisor other
  | trailing => Weight.times other divisor

/-- A law of the contract. -/
inductive Requirement where
  | zeroMember
  | oneMember
  | noWeightNonMember
  | plusAssociative
  | plusCommutative
  | plusIdentity
  | timesAssociative
  | leftIdentity
  | rightIdentity
  | leftAnnihilation
  | rightAnnihilation
  | leftDistributive
  | rightDistributive
  | timesCommutative
  | idempotent
  | path
  | reverseInvolution
  | reverseOfPlus
  | reverseOfTimes
  /-- A product divided by the factor in one place gives a member that makes up the product again
  when that factor is multiplied to it in the other place. -/
  | division (side : Side) (factor back : FactorPlace)
  deriving DecidableEq, Repr

namespace Requirement

/-- The properties that ask for a law where a type declares them; every type is asked for the laws
that need no property.  No property speaks of the other ways to divide. -/
def askedBy : Requirement → Option Properties
  | leftDistributive | division .left .leading .leading => some .leftSemiring
  | rightDistributive | division .right .trailing .trailing => some .rightSemiring
  | timesCommutative | division .any _ _ => some .commutative
  | idempotent => some .idempotent
  | path => some .path
  | division _ _ _ => none
  | _ => some .none

/-- Whether a type with the given properties is asked for a law. -/
def isAsked (p : Properties) (law : Requirement) : Bool :=
  law.askedBy.any p.contains

section Holds
variable (W : Type) {R : Type} [Weight W] [Weight R] [Reversible W R]

/-- What a law says of some weights and of those among them that are divided by. -/
def Holds (S divisors : Set W) : Requirement → Prop
  | zeroMember => Weight.isMember (Weight.zero : W) = true
  | oneMember => Weight.isMember (Weight.one : W) = true
  | noWeightNonMember => Weight.isMember (Weight.noWeight : W) = false
  | plusAssociative => ∀ a ∈ S, ∀ b ∈ S, ∀ c ∈ S,
    (Weight.plus a (Weight.plus b c) == Weight.plus (Weight.plus a b) c) = true
  | plusCommutative => ∀ a ∈ S, ∀ b ∈ S, (Weight.plus a b == Weight.plus b a) = true
  | plusIdentity => ∀ a ∈ S,
    (Weight.plus a Weight.zero == a) = true ∧ (Weight.plus Weight.zero a == a) = true
  | timesAssociative => ∀ a ∈ S, ∀ b ∈ S, ∀ c ∈ S,
    (Weight.times a (Weight.times b c) == Weight.times (Weight.times a b) c) = true
  | leftIdentity => ∀ a ∈ S, (Weight.times Weight.one a == a) = true
  | rightIdentity => ∀ a ∈ S, (Weight.times a Weight.one == a) = true
  | leftAnnihilation => ∀ a ∈ S, (Weight.times Weight.zero a == Weight.zero) = true
  | rightAnnihilation => ∀ a ∈ S, (Weight.times a Weight.zero == Weight.zero) = true
  | leftDistributive => ∀ a ∈ S, ∀ b ∈ S, ∀ c ∈ S,
    (Weight.times a (Weight.plus b c) == Weight.plus (Weight.times a b) (Weight.times a c)) = true
  | rightDistributive => ∀ a ∈ S, ∀ b ∈ S, ∀ c ∈ S,
    (Weight.times (Weight.plus a b) c == Weight.plus (Weight.times a c) (Weight.times b c)) = true
  | timesCommutative => ∀ a ∈ S, ∀ b ∈ S, (Weight.times a b == Weight.times b a) = true
  | idempotent => ∀ a ∈ S, (Weight.plus a a == a) = true
  | path => ∀ a ∈ S, ∀ b ∈ S, (Weight.plus a b == a) = true ∨ (Weight.plus a b == b) = true
  | reverseInvolution => ∀ a ∈ S, (Reversible.restore (Reversible.reverse a : R) == a) = true
  | reverseOfPlus => ∀ a ∈ S, ∀ b ∈ S, ((Reversible.reverse (Weight.plus a b) : R) ==
    Weight.plus (Reversible.reverse a) (Reversible.reverse b)) = true
  | reverseOfTimes => ∀ a ∈ S, ∀ b ∈ S, ((Reversible.reverse (Weight.times a b) : R) ==
    Weight.times (Reversible.reverse b) (Reversible.reverse a)) = true
  | division side factor back => ∀ a ∈ S, a ∈ divisors → ∀ b ∈ S,
    let product := factor.product a b
    let quotient := (Weight.divide side product a).value
    Weight.isMember quotient = true ∧ (back.product a quotient == product) = true

end Holds
end Requirement

/-! ## Pairs -/

namespace Product
variable {A B R T : Type} [Weight A] [Weight B] [Weight R] [Weight T] [Reversible A R]
  [Reversible B T]

/-- Pairs of weights from two sets. -/
def pairs (S : Set A) (U : Set B) : Set (Product A B) :=
  {w | w.first ∈ S ∧ w.second ∈ U}

theorem isMember_iff {w : Product A B} :
    Weight.isMember w = true ↔ Weight.isMember w.first = true ∧ Weight.isMember w.second = true :=
  Bool.and_eq_true_iff

theorem members_eq_pairs :
    Weight.members (Product A B) = pairs (Weight.members A) (Weight.members B) :=
  Set.ext fun _ => isMember_iff

theorem product_eq (place : FactorPlace) (v w : Product A B) :
    place.product v w = ⟨place.product v.first w.first, place.product v.second w.second⟩ := by
  cases place <;> rfl

/-- The power of a pair is the pair of the powers. -/
theorem power_eq (w : Product A B) (n : Nat) :
    Weight.power w n = ⟨Weight.power w.first n, Weight.power w.second n⟩ := by
  induction n with
  | zero => rfl
  | succ n ih =>
    rw [Weight.power_succ, ih]
    rfl

/-- **Pairs keep every law that the components keep**, but a sum of pairs need not be one of
them. -/
theorem holds {law : Requirement} (hlaw : law ≠ .path) {S P : Set A} {U Q : Set B}
    (hfirst : law.Holds A S P) (hsecond : law.Holds B U Q) :
    law.Holds (Product A B) (pairs S U) (pairs P Q) := by
  cases law with
  | path => exact absurd rfl hlaw
  | zeroMember => exact isMember_iff.mpr ⟨hfirst, hsecond⟩
  | oneMember => exact isMember_iff.mpr ⟨hfirst, hsecond⟩
  | noWeightNonMember =>
    show (Weight.isMember (Weight.noWeight : A) && Weight.isMember (Weight.noWeight : B)) = false
    rw [hfirst, Bool.false_and]
  | plusIdentity =>
    intro a ha
    obtain ⟨hright, hleft⟩ := hfirst _ ha.1
    obtain ⟨hright', hleft'⟩ := hsecond _ ha.2
    exact ⟨beq_iff.mpr ⟨hright, hright'⟩, beq_iff.mpr ⟨hleft, hleft'⟩⟩
  | division side factor back =>
    intro a ha hdivisor b hb
    obtain ⟨hmember, hback⟩ := hfirst _ ha.1 hdivisor.1 _ hb.1
    obtain ⟨hmember', hback'⟩ := hsecond _ ha.2 hdivisor.2 _ hb.2
    dsimp only
    rw [product_eq factor, product_eq back]
    exact ⟨isMember_iff.mpr ⟨hmember, hmember'⟩, beq_iff.mpr ⟨hback, hback'⟩⟩
  | plusAssociative | timesAssociative | leftDistributive | rightDistributive =>
    intro a ha b hb c hc
    exact beq_iff.mpr ⟨hfirst _ ha.1 _ hb.1 _ hc.1, hsecond _ ha.2 _ hb.2 _ hc.2⟩
  | plusCommutative | timesCommutative | reverseOfPlus | reverseOfTimes =>
    intro a ha b hb
    exact beq_iff.mpr ⟨hfirst _ ha.1 _ hb.1, hsecond _ ha.2 _ hb.2⟩
  | leftIdentity | rightIdentity | leftAnnihilation | rightAnnihilation | idempotent
    | reverseInvolution =>
    intro a ha
    exact beq_iff.mpr ⟨hfirst _ ha.1, hsecond _ ha.2⟩

/-- The properties that a pair can declare are all but the path property. -/
theorem contains_askedBy {law : Requirement} {p : Properties} (h : law.askedBy = some p) :
    ((Properties.semiring.union .commutative).union .idempotent).contains p = (law != .path) := by
  cases law with
  | division side factor back =>
    cases side <;> cases factor <;> cases back <;> cases h <;> decide
  | _ =>
    cases h
    decide

/-- **Pairs are asked for the laws that both components are asked for**, but never for the path
property. -/
theorem isAsked_properties (law : Requirement) :
    law.isAsked (Weight.properties (Product A B)) =
      (law.isAsked (Weight.properties A) && law.isAsked (Weight.properties B) && law != .path) := by
  unfold Requirement.isAsked
  cases hasked : law.askedBy with
  | none => rfl
  | some p =>
    show (((Weight.properties A).inter (Weight.properties B)).inter _).contains p =
      ((Weight.properties A).contains p && (Weight.properties B).contains p && law != .path)
    rw [Properties.contains_inter, Properties.contains_inter, contains_askedBy hasked]

end Product

/-! ## Pairs of pairs -/

/-- Types that are built from others by pairs, with the types of their reversed weights. -/
inductive Nested : Type 1 where
  /-- A type that is not taken apart. -/
  | leaf (W R : Type) [Weight W] [Weight R] [Reversible W R]
  /-- Pairs. -/
  | pair (first second : Nested)

namespace Nested

/-- The weights. -/
def Carrier : Nested → Type
  | leaf W _ => W
  | pair first second => Product first.Carrier second.Carrier

/-- The reversed weights. -/
def Reversed : Nested → Type
  | leaf _ R => R
  | pair first second => Product first.Reversed second.Reversed

instance instWeight : (t : Nested) → Weight t.Carrier
  | @leaf _ _ weight _ _ => weight
  | pair first second =>
    letI := instWeight first
    letI := instWeight second
    inferInstanceAs (Weight (Product first.Carrier second.Carrier))

instance instWeightReversed : (t : Nested) → Weight t.Reversed
  | @leaf _ _ _ weight _ => weight
  | pair first second =>
    letI := instWeightReversed first
    letI := instWeightReversed second
    inferInstanceAs (Weight (Product first.Reversed second.Reversed))

instance instReversible : (t : Nested) → Reversible t.Carrier t.Reversed
  | @leaf _ _ _ _ reversible => reversible
  | pair first second =>
    letI := instReversible first
    letI := instReversible second
    inferInstanceAs (Reversible (Product first.Carrier second.Carrier)
      (Product first.Reversed second.Reversed))

/-- The types that are not taken apart. -/
def leaves : Nested → List Nested
  | pair first second => first.leaves ++ second.leaves
  | t => [t]

/-- The weights that are divided by: all that are not zero, and the pairs of such weights. -/
def divisors : (t : Nested) → Set t.Carrier
  | leaf W _ => Weight.nonzero W
  | pair first second => Product.pairs first.divisors second.divisors

/-- The members keep a law. -/
def Keeps (t : Nested) (law : Requirement) : Prop :=
  law.Holds t.Carrier (Weight.members t.Carrier) t.divisors

/-- The declared properties ask for a law. -/
def Asks (t : Nested) (law : Requirement) : Prop :=
  law.isAsked (Weight.properties t.Carrier) = true

theorem Keeps.pair {first second : Nested} {law : Requirement} (hlaw : law ≠ .path)
    (hfirst : first.Keeps law) (hsecond : second.Keeps law) : (pair first second).Keeps law := by
  have hpair := Product.holds hlaw hfirst hsecond
  rw [← Product.members_eq_pairs] at hpair
  exact hpair

theorem asks_pair_iff {first second : Nested} {law : Requirement} :
    (pair first second).Asks law ↔ law ≠ .path ∧ first.Asks law ∧ second.Asks law := by
  have h := Product.isAsked_properties (A := first.Carrier) (B := second.Carrier) law
  unfold Asks
  refine (Bool.eq_iff_iff.mp h).trans ?_
  rw [Bool.and_eq_true, Bool.and_eq_true, bne_iff_ne, and_comm]

/-- Pairs of pairs, however they are nested, keep the laws that the leaves keep. -/
theorem keeps_of_leaves {t : Nested} {law : Requirement} (hlaw : law ≠ .path)
    (h : ∀ leaf ∈ t.leaves, leaf.Keeps law) : t.Keeps law := by
  induction t with
  | leaf W R => exact h _ (List.mem_singleton_self _)
  | pair first second ihf ihs =>
    exact Keeps.pair hlaw (ihf fun leaf hleaf => h leaf (List.mem_append_left _ hleaf))
      (ihs fun leaf hleaf => h leaf (List.mem_append_right _ hleaf))

/-- Pairs of pairs keep what they are asked for if the leaves do. -/
theorem keeps_of_asks {t : Nested}
    (h : ∀ leaf ∈ t.leaves, ∀ law, leaf.Asks law → leaf.Keeps law) {law : Requirement}
    (hasks : t.Asks law) : t.Keeps law := by
  induction t with
  | leaf W R => exact h _ (List.mem_singleton_self _) law hasks
  | pair first second ihf ihs =>
    obtain ⟨hlaw, hfirst, hsecond⟩ := asks_pair_iff.mp hasks
    exact Keeps.pair hlaw
      (ihf (fun leaf hleaf => h leaf (List.mem_append_left _ hleaf)) hfirst)
      (ihs (fun leaf hleaf => h leaf (List.mem_append_right _ hleaf)) hsecond)

/-- **Pairs support the contract.**  A pair keeps every law that both of its components keep, except
the path property.  It is asked for exactly the laws that both are asked for, again except the path
property, which it does not declare.  However pairs are nested, they keep the laws that their leaves
keep, and everything that they are asked for if the leaves keep what they are asked for. -/
theorem keeps_contract :
    (∀ (first second : Nested) (law : Requirement), law ≠ .path →
      first.Keeps law → second.Keeps law → (pair first second).Keeps law) ∧
    (∀ (first second : Nested) (law : Requirement),
      (pair first second).Asks law ↔ law ≠ .path ∧ first.Asks law ∧ second.Asks law) ∧
    (∀ (t : Nested) (law : Requirement), law ≠ .path →
      (∀ leaf ∈ t.leaves, leaf.Keeps law) → t.Keeps law) ∧
    ∀ t : Nested, (∀ leaf ∈ t.leaves, ∀ law, leaf.Asks law → leaf.Keeps law) →
      ∀ law, t.Asks law → t.Keeps law :=
  ⟨fun _ _ _ => Keeps.pair, fun _ _ _ => asks_pair_iff, fun _ _ => keeps_of_leaves,
    fun _ h _ => keeps_of_asks h⟩

end Nested

/-- Truth values keep every law. -/
theorem Boolean.holds (law : Requirement) :
    law.Holds Boolean (Weight.members Boolean) (Weight.nonzero Boolean) := by
  unfold Weight.members Weight.nonzero
  cases law with
  | division side factor back =>
    cases side <;> cases factor <;> cases back <;>
      simp only [Requirement.Holds, Set.mem_ofPred_eq] <;> decide
  | _ =>
    simp only [Requirement.Holds, Set.mem_ofPred_eq]
    decide

/-- Triples of truth values keep what they are asked for.  They are not asked for the path property,
and pairs of truth values do not keep it. -/
theorem Nested.keeps_contract_of_boolean :
    let truth : Nested := .leaf Boolean Boolean
    let t : Nested := .pair truth (.pair truth truth)
    (∀ leaf ∈ t.leaves, ∀ law, leaf.Asks law → leaf.Keeps law) ∧
      t.Asks (.division .any .leading .trailing) ∧ t.Keeps (.division .any .leading .trailing) ∧
      t.Keeps .leftDistributive ∧ (Nested.pair truth truth).Keeps .idempotent ∧ ¬ t.Asks .path ∧
      ¬ (Nested.pair truth truth).Keeps .path := by
  intro truth t
  have hleaves : ∀ leaf ∈ t.leaves, ∀ law, leaf.Keeps law := by
    have hall : t.leaves = List.replicate 3 truth := rfl
    intro leaf hleaf law
    rw [hall] at hleaf
    rw [List.eq_of_mem_replicate hleaf]
    exact Boolean.holds law
  have hasks : t.Asks (.division .any .leading .trailing) := by
    let p : Properties := Weight.properties (Product Boolean (Product Boolean Boolean))
    show Requirement.isAsked p _ = true
    decide
  have hpath : ¬ (Nested.pair truth truth).Keeps .path := by
    intro h
    let v : Product Boolean Boolean := ⟨.yes, .no⟩
    let w : Product Boolean Boolean := ⟨.no, .yes⟩
    have hsum : (Weight.plus v w == v) = true ∨ (Weight.plus v w == w) = true := h v rfl w rfl
    revert hsum
    decide
  obtain ⟨hpair, hpairAsks, hkeeps, hcontract⟩ := keeps_contract
  exact ⟨fun leaf hleaf law _ => hleaves leaf hleaf law, hasks,
    hcontract t (fun leaf hleaf law _ => hleaves leaf hleaf law) _ hasks,
    hkeeps t _ (by decide) fun leaf hleaf => hleaves leaf hleaf _,
    hpair truth truth _ (by decide) (Boolean.holds _) (Boolean.holds _),
    fun h => ((hpairAsks truth (.pair truth truth) .path).mp h).1 rfl, hpath⟩

end WeightedTransducer
