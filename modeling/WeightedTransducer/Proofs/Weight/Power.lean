import Mathlib.Algebra.Group.Commute.Defs
import WeightedTransducer.Proofs.Weight.NaturalOrder

/-!
# Laws of powers

A power is a product that is built up from the left, one factor after the other.  Where products
need no parentheses and `one` changes none (`Weight.TimesMonoid`), that order makes no difference:
the members of the type, with equal ones taken for one, form a monoid (`Weight.Class`), and the
class of a power is the power of the class (`Weight.toClass_power`).  So the laws that split a power
are those of every monoid, and they need no commutativity.

Reversing a power turns its factors around, which makes no difference either.  But the product that
is built up from the right is only equal to the power, and `==` may identify values that differ.  So
it is not enough that reversing turns products around (`Weight.reverse_power_ne_power_reverse`):
either it respects equality, or the reverses are members of a type whose own products need no
parentheses (`Weight.PowerLaws`).

For pairs nothing is assumed at all.  The power of a pair is the pair of the powers
(`Product.power_eq`), and so it is at the leaves of pairs of pairs (`Nested.power_eq_mapLeaves`).
-/

namespace WeightedTransducer

namespace Weight
variable {W : Type} [Weight W]

/-- The products of members are members and respect equality.  They can be taken with any
parentheses, and `one` is a member that changes no product. -/
class TimesMonoid (W : Type) [Weight W] : Prop where
  isMember_one : isMember (one : W) = true
  isMember_times {a b : W} (ha : isMember a = true) (hb : isMember b = true) :
    isMember (times a b) = true
  times_congr {a a' b b' : W} (ha : Equal a a') (hb : Equal b b') :
    (times a b == times a' b') = true
  times_assoc {a b c : W} (ha : isMember a = true) (hb : isMember b = true)
    (hc : isMember c = true) : (times (times a b) c == times a (times b c)) = true
  one_times {a : W} (ha : isMember a = true) : (times one a == a) = true
  times_one {a : W} (ha : isMember a = true) : (times a one == a) = true

/-! ## The monoid of members up to equality -/

section Class
variable [EquivBEq W] [TimesMonoid W]

/-- The product of two members, up to equality. -/
def Class.times : Class W → Class W → Class W :=
  Quotient.map₂ (fun a b => ⟨Weight.times a.val b.val, TimesMonoid.isMember_times a.2 b.2⟩)
    fun a a' ha b b' hb => TimesMonoid.times_congr ⟨a.2, a'.2, ha⟩ ⟨b.2, b'.2, hb⟩

/-- **Members up to equality are a monoid**, whose products are the products of weights. -/
instance : Monoid (Class W) where
  mul := Class.times
  one := toClass one TimesMonoid.isMember_one
  mul_assoc a b c := Quotient.inductionOn₃ a b c fun a b c =>
    (toClass_eq_iff _ _).mpr (TimesMonoid.times_assoc a.2 b.2 c.2)
  one_mul a := Quotient.inductionOn a fun a =>
    (toClass_eq_iff _ _).mpr (TimesMonoid.one_times a.2)
  mul_one a := Quotient.inductionOn a fun a =>
    (toClass_eq_iff _ _).mpr (TimesMonoid.times_one a.2)

theorem toClass_one : toClass (one : W) TimesMonoid.isMember_one = 1 := rfl

theorem toClass_times {a b : W} (ha : isMember a = true) (hb : isMember b = true) :
    toClass (times a b) (TimesMonoid.isMember_times ha hb) = toClass a ha * toClass b hb :=
  rfl

omit [EquivBEq W] in
theorem isMember_power {w : W} (hw : isMember w = true) (n : Nat) :
    isMember (power w n) = true := by
  induction n with
  | zero => exact TimesMonoid.isMember_one
  | succ n ih => exact TimesMonoid.isMember_times ih hw

/-- **The class of a power is the power of the class.** -/
theorem toClass_power {w : W} (hw : isMember w = true) (n : Nat) :
    toClass (power w n) (isMember_power hw n) = toClass w hw ^ n := by
  induction n with
  | zero =>
    rw [pow_zero]
    exact toClass_one
  | succ n ih =>
    rw [pow_succ, ← ih]
    exact toClass_times (isMember_power hw n) hw

/-- A power may be built up from the right as well. -/
theorem power_succ_equal {w : W} (hw : isMember w = true) (n : Nat) :
    Equal (power w (n + 1)) (times w (power w n)) where
  left := isMember_power hw (n + 1)
  right := TimesMonoid.isMember_times hw (isMember_power hw n)
  beq := by
    rw [← toClass_eq_iff (isMember_power hw (n + 1))
      (TimesMonoid.isMember_times hw (isMember_power hw n)), toClass_times hw (isMember_power hw n),
      toClass_power hw, toClass_power hw, pow_succ']

end Class

/-! ## The laws -/

/-- Reversing turns the products of members around and keeps `one`. -/
structure ReversesTimes (W R : Type) [Weight W] [Weight R] [Reversible W R] : Prop where
  reverse_one : ((Reversible.reverse (one : W) : R) == one) = true
  reverse_times {a b : W} (ha : isMember a = true) (hb : isMember b = true) :
    ((Reversible.reverse (times a b) : R) ==
      times (Reversible.reverse b) (Reversible.reverse a)) = true

/-- What powers satisfy on the members of a type. -/
structure PowerLaws (W : Type) [Weight W] : Prop where
  power_add {w : W} (hw : isMember w = true) (m n : Nat) :
    (power w (m + n) == times (power w m) (power w n)) = true
  power_mul {w : W} (hw : isMember w = true) (m n : Nat) :
    (power w (m * n) == power (power w m) n) = true
  /-- The power of a product is the product of the powers if the two factors commute. -/
  power_times {a b : W} (ha : isMember a = true) (hb : isMember b = true)
    (hcomm : (times a b == times b a) = true) (n : Nat) :
    (power (times a b) n == times (power a n) (power b n)) = true
  /-- The reverse of a power is the power of the reverse if equal members have equal reverses.
  Nothing is asked of the reversed weights but that their products respect equality. -/
  reverse_power {R : Type} [Weight R] [EquivBEq R] [Reversible W R] (hreverse : ReversesTimes W R)
    (hequal : ∀ {a b : W}, Equal a b →
      ((Reversible.reverse a : R) == Reversible.reverse b) = true)
    (htimes : ∀ {x x' y y' : R}, (x == x') = true → (y == y') = true →
      (times x y == times x' y') = true)
    {w : W} (hw : isMember w = true) (n : Nat) :
    ((Reversible.reverse (power w n) : R) == power (Reversible.reverse w) n) = true
  /-- So it is if the reverses of members are members, and the products of reversed weights need no
  parentheses either. -/
  reverse_power_of_members {R : Type} [Weight R] [EquivBEq R] [TimesMonoid R] [Reversible W R]
    (hreverse : ReversesTimes W R)
    (hmember : ∀ {a : W}, isMember a = true → isMember (Reversible.reverse a : R) = true)
    {w : W} (hw : isMember w = true) (n : Nat) :
    ((Reversible.reverse (power w n) : R) == power (Reversible.reverse w) n) = true

section Class
variable [EquivBEq W] [TimesMonoid W]

theorem power_add {w : W} (hw : isMember w = true) (m n : Nat) :
    (power w (m + n) == times (power w m) (power w n)) = true := by
  have hm := isMember_power hw m
  have hn := isMember_power hw n
  have hmn := isMember_power hw (m + n)
  rw [← toClass_eq_iff hmn (TimesMonoid.isMember_times hm hn)]
  calc toClass (power w (m + n)) hmn
    _ = toClass w hw ^ (m + n) := toClass_power hw (m + n)
    _ = toClass w hw ^ m * toClass w hw ^ n := pow_add _ m n
    _ = toClass (power w m) hm * toClass (power w n) hn := by
      rw [toClass_power hw, toClass_power hw]
    _ = toClass (times (power w m) (power w n)) _ := (toClass_times hm hn).symm

theorem power_mul {w : W} (hw : isMember w = true) (m n : Nat) :
    (power w (m * n) == power (power w m) n) = true := by
  have hm := isMember_power hw m
  have hmn := isMember_power hw (m * n)
  rw [← toClass_eq_iff hmn (isMember_power hm n)]
  calc toClass (power w (m * n)) hmn
    _ = toClass w hw ^ (m * n) := toClass_power hw (m * n)
    _ = (toClass w hw ^ m) ^ n := pow_mul _ m n
    _ = toClass (power w m) hm ^ n := by rw [toClass_power hw]
    _ = toClass (power (power w m) n) _ := (toClass_power hm n).symm

theorem power_times {a b : W} (ha : isMember a = true) (hb : isMember b = true)
    (hcomm : (times a b == times b a) = true) (n : Nat) :
    (power (times a b) n == times (power a n) (power b n)) = true := by
  have hab := TimesMonoid.isMember_times ha hb
  have han := isMember_power ha n
  have hbn := isMember_power hb n
  have hclass : Commute (toClass a ha) (toClass b hb) :=
    (toClass_eq_iff hab (TimesMonoid.isMember_times hb ha)).mpr hcomm
  rw [← toClass_eq_iff (isMember_power hab n) (TimesMonoid.isMember_times han hbn)]
  calc toClass (power (times a b) n) _
    _ = (toClass a ha * toClass b hb) ^ n := by rw [toClass_power hab, toClass_times ha hb]
    _ = toClass a ha ^ n * toClass b hb ^ n := hclass.mul_pow n
    _ = toClass (power a n) han * toClass (power b n) hbn := by
      rw [toClass_power ha, toClass_power hb]
    _ = toClass (times (power a n) (power b n)) _ := (toClass_times han hbn).symm

section Reverse
variable {R : Type} [Weight R] [EquivBEq R] [Reversible W R] (hreverse : ReversesTimes W R)
include hreverse

/-- The factors are put in the order in which the reverse takes them before they are reversed. -/
theorem reverse_power_of_equal
    (hequal : ∀ {a b : W}, Equal a b →
      ((Reversible.reverse a : R) == Reversible.reverse b) = true)
    (htimes : ∀ {x x' y y' : R}, (x == x') = true → (y == y') = true →
      (times x y == times x' y') = true)
    {w : W} (hw : isMember w = true) (n : Nat) :
    ((Reversible.reverse (power w n) : R) == power (Reversible.reverse w) n) = true := by
  induction n with
  | zero => exact hreverse.reverse_one
  | succ n ih =>
    have hturn : ((Reversible.reverse (power w (n + 1)) : R) ==
        Reversible.reverse (times w (power w n))) = true := hequal (power_succ_equal hw n)
    have hswap : ((Reversible.reverse (times w (power w n)) : R) ==
        times (Reversible.reverse (power w n)) (Reversible.reverse w)) = true :=
      hreverse.reverse_times hw (isMember_power hw n)
    exact BEq.trans hturn (BEq.trans hswap (htimes ih BEq.rfl))

omit [EquivBEq W] in
/-- The factors are put in the order in which the reverse takes them after they were reversed. -/
theorem reverse_power_of_members [TimesMonoid R]
    (hmember : ∀ {a : W}, isMember a = true → isMember (Reversible.reverse a : R) = true)
    {w : W} (hw : isMember w = true) (n : Nat) :
    ((Reversible.reverse (power w n) : R) == power (Reversible.reverse w) n) = true := by
  have hx : isMember (Reversible.reverse w : R) = true := hmember hw
  induction n with
  | zero => exact hreverse.reverse_one
  | succ n ih =>
    have hn := isMember_power hw n
    have hequal : Equal (Reversible.reverse (power w n) : R) (power (Reversible.reverse w) n) :=
      ⟨hmember hn, isMember_power hx n, ih⟩
    have hswap : ((Reversible.reverse (power w (n + 1)) : R) ==
        times (Reversible.reverse w) (Reversible.reverse (power w n))) = true :=
      hreverse.reverse_times hn hw
    have hturn : (times (Reversible.reverse w) (power (Reversible.reverse w : R) n) ==
        power (Reversible.reverse w) (n + 1)) = true := (power_succ_equal hx n).symm.beq
    exact BEq.trans hswap (BEq.trans (TimesMonoid.times_congr (.refl hx) hequal) hturn)

end Reverse

theorem powerLaws : PowerLaws W where
  power_add := power_add
  power_mul := power_mul
  power_times := power_times
  reverse_power hreverse hequal htimes _ := reverse_power_of_equal hreverse hequal htimes
  reverse_power_of_members hreverse hmember _ := reverse_power_of_members hreverse hmember

end Class
end Weight

/-! ## Pairs -/

namespace Nested

/-- What pairs of pairs become if the weight at every leaf is changed. -/
def mapLeaves (f : (V : Type) → [Weight V] → V → V) : (t : Nested) → t.Carrier → t.Carrier
  | leaf V _, v => f V v
  | pair first second, w => ⟨first.mapLeaves f w.first, second.mapLeaves f w.second⟩

/-- **The power of pairs of pairs has the powers of the leaves at its leaves.** -/
theorem power_eq_mapLeaves (t : Nested) (w : t.Carrier) (n : Nat) :
    Weight.power w n = t.mapLeaves (fun _ _ v => Weight.power v n) w := by
  induction t with
  | leaf V R => rfl
  | pair first second ihf ihs =>
    have hpair : Weight.power w n =
        (⟨Weight.power w.first n, Weight.power w.second n⟩ :
          Product first.Carrier second.Carrier) := Product.power_eq w n
    rw [hpair, ihf, ihs]
    rfl

end Nested

/-! ## Tables

Whether the products of a table need no parentheses can be told from the table.  The permutations of
three places are an example in which the order of the factors matters and reversing undoes a
permutation, so that every law of powers can be seen on them. -/

namespace FiniteWeight
open Weight
variable {t : FiniteTable}

/-- A value that the table says nothing of is no member. -/
theorem index_lt_of_isMember {w : FiniteWeight t} (h : isMember w = true) :
    w.index < t.members.size := by
  by_contra hindex
  have hnot : t.members.getD w.index false = false := by
    rw [Array.getD_eq_getD_getElem?, Array.getElem?_eq_none (Nat.le_of_not_lt hindex)]
    rfl
  exact Bool.false_ne_true (hnot.symm.trans h)

instance {p : FiniteWeight t → Prop} [DecidablePred p] :
    Decidable (∀ w, isMember w = true → p w) :=
  decidable_of_iff (∀ i < t.members.size, isMember (⟨i⟩ : FiniteWeight t) = true → p ⟨i⟩)
    ⟨fun h w hw => h w.index (index_lt_of_isMember hw) hw, fun h i _ hi => h ⟨i⟩ hi⟩

theorem eq_of_beq {v w : FiniteWeight t} (h : (v == w) = true) : v = w := by
  cases v
  cases w
  exact congrArg FiniteWeight.mk (beq_iff_eq.mp h)

/-- Equality is that of the numbers, so products respect it in every table. -/
theorem timesMonoid_iff : TimesMonoid (FiniteWeight t) ↔
    isMember (one : FiniteWeight t) = true ∧ ∀ a : FiniteWeight t, isMember a = true →
      (times one a == a) = true ∧ (times a one == a) = true ∧ ∀ b, isMember b = true →
        isMember (times a b) = true ∧ ∀ c, isMember c = true →
          (times (times a b) c == times a (times b c)) = true := by
  constructor
  · intro h
    exact ⟨h.isMember_one, fun a ha => ⟨h.one_times ha, h.times_one ha, fun b hb =>
      ⟨h.isMember_times ha hb, fun c hc => h.times_assoc ha hb hc⟩⟩⟩
  · rintro ⟨hone, h⟩
    exact {
      isMember_one := hone
      isMember_times := fun ha hb => ((h _ ha).2.2 _ hb).1
      times_congr := fun ha hb => by
        rw [eq_of_beq ha.beq, eq_of_beq hb.beq]
        exact BEq.rfl
      times_assoc := fun ha hb hc => ((h _ ha).2.2 _ hb).2 _ hc
      one_times := fun ha => (h _ ha).1
      times_one := fun ha => (h _ ha).2.1 }

instance : Decidable (TimesMonoid (FiniteWeight t)) :=
  decidable_of_iff _ timesMonoid_iff.symm

end FiniteWeight

/-- The permutations of three places in a circle: one that moves nothing, two that turn the circle,
and three that swap two places.  The reverse of a permutation undoes it. -/
def FiniteTable.permutations : FiniteTable where
  plus := #[]
  times := #[#[0, 1, 2, 3, 4, 5], #[1, 2, 0, 4, 5, 3], #[2, 0, 1, 5, 3, 4], #[3, 5, 4, 0, 2, 1],
    #[4, 3, 5, 1, 0, 2], #[5, 4, 3, 2, 1, 0]]
  divideLeft := #[]
  divideRight := #[]
  divideAny := #[]
  reverse := #[0, 2, 1, 3, 4, 5]
  quantize := #[]
  members := #[true, true, true, true, true, true]
  zero := 6
  one := 0
  noWeight := 6
  properties := .none
  texts := #[]
  spellings := #[]

namespace FiniteWeight
open Weight

instance : TimesMonoid (FiniteWeight .permutations) := by
  decide +kernel

theorem reversesTimes_permutations :
    ReversesTimes (FiniteWeight .permutations) (FiniteWeight .permutations) where
  reverse_one := rfl
  reverse_times ha hb := by
    have h : ∀ a : FiniteWeight .permutations, isMember a = true → ∀ b, isMember b = true →
        (Reversible.reverse (times a b) ==
          times (Reversible.reverse b) (Reversible.reverse a)) = true := by decide
    exact h _ ha _ hb

theorem isMember_reverse_permutations :
    ∀ a : FiniteWeight .permutations, isMember a = true →
      isMember (Reversible.reverse a) = true := by
  decide

end FiniteWeight

/-! ## Reverses that tell equal weights apart

An example of a type with two equal members of which only one is its own reverse.  Multiplied by
`one` from the left, the reverse of the other one becomes a member. -/

/-- One, two values that are equal, and the reverse of the second of them. -/
inductive Twins where
  /-- The weight one. -/
  | one
  /-- The first of two equal values, which is its own reverse. -/
  | first
  /-- The second of two equal values. -/
  | second
  /-- The reverse of the second value, which is equal to neither and no member. -/
  | stray
  deriving DecidableEq

namespace Twins

instance {p : Twins → Prop} [DecidablePred p] : Decidable (∀ w, p w) :=
  decidable_of_iff (p one ∧ p first ∧ p second ∧ p stray)
    ⟨fun ⟨hone, hfirst, hsecond, hstray⟩ w => by cases w <;> assumption,
      fun h => ⟨h one, h first, h second, h stray⟩⟩

/-- What equal values have in common. -/
def word : Twins → UInt32
  | one => 0
  | first | second => 1
  | stray => 2

/-- The product; but for `one` it forgets its factors. -/
def times : Twins → Twins → Twins
  | one, one => one
  | one, second => second
  | stray, one => stray
  | _, _ => first

instance : Textual Twins where
  write _ w := Output.text (toString w.word).toList
  read _ text := pure (.error (.element (String.ofList text) "twins"))

instance : Weight Twins where
  beq a b := a.word == b.word
  typeName := "twins"
  properties := .none
  zero := stray
  one := one
  noWeight := stray
  plus a _ := a
  times := times
  isMember w := decide (w ≠ stray)
  divide _ _ _ := pure stray
  hashWords w := [w.word]
  hashWords_congr h := congrArg (fun word => [word]) (eq_of_beq h)
  debug w := toString w.word

/-- The reverse changes places with the second value only. -/
instance : Reversible Twins Twins where
  reverse
    | second => stray
    | stray => second
    | w => w
  restore
    | second => stray
    | stray => second
    | w => w

instance : EquivBEq Twins :=
  equivBEq_of_iff word fun a b => beq_iff_eq (a := a.word) (b := b.word)

end Twins

/-! ## All laws -/

namespace Weight

/-- **The laws of powers.**  Where products need no parentheses, the power to a sum of exponents is
the product of the powers and the power to a product of exponents is the power of the power; a
product of two that commute is raised by raising both, and a reversed power is the power of the
reverse.  The power of a pair is the pair of the powers, whatever its components are, and the same
holds at the leaves of pairs of pairs. -/
theorem power_laws :
    (∀ (W : Type) [Weight W] [EquivBEq W] [TimesMonoid W], PowerLaws W) ∧
    (∀ (A B : Type) [Weight A] [Weight B] (w : Product A B) (n : Nat),
      power w n = ⟨power w.first n, power w.second n⟩) ∧
    ∀ (t : Nested) (w : t.Carrier) (n : Nat),
      power w n = t.mapLeaves (fun _ _ v => power v n) w :=
  ⟨fun _ => powerLaws, fun _ _ => Product.power_eq, Nested.power_eq_mapLeaves⟩

/-- Powers of permutations, of which a turn and a swap do not commute: the square of their product
is not the product of the squares.  A turn is not its own reverse, and commutes with it. -/
theorem power_laws_of_permutations :
    let turn : FiniteWeight .permutations := ⟨1⟩
    let swap : FiniteWeight .permutations := ⟨3⟩
    let back : FiniteWeight .permutations := Reversible.reverse turn
    (times turn swap == times swap turn) = false ∧ (turn == back) = false ∧
      (power turn (2 + 3) == times (power turn 2) (power turn 3)) = true ∧
      (power turn (2 * 4) == power (power turn 2) 4) = true ∧
      (power (times turn back) 5 == times (power turn 5) (power back 5)) = true ∧
      (power (times turn swap) 2 == times (power turn 2) (power swap 2)) = false ∧
      (Reversible.reverse (power turn 4) == power back 4) = true ∧
      (Reversible.reverse (power turn 5) == power back 5) = true ∧
      power (⟨turn, .yes⟩ : Product (FiniteWeight .permutations) Boolean) 6 =
        ⟨power turn 6, power .yes 6⟩ := by
  intro turn swap back
  obtain ⟨hlaws, hpairs, -⟩ := power_laws
  have hperm : PowerLaws (FiniteWeight .permutations) := hlaws _
  have hreverse := FiniteWeight.reversesTimes_permutations
  refine ⟨rfl, rfl, hperm.power_add rfl 2 3, hperm.power_mul rfl 2 4,
    hperm.power_times rfl rfl rfl 5, rfl, hperm.reverse_power hreverse ?hequal ?htimes rfl 4,
    hperm.reverse_power_of_members hreverse (FiniteWeight.isMember_reverse_permutations _) rfl 5,
    hpairs _ _ _ 6⟩
  case hequal =>
    intro a b hab
    rw [FiniteWeight.eq_of_beq hab.beq]
    exact BEq.rfl
  case htimes =>
    intro x x' y y' hx hy
    rw [FiniteWeight.eq_of_beq hx, FiniteWeight.eq_of_beq hy]
    exact BEq.rfl

/-- **Turning products around is not enough for reversed powers.**  The products of the type respect
equality, and on the members they need no parentheses and `one` changes none; reversing turns the
product of any two values around, keeps `one` and is undone by reversing again.  Nevertheless the
reverse of a power is not the power of the reverse. -/
theorem reverse_power_ne_power_reverse :
    let w : Twins := .second
    EquivBEq Twins ∧ TimesMonoid Twins ∧ ReversesTimes Twins Twins ∧
      (∀ a a' b b' : Twins, (a == a') = true → (b == b') = true →
        (times a b == times a' b') = true) ∧
      (∀ a b : Twins, (Reversible.reverse (times a b) ==
        times (Reversible.reverse b) (Reversible.reverse a)) = true) ∧
      (∀ a : Twins, Reversible.reverse (Reversible.reverse a) = a) ∧ isMember w = true ∧
      (Reversible.reverse (power w 1) == power (Reversible.reverse w) 1) = false := by
  intro w
  have hcongr : ∀ a a' b b' : Twins, (a == a') = true → (b == b') = true →
      (times a b == times a' b') = true := by decide
  have hturn : ∀ a b : Twins, (Reversible.reverse (times a b) ==
      times (Reversible.reverse b) (Reversible.reverse a)) = true := by decide
  have hclosed : ∀ a b : Twins, isMember a = true → isMember b = true →
      isMember (times a b) = true := by decide
  have hassoc : ∀ a b c : Twins, isMember a = true → isMember b = true → isMember c = true →
      (times (times a b) c == times a (times b c)) = true := by decide
  have hone : ∀ a : Twins, isMember a = true →
      (times one a == a) = true ∧ (times a one == a) = true := by decide
  have hmonoid : TimesMonoid Twins :=
    { isMember_one := rfl
      isMember_times := hclosed _ _
      times_congr := fun ha hb => hcongr _ _ _ _ ha.beq hb.beq
      times_assoc := hassoc _ _ _
      one_times := fun ha => (hone _ ha).1
      times_one := fun ha => (hone _ ha).2 }
  have hreverses : ReversesTimes Twins Twins :=
    { reverse_one := rfl
      reverse_times := fun _ _ => hturn _ _ }
  exact ⟨inferInstance, hmonoid, hreverses, hcongr, hturn, by decide, rfl, rfl⟩

end Weight
end WeightedTransducer
