import WeightedTransducer.Proofs.Weight.Equality

/-!
# Sums in a left semiring

`Weight.LeftSemiring` says what a weight type has to satisfy for the sums over the paths of a
machine to make sense: its members form a semiring in which products distribute over sums from the
left, up to the type's own equality.  Values that are no members are not spoken of, so all that
follows is about equal members (`Weight.Equal`), of which a chain of equalities gives both ends for
free.
-/

namespace WeightedTransducer
namespace Weight

section Equal
variable {W : Type} [Weight W]

/-- Members that are equal. -/
structure Equal (a b : W) : Prop where
  left : isMember a = true
  right : isMember b = true
  beq : (a == b) = true

variable [EquivBEq W] {a b c : W}

theorem Equal.refl (h : isMember a = true) : Equal a a :=
  ⟨h, h, BEq.rfl⟩

theorem Equal.symm (h : Equal a b) : Equal b a :=
  ⟨h.right, h.left, BEq.symm h.beq⟩

theorem Equal.trans (h : Equal a b) (h' : Equal b c) : Equal a c :=
  ⟨h.left, h'.right, BEq.trans h.beq h'.beq⟩

instance : Trans (@Equal W _) (@Equal W _) (@Equal W _) where
  trans := Equal.trans

end Equal

/-- The laws of a left semiring, for the members of a weight type and up to its equality. -/
structure LeftSemiring (W : Type) [Weight W] : Prop where
  isMember_zero : isMember (zero : W) = true
  isMember_one : isMember (one : W) = true
  isMember_plus {a b : W} (ha : isMember a = true) (hb : isMember b = true) :
    isMember (plus a b) = true
  isMember_times {a b : W} (ha : isMember a = true) (hb : isMember b = true) :
    isMember (times a b) = true
  plus_congr {a a' b b' : W} (ha : Equal a a') (hb : Equal b b') : (plus a b == plus a' b') = true
  times_congr {a a' b b' : W} (ha : Equal a a') (hb : Equal b b') :
    (times a b == times a' b') = true
  plus_assoc {a b c : W} (ha : isMember a = true) (hb : isMember b = true)
    (hc : isMember c = true) : (plus (plus a b) c == plus a (plus b c)) = true
  plus_comm {a b : W} (ha : isMember a = true) (hb : isMember b = true) :
    (plus a b == plus b a) = true
  zero_plus {a : W} (ha : isMember a = true) : (plus zero a == a) = true
  times_assoc {a b c : W} (ha : isMember a = true) (hb : isMember b = true)
    (hc : isMember c = true) : (times (times a b) c == times a (times b c)) = true
  one_times {a : W} (ha : isMember a = true) : (times one a == a) = true
  times_one {a : W} (ha : isMember a = true) : (times a one == a) = true
  zero_times {a : W} (ha : isMember a = true) : (times zero a == zero) = true
  times_zero {a : W} (ha : isMember a = true) : (times a zero == zero) = true
  times_plus {a b c : W} (ha : isMember a = true) (hb : isMember b = true)
    (hc : isMember c = true) : (times a (plus b c) == plus (times a b) (times a c)) = true
  zero_ne_one : (zero == (one : W)) = false

/-- The sum of some weights. -/
def sum {W : Type} [Weight W] (weights : List W) : W :=
  weights.foldr plus zero

namespace LeftSemiring
variable {W α : Type} [Weight W] (h : LeftSemiring W)
include h

/-! ## Equal members -/

theorem plus_equal {a a' b b' : W} (ha : Equal a a') (hb : Equal b b') :
    Equal (plus a b) (plus a' b') :=
  ⟨h.isMember_plus ha.left hb.left, h.isMember_plus ha.right hb.right, h.plus_congr ha hb⟩

theorem times_equal {a a' b b' : W} (ha : Equal a a') (hb : Equal b b') :
    Equal (times a b) (times a' b') :=
  ⟨h.isMember_times ha.left hb.left, h.isMember_times ha.right hb.right, h.times_congr ha hb⟩

theorem zero_plus_equal {a : W} (ha : isMember a = true) : Equal (plus zero a) a :=
  ⟨h.isMember_plus h.isMember_zero ha, ha, h.zero_plus ha⟩

theorem times_zero_equal {a : W} (ha : isMember a = true) : Equal (times a zero) zero :=
  ⟨h.isMember_times ha h.isMember_zero, h.isMember_zero, h.times_zero ha⟩

theorem times_one_equal {a : W} (ha : isMember a = true) : Equal (times a one) a :=
  ⟨h.isMember_times ha h.isMember_one, ha, h.times_one ha⟩

theorem plus_assoc_equal {a b c : W} (ha : isMember a = true) (hb : isMember b = true)
    (hc : isMember c = true) : Equal (plus (plus a b) c) (plus a (plus b c)) :=
  ⟨h.isMember_plus (h.isMember_plus ha hb) hc, h.isMember_plus ha (h.isMember_plus hb hc),
    h.plus_assoc ha hb hc⟩

theorem times_plus_equal {a b c : W} (ha : isMember a = true) (hb : isMember b = true)
    (hc : isMember c = true) : Equal (times a (plus b c)) (plus (times a b) (times a c)) :=
  ⟨h.isMember_times ha (h.isMember_plus hb hc),
    h.isMember_plus (h.isMember_times ha hb) (h.isMember_times ha hc), h.times_plus ha hb hc⟩

theorem plus_zero_equal [EquivBEq W] {a : W} (ha : isMember a = true) : Equal (plus a zero) a :=
  have hcomm : Equal (plus a zero) (plus zero a) :=
    ⟨h.isMember_plus ha h.isMember_zero, h.isMember_plus h.isMember_zero ha,
      h.plus_comm ha h.isMember_zero⟩
  hcomm.trans (h.zero_plus_equal ha)

/-! ## Sums -/

theorem isMember_sum {weights : List W} (hw : ∀ w ∈ weights, isMember w = true) :
    isMember (sum weights) = true := by
  induction weights with
  | nil => exact h.isMember_zero
  | cons w weights ih =>
    obtain ⟨hhead, htail⟩ := List.forall_mem_cons.mp hw
    exact h.isMember_plus hhead (ih htail)

variable [EquivBEq W]

/-- Sums of equal weights are equal. -/
theorem sum_map_congr {f g : α → W} {xs : List α} (hfg : ∀ x ∈ xs, Equal (f x) (g x)) :
    Equal (sum (xs.map f)) (sum (xs.map g)) := by
  induction xs with
  | nil => exact .refl h.isMember_zero
  | cons x xs ih =>
    obtain ⟨hhead, htail⟩ := List.forall_mem_cons.mp hfg
    exact h.plus_equal hhead (ih htail)

theorem sum_append {xs ys : List W} (hxs : ∀ w ∈ xs, isMember w = true)
    (hys : ∀ w ∈ ys, isMember w = true) : Equal (sum (xs ++ ys)) (plus (sum xs) (sum ys)) := by
  induction xs with
  | nil => exact (h.zero_plus_equal (h.isMember_sum hys)).symm
  | cons w xs ih =>
    obtain ⟨hw, hxs⟩ := List.forall_mem_cons.mp hxs
    calc Equal (sum (w :: xs ++ ys)) (plus w (plus (sum xs) (sum ys))) :=
          h.plus_equal (.refl hw) (ih hxs)
      Equal _ (plus (sum (w :: xs)) (sum ys)) :=
          (h.plus_assoc_equal hw (h.isMember_sum hxs) (h.isMember_sum hys)).symm

/-- A product distributes over a whole sum. -/
theorem times_sum {a : W} (ha : isMember a = true) {f : α → W} {xs : List α}
    (hf : ∀ x ∈ xs, isMember (f x) = true) :
    Equal (times a (sum (xs.map f))) (sum (xs.map fun x => times a (f x))) := by
  induction xs with
  | nil => exact h.times_zero_equal ha
  | cons x xs ih =>
    obtain ⟨hx, hxs⟩ := List.forall_mem_cons.mp hf
    have hmem : ∀ w ∈ xs.map f, isMember w = true := List.forall_mem_map.mpr hxs
    calc Equal (times a (sum ((x :: xs).map f)))
          (plus (times a (f x)) (times a (sum (xs.map f)))) :=
          h.times_plus_equal ha hx (h.isMember_sum hmem)
      Equal _ (sum ((x :: xs).map fun x => times a (f x))) :=
          h.plus_equal (.refl (h.isMember_times ha hx)) (ih hxs)

/-- A sum over several lists is the sum of their sums. -/
theorem sum_flatMap {f : α → List W} {xs : List α}
    (hf : ∀ x ∈ xs, ∀ w ∈ f x, isMember w = true) :
    Equal (sum (xs.flatMap f)) (sum (xs.map fun x => sum (f x))) := by
  induction xs with
  | nil => exact .refl h.isMember_zero
  | cons x xs ih =>
    obtain ⟨hx, hxs⟩ := List.forall_mem_cons.mp hf
    have hmem : ∀ w ∈ xs.flatMap f, isMember w = true := by
      intro w hw
      obtain ⟨y, hy, hw⟩ := List.mem_flatMap.mp hw
      exact hxs y hy w hw
    calc Equal (sum ((x :: xs).flatMap f)) (plus (sum (f x)) (sum (xs.flatMap f))) := by
          rw [List.flatMap_cons]
          exact h.sum_append hx hmem
      Equal _ (sum ((x :: xs).map fun x => sum (f x))) :=
          h.plus_equal (.refl (h.isMember_sum hx)) (ih hxs)

/-- What is zero may be left out of a sum. -/
theorem sum_filter {f : α → W} {p : α → Bool} {xs : List α}
    (hf : ∀ x ∈ xs, isMember (f x) = true)
    (hzero : ∀ x ∈ xs, p x = false → (f x == zero) = true) :
    Equal (sum ((xs.filter p).map f)) (sum (xs.map f)) := by
  induction xs with
  | nil => exact .refl h.isMember_zero
  | cons x xs ih =>
    obtain ⟨hx, hxs⟩ := List.forall_mem_cons.mp hf
    obtain ⟨hzerox, hzeros⟩ := List.forall_mem_cons.mp hzero
    have htail := ih hxs hzeros
    cases hp : p x with
    | true =>
      rw [List.filter_cons_of_pos hp]
      exact h.plus_equal (.refl hx) htail
    | false =>
      rw [List.filter_cons_of_neg (by rw [hp]; exact Bool.false_ne_true)]
      have hequal : Equal (f x) zero := ⟨hx, h.isMember_zero, hzerox hp⟩
      calc Equal (sum ((xs.filter p).map f)) (sum (xs.map f)) := htail
        Equal _ (plus zero (sum (xs.map f))) := (h.zero_plus_equal htail.right).symm
        Equal _ (sum ((x :: xs).map f)) := h.plus_equal hequal.symm (.refl htail.right)

end LeftSemiring
end Weight

/-! ## Truth values -/

namespace Boolean

instance {p : Boolean → Prop} [DecidablePred p] : Decidable (∀ a, p a) :=
  decidable_of_iff (p no ∧ p yes ∧ p neither)
    ⟨fun ⟨hno, hyes, hneither⟩ a => a.casesOn hno hyes hneither, fun h => ⟨h _, h _, h _⟩⟩

theorem eq_of_equal {a b : Boolean} (h : Weight.Equal a b) : a = b :=
  of_decide_eq_true h.beq

/-- Truth values form a left semiring. -/
theorem leftSemiring : Weight.LeftSemiring Boolean where
  isMember_zero := rfl
  isMember_one := rfl
  isMember_plus {a b} := by revert a b; decide
  isMember_times {a b} := by revert a b; decide
  plus_congr ha hb := by
    rw [eq_of_equal ha, eq_of_equal hb]
    exact BEq.rfl
  times_congr ha hb := by
    rw [eq_of_equal ha, eq_of_equal hb]
    exact BEq.rfl
  plus_assoc {a b c} := by revert a b c; decide
  plus_comm {a b} := by revert a b; decide
  zero_plus {a} := by revert a; decide
  times_assoc {a b c} := by revert a b c; decide
  one_times {a} := by revert a; decide
  times_one {a} := by revert a; decide
  zero_times {a} := by revert a; decide
  times_zero {a} := by revert a; decide
  times_plus {a b c} := by revert a b c; decide
  zero_ne_one := rfl

end Boolean
end WeightedTransducer
