import Mathlib.Data.List.Forall2
import WeightedTransducer.Codex.Encoding
import WeightedTransducer.Proofs.Codex.LabelMap

/-!
# Codices that grow

Encoding only adds entries at the end of a codex (`Codex.Extends`), so a label that stands for an
entry keeps standing for it (`Codex.Names`).  An arc is restored by every codex in which the labels
of the one it was encoded with keep their meaning (`Codex.Keeps`, `Codex.restores_encodeArc`), and
so are arcs and states; what the codex has grown into is such a codex.
Weights are restored up to the weight type's own equality, because a codex tells entries apart only
up to it.
-/

namespace WeightedTransducer

/-! ## Lists whose elements are related one by one -/

theorem beq_of_forall₂ {α : Type} [BEq α] {xs ys : List α}
    (h : List.Forall₂ (fun a b => (a == b) = true) xs ys) : (xs == ys) = true := by
  induction h with
  | nil => rfl
  | cons hab _ ih =>
    rw [List.cons_beq_cons, hab, ih]
    rfl

theorem exists_of_mem_of_forall₂ {β γ : Type} {R : β → γ → Prop} {xs : List β} {ys : List γ}
    (h : List.Forall₂ R xs ys) {x : β} (hx : x ∈ xs) : ∃ y ∈ ys, R x y := by
  induction h with
  | nil => cases hx
  | @cons x' y xs ys hxy _ ih =>
    rcases List.mem_cons.mp hx with rfl | hx
    · exact ⟨y, List.mem_cons_self, hxy⟩
    · obtain ⟨z, hz, hxz⟩ := ih hx
      exact ⟨z, List.mem_cons_of_mem _ hz, hxz⟩

theorem forall₂_imp_of_mem {β γ : Type} {R S : β → γ → Prop} {xs : List β} {ys : List γ}
    (h : List.Forall₂ R xs ys) (himp : ∀ x, ∀ y ∈ ys, R x y → S x y) : List.Forall₂ S xs ys := by
  induction h with
  | nil => exact .nil
  | @cons x y xs ys hxy _ ih =>
    exact .cons (himp x y List.mem_cons_self hxy)
      (ih fun x' y' hy' => himp x' y' (List.mem_cons_of_mem _ hy'))

/-- Where every single step succeeds with a result that is as it should be, all of them do. -/
theorem exists_mapM_eq_ok {ε α β γ : Type} {f : α → Except ε β} {P : β → γ → Prop} {xs : List α}
    {zs : List γ} (h : List.Forall₂ (fun x z => ∃ y, f x = .ok y ∧ P y z) xs zs) :
    ∃ ys, xs.mapM f = .ok ys ∧ List.Forall₂ P ys zs := by
  induction h with
  | nil => exact ⟨[], rfl, .nil⟩
  | cons hx _ ih =>
    obtain ⟨y, hy, hyz⟩ := hx
    obtain ⟨ys, hys, hall⟩ := ih
    refine ⟨y :: ys, ?_, .cons hyz hall⟩
    rw [List.mapM_cons, hy, hys]
    rfl

/-- All steps succeed exactly if every one does. -/
theorem mapM_eq_ok_iff {ε α β : Type} {f : α → Except ε β} {xs : List α} {ys : List β} :
    xs.mapM f = .ok ys ↔ List.Forall₂ (fun x y => f x = .ok y) xs ys := by
  induction xs generalizing ys with
  | nil =>
    rw [List.forall₂_nil_left_iff, List.mapM_nil]
    exact ⟨fun h => (Except.ok.inj h).symm, fun h => h ▸ rfl⟩
  | cons x xs ih =>
    rw [List.mapM_cons, List.forall₂_cons_left_iff]
    cases hx : f x with
    | error e =>
      constructor
      · intro h
        cases h
      · rintro ⟨y, ys, hy, -, -⟩
        cases hy
    | ok y =>
      constructor
      · intro h
        cases hxs : xs.mapM f with
        | error e =>
          rw [hxs] at h
          cases h
        | ok rest =>
          rw [hxs] at h
          cases h
          exact ⟨y, rest, rfl, ih.mp hxs, rfl⟩
      · rintro ⟨y', rest, hy, hrest, rfl⟩
        cases hy
        rw [ih.mpr hrest]
        rfl

/-! ## Equality of arcs -/

theorem Arc.beq_iff {W : Type} [BEq W] {a b : Arc W} :
    (a == b) = true ↔ a.input = b.input ∧ a.output = b.output ∧ (a.weight == b.weight) = true ∧
      a.target = b.target := by
  show (a.input == b.input && a.output == b.output && a.weight == b.weight &&
    a.target == b.target) = true ↔ _
  simp only [Bool.and_eq_true, beq_iff_eq, and_assoc]

namespace Codex

section Labels
variable {W : Type} {codex mid grown : Codex W}

/-- A codex that has grown from another: the flags are the same, and entries were added at the
end. -/
structure Extends (codex grown : Codex W) : Prop where
  flags_eq : grown.flags = codex.flags
  entries_prefix : codex.entries <+: grown.entries

theorem Extends.refl (codex : Codex W) : codex.Extends codex :=
  ⟨rfl, List.prefix_refl _⟩

theorem Extends.trans (h : codex.Extends mid) (h' : mid.Extends grown) : codex.Extends grown :=
  ⟨h'.flags_eq.trans h.flags_eq, h.entries_prefix.trans h'.entries_prefix⟩

theorem extends_push (codex : Codex W) (entry : Entry W) : codex.Extends (codex.push entry) :=
  ⟨rfl, List.prefix_append _ _⟩

/-- A codex small enough that every entry has a label of its own, and none has the empty label. -/
def Fits (codex : Codex W) : Prop :=
  codex.entries.length < 2 ^ 32 - 1

theorem Extends.fits (h : codex.Extends grown) (hfits : grown.Fits) : codex.Fits :=
  Nat.lt_of_le_of_lt h.entries_prefix.length_le hfits

theorem toNat_labelAt {position : Nat} (h : position < 2 ^ 32 - 1) :
    (labelAt position).toNat = position + 1 := by
  unfold labelAt
  rw [UInt32.toNat_add, UInt32.toNat_ofNat_of_lt' (by simp only [UInt32.size]; omega)]
  show (position + 1) % 2 ^ 32 = _
  omega

theorem decode?_labelAt (codex : Codex W) {position : Nat} (h : position < 2 ^ 32 - 1) :
    codex.decode? (labelAt position) = codex.entries[position]? := by
  unfold decode?
  rw [toNat_labelAt h]

theorem labelAt_ne_epsilon {position : Nat} (h : position < 2 ^ 32 - 1) :
    labelAt position ≠ epsilon := by
  intro heq
  have := toNat_labelAt h
  rw [heq] at this
  cases this

/-- An entry stays under its label as the codex grows. -/
theorem Extends.decode?_eq_some (h : codex.Extends grown) {label : Label} {entry : Entry W}
    (hentry : codex.decode? label = some entry) : grown.decode? label = some entry := by
  unfold decode? at hentry ⊢
  split at hentry
  · cases hentry
  · obtain ⟨more, hmore⟩ := h.entries_prefix
    rw [← hmore, List.getElem?_append_left (List.getElem?_eq_some_iff.mp hentry).1]
    exact hentry

end Labels

variable {W : Type} [Weight W] {codex mid grown : Codex W}

/-! ## Encoding adds entries at the end -/

theorem extends_encode (codex : Codex W) (input output : Label) (weight : W) :
    codex.Extends (codex.encode input output weight).2 := by
  unfold encode
  dsimp only
  split
  · exact Extends.refl codex
  · exact extends_push codex _

/-- What encoding one arc preserves, encoding several does. -/
theorem encodeArcs_preserves {P : Codex W → Prop}
    (hstep : ∀ codex input output weight, P codex → P (encode codex input output weight).2)
    {codex : Codex W} (h : P codex) (arcs : List (Arc W)) : P (codex.encodeArcs arcs).2 := by
  induction arcs generalizing codex with
  | nil => exact h
  | cons arc arcs ih => exact ih (hstep codex arc.input arc.output arc.weight h)

theorem encodeState_preserves {P : Codex W → Prop}
    (hstep : ∀ codex input output weight, P codex → P (encode codex input output weight).2)
    {codex : Codex W} (h : P codex) (superfinal : Nat) (s : State W) :
    P (codex.encodeState superfinal s).2 := by
  have harcs := encodeArcs_preserves hstep h s.arcs
  unfold encodeState
  dsimp only
  split
  · exact hstep _ _ _ _ harcs
  · exact harcs

theorem encodeStates_preserves {P : Codex W → Prop}
    (hstep : ∀ codex input output weight, P codex → P (encode codex input output weight).2)
    {codex : Codex W} (h : P codex) (superfinal : Nat) (states : List (State W)) :
    P (codex.encodeStates superfinal states).2 := by
  induction states generalizing codex with
  | nil => exact h
  | cons s states ih => exact ih (encodeState_preserves hstep h superfinal s)

theorem extends_of_extends_encode (input output : Label) (weight : W) (h : codex.Extends mid) :
    codex.Extends (mid.encode input output weight).2 :=
  h.trans (extends_encode mid input output weight)

theorem extends_encodeArc (codex : Codex W) (arc : Arc W) :
    codex.Extends (codex.encodeArc arc).2 :=
  extends_encode codex arc.input arc.output arc.weight

theorem extends_encodeArcs (codex : Codex W) (arcs : List (Arc W)) :
    codex.Extends (codex.encodeArcs arcs).2 :=
  encodeArcs_preserves (fun _ => extends_of_extends_encode) (Extends.refl codex) arcs

theorem extends_encodeState (codex : Codex W) (superfinal : Nat) (s : State W) :
    codex.Extends (codex.encodeState superfinal s).2 :=
  encodeState_preserves (fun _ => extends_of_extends_encode) (Extends.refl codex) superfinal s

theorem extends_encodeStates (codex : Codex W) (superfinal : Nat) (states : List (State W)) :
    codex.Extends (codex.encodeStates superfinal states).2 :=
  encodeStates_preserves (fun _ => extends_of_extends_encode) (Extends.refl codex) superfinal states

theorem extends_machine_encode (m : Machine W) (codex : Codex W) :
    codex.Extends (m.encode codex).value.2 :=
  extends_encodeStates codex m.size m.states

/-! ## Entries are told apart -/

/-- No entry is equal to an earlier one. -/
def Distinct (codex : Codex W) : Prop :=
  codex.entries.Pairwise fun a b => (b == a) = false

theorem find?_eq_none_iff {entry : Entry W} :
    codex.find? entry = none ↔ ∀ a ∈ codex.entries, (entry == a) = false := by
  rw [find?_eq, Option.map_eq_none_iff, List.findIdx?_eq_none_iff]

theorem Distinct.push {entry : Entry W} (h : codex.Distinct) (hnew : codex.find? entry = none) :
    (codex.push entry).Distinct := by
  refine List.pairwise_append.mpr ⟨h, List.pairwise_singleton _ _, ?_⟩
  intro a ha b hb
  rw [List.mem_singleton.mp hb]
  exact find?_eq_none_iff.mp hnew a ha

theorem Distinct.encode (h : codex.Distinct) (input output : Label) (weight : W) :
    (codex.encode input output weight).2.Distinct := by
  unfold Codex.encode
  dsimp only
  split
  · exact h
  · exact h.push ‹_›

theorem Distinct.machine_encode (h : codex.Distinct) (m : Machine W) :
    (m.encode codex).value.2.Distinct :=
  encodeStates_preserves (P := Distinct) (fun _ _ _ _ hcodex => hcodex.encode _ _ _) h m.size
    m.states

/-! ## Labels keep their meaning -/

/-- A label that stands for an entry. -/
def Names (codex : Codex W) (label : Label) (entry : Entry W) : Prop :=
  label ≠ epsilon ∧ ∃ found, codex.decode? label = some found ∧ (entry == found) = true

/-- A codex with the same flags in which the labels of another keep their meaning. -/
structure Keeps (codex grown : Codex W) : Prop where
  flags_eq : grown.flags = codex.flags
  names {label : Label} {entry : Entry W} (h : codex.Names label entry) : grown.Names label entry

/-- A label keeps its meaning as the codex grows. -/
theorem Extends.keeps (h : codex.Extends grown) : codex.Keeps grown where
  flags_eq := h.flags_eq
  names := fun ⟨hne, found, hfound, heq⟩ => ⟨hne, found, h.decode?_eq_some hfound, heq⟩

theorem Keeps.trans (h : codex.Keeps mid) (h' : mid.Keeps grown) : codex.Keeps grown where
  flags_eq := h'.flags_eq.trans h.flags_eq
  names := fun hnames => h'.names (h.names hnames)

/-- The label found for an entry stands for it. -/
theorem names_of_find? {label : Label} {entry : Entry W} (hfits : codex.Fits)
    (h : codex.find? entry = some label) : codex.Names label entry := by
  rw [find?_eq] at h
  obtain ⟨position, hposition, rfl⟩ := Option.map_eq_some_iff.mp h
  obtain ⟨hlt, hfound, -⟩ := List.findIdx?_eq_some_iff_getElem.mp hposition
  have hsmall : position < 2 ^ 32 - 1 := Nat.lt_trans hlt hfits
  refine ⟨labelAt_ne_epsilon hsmall, codex.entries[position], ?_, hfound⟩
  rw [decode?_labelAt codex hsmall]
  exact List.getElem?_eq_getElem hlt

/-- The label that encoding gives stands for the entry. -/
theorem names_encode [EquivBEq W] (codex : Codex W) (input output : Label) (weight : W)
    (hfits : (codex.encode input output weight).2.Fits) :
    (codex.encode input output weight).2.Names (codex.encode input output weight).1
      (key codex.flags input output weight) := by
  generalize hentry : key codex.flags input output weight = entry
  unfold encode at hfits ⊢
  rw [hentry] at hfits ⊢
  dsimp only at hfits ⊢
  split at hfits
  · exact names_of_find? hfits ‹_›
  · -- the entry was added at the end
    have hsmall : codex.entries.length < 2 ^ 32 - 1 := by
      have hlength : (codex.push entry).entries.length = codex.entries.length + 1 := by simp [push]
      have hlt : (codex.push entry).entries.length < 2 ^ 32 - 1 := hfits
      omega
    refine ⟨labelAt_ne_epsilon hsmall, entry, ?_, BEq.rfl⟩
    rw [decode?_labelAt _ hsmall]
    exact List.getElem?_concat_length

/-! ## Arcs are restored -/

/-- An encoded arc that a codex decodes to the arc it was, up to equality of weights. -/
def Restores (codex : Codex W) (encoded arc : Arc W) : Prop :=
  ∃ decoded, codex.decodeArc encoded = .ok decoded ∧ (decoded == arc) = true

theorem encodeArc_fst (codex : Codex W) (arc : Arc W) :
    (codex.encodeArc arc).1 =
      { input := (codex.encode arc.input arc.output arc.weight).1
        output := if codex.flags.labels then (codex.encode arc.input arc.output arc.weight).1
          else arc.output
        weight := if codex.flags.weights then Weight.one else arc.weight
        target := arc.target } := by
  have hflags := (extends_encode codex arc.input arc.output arc.weight).flags_eq
  simp only [encodeArc, hflags]

/-- What an encoded arc decodes to hangs on its label only: on the entry that the label stands for,
and where it stands for none, decoding fails. -/
theorem decodeArc_encodeArc [ReflBEq W] (codex : Codex W) (arc : Arc W)
    (hflags : grown.flags = codex.flags)
    (hne : (codex.encode arc.input arc.output arc.weight).1 ≠ epsilon) :
    grown.decodeArc (codex.encodeArc arc).1 =
      match grown.decode? (codex.encode arc.input arc.output arc.weight).1 with
      | none => .error (.unknownLabel (codex.encode arc.input arc.output arc.weight).1)
      | some entry => .ok
        { input := entry.input
          output := if codex.flags.labels then entry.output else arc.output
          weight := if codex.flags.weights then entry.weight else arc.weight
          target := arc.target } := by
  rw [encodeArc_fst]
  generalize (codex.encode arc.input arc.output arc.weight).1 = label at hne ⊢
  unfold decodeArc
  rw [if_neg hne, hflags]
  cases grown.decode? label <;> cases codex.flags.labels <;> cases codex.flags.weights <;> simp

/-- An arc is restored by every codex in which the labels of the one after encoding it keep their
meaning. -/
theorem restores_encodeArc [EquivBEq W] (codex : Codex W) (arc : Arc W)
    (hkeeps : (codex.encodeArc arc).2.Keeps grown) (hfits : (codex.encodeArc arc).2.Fits) :
    grown.Restores (codex.encodeArc arc).1 arc := by
  have hflags : grown.flags = codex.flags :=
    ((extends_encodeArc codex arc).keeps.trans hkeeps).flags_eq
  obtain ⟨hne, found, hfound, heq⟩ :=
    hkeeps.names (names_encode codex arc.input arc.output arc.weight hfits)
  obtain ⟨hinput, houtput, hweight⟩ := Entry.beq_iff.mp heq
  have hdecode := decodeArc_encodeArc codex arc hflags hne
  rw [hfound] at hdecode
  refine ⟨_, hdecode, Arc.beq_iff.mpr ⟨hinput.symm, ?_, ?_, rfl⟩⟩
  · dsimp only
    cases hlabels : codex.flags.labels
    · rfl
    · rw [key, hlabels] at houtput
      exact houtput.symm
  · dsimp only
    cases hweights : codex.flags.weights
    · exact BEq.rfl
    · rw [key, hweights] at hweight
      exact BEq.symm hweight

/-- Encoded arcs are restored one by one. -/
theorem restores_encodeArcs [EquivBEq W] (codex : Codex W) (arcs : List (Arc W))
    (hkeeps : (codex.encodeArcs arcs).2.Keeps grown) (hfits : (codex.encodeArcs arcs).2.Fits) :
    List.Forall₂ grown.Restores (codex.encodeArcs arcs).1 arcs := by
  induction arcs generalizing codex with
  | nil => exact .nil
  | cons arc arcs ih =>
    have hrest := extends_encodeArcs (codex.encodeArc arc).2 arcs
    exact .cons (restores_encodeArc codex arc (hrest.keeps.trans hkeeps) (hrest.fits hfits))
      (ih _ hkeeps hfits)

end Codex
end WeightedTransducer
