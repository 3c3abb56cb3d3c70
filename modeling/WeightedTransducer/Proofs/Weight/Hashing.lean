import WeightedTransducer.Proofs.Codex.Growth
import WeightedTransducer.Proofs.Number.Interchange
import WeightedTransducer.Proofs.Weight.KindCosts

/-!
# Equality and hashes

A map that hashes its keys finds a key again only if equal keys have one hash, and keeps keys apart
best if only equal ones feed it the same words.  Equality of costs is defined by places and their
words by patterns, but adding the positive zero leaves nothing of a number except its place, and all
that is not a number has one word; so the two agree (`Cost.hashWord_eq_iff`).  The words of a weight
are those of its costs in order (`WeightKind.hashWords_eq_map`), and an entry puts its labels before
them; so they agree on nested pairs and on the entries of a codex as well
(`WeightKind.beq_iff_hashWords_eq`).  The values of a cost are its patterns, one for one
(`WeightKind.ofPatterns_bijective`).
-/

namespace WeightedTransducer

/-- Adding zero to a number gives a number. -/
theorem Cost.add_zero_ne_quiet {a : Single} (h : ¬ a.isNan = true) :
    a.add (.zero false) ≠ .quiet false := by
  intro heq
  have hplace := Binary.place_add_zero a
  rw [heq] at hplace
  exact h (by rw [Binary.isNan_eq, ← hplace]; rfl)

/-- **Costs are equal exactly if they have the same word.** -/
theorem Cost.hashWord_eq_iff {a b : Single} : hashWord a = hashWord b ↔ eqv a b = true := by
  refine ⟨fun h => ?_, hashWord_congr⟩
  rw [eqv_iff]
  unfold hashWord at h
  split at h <;> split at h
  · -- neither is a number
    rename_i ha hb
    rw [Binary.isNan_eq, Option.isNone_iff_eq_none] at ha hb
    rw [ha, hb]
  · rename_i hb
    exact absurd (Single.toBits_injective h) (Ne.symm (add_zero_ne_quiet hb))
  · rename_i ha _
    exact absurd (Single.toBits_injective h) (add_zero_ne_quiet ha)
  · exact Binary.add_zero_eq_iff.mp (Single.toBits_injective h)

namespace WeightKind
variable {k : WeightKind}

/-! ## Words -/

/-- **The words of a weight are those of its costs.** -/
theorem hashWords_eq_map [Elementary] (hk : k.OfCosts) (w : k.Carrier) :
    Weight.hashWords w = k.costs.map fun cost => Cost.hashWord (cost w) := by
  induction hk using OfCosts.induction with
  | tropical => rfl
  | log => rfl
  | product first second hfirst hsecond ihf ihs =>
    calc Weight.hashWords w
        = Weight.hashWords w.first ++ Weight.hashWords w.second := rfl
      _ = first.costs.map (fun cost => Cost.hashWord (cost w.first)) ++
            second.costs.map (fun cost => Cost.hashWord (cost w.second)) := by rw [ihf, ihs]
      _ = (Product.costs first.costs second.costs).map fun cost => Cost.hashWord (cost w) := by
        rw [Product.costs, List.map_append, List.map_map, List.map_map]
        rfl

theorem hashWords_eq_iff [Elementary] (hk : k.OfCosts) {v w : k.Carrier} :
    Weight.hashWords v = Weight.hashWords w ↔ (v == w) = true := by
  rw [hashWords_eq_map hk v, hashWords_eq_map hk w, List.map_inj_left, (isMadeOf hk).beq_iff]
  exact forall₂_congr fun _ _ => Cost.hashWord_eq_iff

/-- The hash of a weight is that of its words. -/
theorem hashValue_eq [Elementary] (hk : k.OfCosts) (w : k.Carrier) :
    Weight.hashValue w = SipHash.hash (Weight.hashWords w) := by
  cases hk using OfCosts.induction with
  | tropical => rfl
  | log => rfl
  | product first second hfirst hsecond => rfl

/-! ## Patterns -/

/-- A pattern for each cost of a weight; what is made of no costs is kept as it is. -/
def Patterns : WeightKind → Type
  | tropical => UInt32
  | log => UInt32
  | boolean => Boolean
  | finite table => FiniteWeight table
  | product first second => first.Patterns × second.Patterns

/-- The weight whose costs have some patterns. -/
def ofPatterns : (k : WeightKind) → k.Patterns → k.Carrier
  | tropical, bits => (⟨Single.ofBits bits⟩ : Tropical)
  | log, bits => (⟨Single.ofBits bits⟩ : Log)
  | boolean, w => w
  | finite _, w => w
  | product first second, (p, q) => Product.mk (first.ofPatterns p) (second.ofPatterns q)

/-- Patterns that are alike, one by one. -/
def Alike : (k : WeightKind) → k.Patterns → k.Patterns → Prop
  | tropical, bits, bits' => Single.Alike bits bits'
  | log, bits, bits' => Single.Alike bits bits'
  | boolean, v, w => v = w
  | finite _, v, w => v = w
  | product first second, (p, q), (p', q') => first.Alike p p' ∧ second.Alike q q'

/-- **Every weight has patterns, and different patterns are those of different weights.** -/
theorem ofPatterns_bijective (hk : k.OfCosts) : Function.Bijective k.ofPatterns := by
  induction hk using OfCosts.induction with
  | tropical =>
    refine ⟨fun bits bits' h => Single.ofBits_injective (Tropical.mk.inj h), ?_⟩
    rintro ⟨value⟩
    exact ⟨Single.toBits value, congrArg Tropical.mk (Single.ofBits_toBits value)⟩
  | log =>
    refine ⟨fun bits bits' h => Single.ofBits_injective (Log.mk.inj h), ?_⟩
    rintro ⟨value⟩
    exact ⟨Single.toBits value, congrArg Log.mk (Single.ofBits_toBits value)⟩
  | product first second hfirst hsecond ihf ihs =>
    constructor
    · rintro ⟨p, q⟩ ⟨p', q'⟩ h
      obtain ⟨hp, hq⟩ := Product.mk.inj h
      exact Prod.ext (ihf.injective hp) (ihs.injective hq)
    · rintro ⟨v, w⟩
      obtain ⟨p, hp⟩ := ihf.surjective v
      obtain ⟨q, hq⟩ := ihs.surjective w
      exact ⟨(p, q), congrArg₂ Product.mk hp hq⟩

/-- Weights are equal exactly if their patterns are alike. -/
theorem ofPatterns_beq_iff [Elementary] (hk : k.OfCosts) : ∀ p q : k.Patterns,
    (k.ofPatterns p == k.ofPatterns q) = true ↔ k.Alike p q := by
  induction hk using OfCosts.induction with
  | tropical =>
    intro bits bits'
    exact Tropical.beq_iff.trans Single.place_ofBits_eq_iff
  | log =>
    intro bits bits'
    exact Log.beq_iff.trans Single.place_ofBits_eq_iff
  | product first second hfirst hsecond ihf ihs =>
    rintro ⟨p, q⟩ ⟨p', q'⟩
    exact Product.beq_iff.trans (and_congr (ihf p p') (ihs q q'))

end WeightKind

/-! ## Entries -/

/-- Entries have the same words if they have the same labels and their weights the same words. -/
theorem Entry.hashWords_eq_iff {W : Type} [Weight W] {e f : Entry W} :
    e.hashWords = f.hashWords ↔ e.input = f.input ∧ e.output = f.output ∧
      Weight.hashWords e.weight = Weight.hashWords f.weight := by
  rw [hashWords, hashWords, List.cons.injEq, List.cons.injEq]

/-- **Weights and entries are equal exactly if they feed the same words to a hash.**  For every type
built from costs by pairs, `==` is an equivalence of its weights and of the entries that hold them;
two of them are equal exactly if they have the same words.  So equal weights have the same hash, and
in a table that is looked up by words equal entries have one label, and what was bound is found
through every equal entry.  The weights are those of all patterns, and equal if the patterns are
alike. -/
theorem WeightKind.beq_iff_hashWords_eq [Elementary] {k : WeightKind} (hk : k.OfCosts) :
    EquivBEq k.Carrier ∧ EquivBEq (Entry k.Carrier) ∧
    (∀ v w : k.Carrier, (v == w) = true ↔ Weight.hashWords v = Weight.hashWords w) ∧
    (∀ e f : Entry k.Carrier, (e == f) = true ↔ e.hashWords = f.hashWords) ∧
    (∀ v w : k.Carrier, (v == w) = true → Weight.hashValue v = Weight.hashValue w) ∧
    (∀ (map : LabelMap k.Carrier) (e f : Entry k.Carrier), (e == f) = true →
      map.find? e = map.find? f ∧
        ∀ label, (map.insert e label).find? f = (map.find? f).or (some label)) ∧
    (∀ p q : k.Patterns, (k.ofPatterns p == k.ofPatterns q) = true ↔ k.Alike p q) ∧
    Function.Bijective k.ofPatterns := by
  refine ⟨inferInstance, inferInstance, fun v w => (hashWords_eq_iff hk).symm, fun e f => ?_,
    fun v w h => ?_, fun map e f h => ⟨map.find?_congr h, fun label => ?_⟩, ofPatterns_beq_iff hk,
    ofPatterns_bijective hk⟩
  · rw [Entry.hashWords_eq_iff, Entry.beq_iff, hashWords_eq_iff hk]
  · rw [hashValue_eq hk, hashValue_eq hk, (hashWords_eq_iff hk).mpr h]
  · rw [map.find?_insert, BEq.symm h, if_pos rfl]

/-- Weights of different patterns that are equal: the zeros, values that are not a number, and the
least cost above zero. -/
theorem WeightKind.beq_iff_hashWords_eq_of_patterns :
    let k := product tropical (product log tropical)
    let p : UInt32 × UInt32 × UInt32 := (0x80000000, 0x7f800001, 1)
    let q : UInt32 × UInt32 × UInt32 := (0, 0xffc12345, 1)
    let v : k.Carrier := k.ofPatterns p
    let w : k.Carrier := k.ofPatterns q
    k.OfCosts ∧ (v == w) = true ∧ Weight.hashWords v = [0, 0x7fc00000, 1] ∧
      Weight.hashWords v = Weight.hashWords w ∧
      (Entry.mk 1 2 v).hashWords = (Entry.mk 1 2 w).hashWords := by
  intro k p q v w
  have hk : k.OfCosts := ⟨trivial, trivial, trivial⟩
  obtain ⟨-, -, hwords, hentries, -⟩ := beq_iff_hashWords_eq hk
  have heq : (v == w) = true := by decide +kernel
  have hentry : (Entry.mk 1 2 v == Entry.mk 1 2 w) = true := Entry.beq_iff.mpr ⟨rfl, rfl, heq⟩
  exact ⟨hk, heq, by decide +kernel, (hwords v w).mp heq, (hentries _ _).mp hentry⟩

end WeightedTransducer
