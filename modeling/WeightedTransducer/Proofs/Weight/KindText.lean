import WeightedTransducer.Proofs.Composite.RoundTrip
import WeightedTransducer.Proofs.Weight.Equality

/-!
# The texts of weights

The text of a cost is a leaf wherever delimiters keep out of such texts
(`Delimiters.AvoidsCosts`).  A pair is an element of another value if there are parentheses around
it; without them it can only be the last element, so pairs must be nested in the last place only
(`WeightKind.NestsLast`).  In both cases all weights of a kind built from costs read back as equal
ones (`WeightKind.isSolid_and_reads`), values that are no members included.  Only a value that is
not a number can read back as another, as its text leaves out which one it is.
-/

namespace WeightedTransducer
variable {d : Delimiters}

/-- Delimiters that occur in the text of no cost. -/
def Delimiters.AvoidsCosts (d : Delimiters) : Prop :=
  ∀ (value : Single), ∀ c ∈ Cost.write value, c ∉ d.characters

theorem Delimiters.avoidsCosts_of_characters (h : ∀ c ∈ Cost.characters, c ∉ d.characters) :
    d.AvoidsCosts :=
  fun _ c hc => h c (Cost.mem_characters_of_mem_write hc)

/-- All digits occur in texts of costs. -/
theorem Delimiters.AvoidsCosts.isDigit_eq_false (h : d.AvoidsCosts) :
    ∀ c ∈ d.characters, c.isDigit = false := by
  intro c hc
  rw [← Bool.not_eq_true]
  intro hdigit
  obtain ⟨value, hmem⟩ := Cost.exists_mem_write_of_isDigit hdigit
  exact h value c hmem hc

theorem Cost.isElement_write (h : d.AvoidsCosts) (value : Single) :
    d.IsElement (Cost.write value) := by
  refine Delimiters.isElement_of_plain (write_ne_nil value) ?_ (h value)
  intro c hc
  exact isBlank_eq_false_of_mem_characters c (mem_characters_of_mem_write hc)

theorem Tropical.read_text (d : Delimiters) (w : Tropical) :
    (Textual.read d (Textual.text d w)).value = .ok (Tropical.mk (Cost.readBack w.value)) := by
  show (Cost.read "tropical" (Cost.write w.value)).map Tropical.mk = _
  rw [Cost.read_write]
  rfl

theorem Log.read_text (d : Delimiters) (w : Log) :
    (Textual.read d (Textual.text d w)).value = .ok (Log.mk (Cost.readBack w.value)) := by
  show (Cost.read "log" (Cost.write w.value)).map Log.mk = _
  rw [Cost.read_write]
  rfl

/-- Costs are leaves. -/
theorem Tropical.isLeaf (h : d.AvoidsCosts) (w : Tropical) : IsLeaf d w where
  ne_nil := (Cost.isElement_write h w.value).ne_nil
  not_blank := (Cost.isElement_write h w.value).not_blank
  not_delimiter := h w.value
  reads_back := ⟨_, read_text d w, Cost.eqv_readBack w.value⟩

theorem Log.isLeaf [Elementary] (h : d.AvoidsCosts) (w : Log) : IsLeaf d w where
  ne_nil := (Cost.isElement_write h w.value).ne_nil
  not_blank := (Cost.isElement_write h w.value).not_blank
  not_delimiter := h w.value
  reads_back := ⟨_, read_text d w, Cost.eqv_readBack w.value⟩

namespace WeightKind

instance instLawfulTextual [Elementary] : (k : WeightKind) → LawfulTextual k.Carrier
  | tropical => inferInstanceAs (LawfulTextual Tropical)
  | log => inferInstanceAs (LawfulTextual Log)
  | boolean => inferInstanceAs (LawfulTextual Boolean)
  | finite table => inferInstanceAs (LawfulTextual (FiniteWeight table))
  | product first second =>
    letI := instLawfulTextual first
    letI := instLawfulTextual second
    inferInstanceAs (LawfulTextual (Product first.Carrier second.Carrier))

/-- The name of a kind built from costs is one word. -/
theorem isWord_typeName [Elementary] {k : WeightKind} (hk : k.OfCosts) :
    Text.IsWord (Weight.typeName k.Carrier).toList := by
  induction hk using OfCosts.induction with
  | tropical =>
    show Text.IsWord "tropical".toList
    decide
  | log =>
    show Text.IsWord "log".toList
    decide
  | product first second hfirst hsecond ihf ihs =>
    have hname : (Weight.typeName (product first second).Carrier).toList =
        (Weight.typeName first.Carrier).toList ++ "_X_".toList ++
          (Weight.typeName second.Carrier).toList := by
      show (Weight.typeName first.Carrier ++ "_X_" ++ Weight.typeName second.Carrier).toList = _
      rw [String.toList_append, String.toList_append]
    rw [hname]
    exact (ihf.append (by decide)).append ihs

/-- The kinds of pairs. -/
def IsProduct : WeightKind → Prop
  | product _ _ => True
  | _ => False

/-- The kinds whose pairs are nested in the last place only. -/
def NestsLast : WeightKind → Prop
  | product first second => ¬ first.IsProduct ∧ second.NestsLast
  | _ => True

theorem nestsLast_of_not_isProduct {k : WeightKind} (h : ¬ k.IsProduct) : k.NestsLast := by
  cases k with
  | product first second => exact absurd trivial h
  | _ => trivial

/-- A weight can be the last element of a value and reads back; where it is no pair or has
parentheses around it, it can be any element. -/
theorem isSolid_and_reads [Elementary] (hd : d.validate = .ok ()) (hcosts : d.AvoidsCosts)
    {k : WeightKind} (hk : k.OfCosts) (hnests : d.parentheses.isSome ∨ k.NestsLast)
    (w : k.Carrier) :
    d.IsSolid (Textual.text d w) ∧
      (∃ read, (Textual.read d (Textual.text d w)).value = .ok read ∧ (read == w) = true) ∧
      (d.parentheses.isSome ∨ ¬ k.IsProduct → d.IsElement (Textual.text d w)) := by
  have hdistinct := Delimiters.distinct_of_validate hd
  induction hk using OfCosts.induction with
  | tropical =>
    have helement : d.IsElement (Textual.text d w) := Cost.isElement_write hcosts w.value
    exact ⟨helement.toIsSolid, (Tropical.isLeaf hcosts w).reads_back, fun _ => helement⟩
  | log =>
    have helement : d.IsElement (Textual.text d w) := Cost.isElement_write hcosts w.value
    exact ⟨helement.toIsSolid, (Log.isLeaf hcosts w).reads_back, fun _ => helement⟩
  | product first second hk hk' ihf ihs =>
    have hfirst : d.parentheses.isSome ∨ first.NestsLast ∧ ¬ first.IsProduct := by
      rcases hnests with hp | ⟨hfirst, -⟩
      · exact Or.inl hp
      · exact Or.inr ⟨nestsLast_of_not_isProduct hfirst, hfirst⟩
    have hsecond : d.parentheses.isSome ∨ second.NestsLast := hnests.imp_right And.right
    obtain ⟨-, ⟨a, hreadFirst, ha⟩, helement⟩ := ihf (hfirst.imp_right And.left) w.first
    obtain ⟨hsolid, ⟨b, hreadSecond, hb⟩, -⟩ := ihs hsecond w.second
    have hfirstElement := helement (hfirst.imp_right And.right)
    have htexts : ∀ t ∈ [Textual.text d w.first, Textual.text d w.second], d.IsSolid t := by
      simp [hfirstElement.toIsSolid, hsolid]
    have htext : Textual.text d w =
      d.compose [Textual.text d w.first, Textual.text d w.second] := text_product d w
    rw [htext]
    refine ⟨Delimiters.isSolid_compose hdistinct (List.cons_ne_nil _ _) htexts,
      ⟨⟨a, b⟩, read_product_compose hd hfirstElement hsolid hreadFirst hreadSecond,
        Bool.and_eq_true_iff.mpr ⟨ha, hb⟩⟩, ?_⟩
    rintro (hp | hproduct)
    · exact Delimiters.isElement_compose hdistinct hp (List.cons_ne_nil _ _) htexts
    · exact absurd trivial hproduct

end WeightKind
end WeightedTransducer
