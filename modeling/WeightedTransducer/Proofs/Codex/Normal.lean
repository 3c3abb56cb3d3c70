import WeightedTransducer.Proofs.Codex.Numbering
import WeightedTransducer.Proofs.Codex.Obtained

/-!
# Codices that find their own entries

A codex finds its own entries (`Codex.Finds`) if the fields of the entry under a label are looked up
as that label again.  A lookup replaces the fields that do not count, so this is so exactly if
nothing but such replaced fields stands in the entries (`Codex.Normal`, `Codex.finds_iff_normal`).
Encoding keeps a codex normal, and so does reading back what was written of a normal one
(`Codex.Agrees.finds`).  Reading in general does not: it takes each entry as it stands and compares
it with the others as it stands.  `Codex.found_of_read` says which labels are found again after
that, and `Codex.not_found_of_unnormalized` is a codex that is read although it has two entries of
one key.
-/

namespace WeightedTransducer
namespace Codex
variable {W : Type} [Weight W] {d : Delimiters} {codex other : Codex W} {label : Label}
  {entry fields : Entry W} {flags : Flags}

/-! ## Keys -/

/-- What was replaced in a key is not replaced again. -/
theorem keyOf_keyOf (flags : Flags) (fields : Entry W) :
    keyOf flags (keyOf flags fields) = keyOf flags fields := by
  rcases flags with ⟨_ | _, _ | _⟩ <;> rfl

/-- Where every field counts, the fields of an arc are their own key. -/
theorem keyOf_all (fields : Entry W) : keyOf ⟨true, true⟩ fields = fields :=
  rfl

/-- Equal fields have equal keys. -/
theorem keyOf_congr [EquivBEq W] (flags : Flags) (h : (entry == fields) = true) :
    (keyOf flags entry == keyOf flags fields) = true := by
  obtain ⟨hinput, houtput, hweight⟩ := Entry.beq_iff.mp h
  refine Entry.beq_iff.mpr ⟨hinput, ?_, ?_⟩
  · simp only [keyOf, key, houtput]
  · simp only [keyOf, key]
    split
    · exact hweight
    · exact BEq.rfl

/-! ## Normal codices -/

/-- Every entry is equal to the key of its own fields. -/
def Normal (codex : Codex W) : Prop :=
  ∀ entry ∈ codex.entries, (keyOf codex.flags entry == entry) = true

/-- The label of every entry is found again for the fields of that entry. -/
def Finds (codex : Codex W) : Prop :=
  ∀ label entry, codex.decode? label = some entry →
    codex.lookup? entry.input entry.output entry.weight = some label

theorem normal_of_flags_all [EquivBEq W] (h : codex.flags = ⟨true, true⟩) : codex.Normal := by
  intro entry _
  rw [h, keyOf_all]
  exact BEq.rfl

/-- Encoding adds keys only. -/
theorem Normal.encode [EquivBEq W] (h : codex.Normal) (input output : Label) (weight : W) :
    (codex.encode input output weight).2.Normal := by
  cases hfind : codex.find? (key codex.flags input output weight) with
  | some label =>
    rw [encode_of_find?_eq_some codex input output weight hfind]
    exact h
  | none =>
    rw [encode_of_find?_eq_none codex input output weight hfind]
    intro entry hentry
    rcases List.mem_append.mp hentry with hold | hnew
    · exact h entry hold
    · have hkey := keyOf_keyOf codex.flags ⟨input, output, weight⟩
      rw [List.mem_singleton.mp hnew]
      exact hkey.symm ▸ BEq.rfl

theorem normal_after [EquivBEq W] (flags : Flags) (arcs : List (Entry W)) (n : Nat) :
    (after flags arcs n).Normal :=
  encodeEach_preserves (fun _ _ _ _ h => h.encode _ _ _) (fun _ hentry => nomatch hentry) _

/-! ## Looking up the entry under a label -/

/-- **The label of an entry is found again exactly if the entry is a key**, while entries are told
apart. -/
theorem lookup?_of_decode? [EquivBEq W] (hdistinct : codex.Distinct) (hfits : codex.Fits)
    (h : codex.decode? label = some entry) :
    codex.lookup? entry.input entry.output entry.weight = some label ↔
      (keyOf codex.flags entry == entry) = true := by
  have hnames := names_of_decode? h
  show codex.find? (keyOf codex.flags entry) = some label ↔ _
  rw [find?_eq_some_iff hdistinct hfits]
  exact ⟨fun hkey => hkey.beq hnames, fun hkey => hnames.congr (BEq.symm hkey)⟩

/-- A codex whose entries are told apart finds them exactly if it is normal. -/
theorem finds_iff_normal [EquivBEq W] (hdistinct : codex.Distinct) (hfits : codex.Fits) :
    codex.Finds ↔ codex.Normal := by
  constructor
  · intro h entry hentry
    obtain ⟨position, hlt, rfl⟩ := List.mem_iff_getElem.mp hentry
    have hdecode : codex.decode? (labelAt position) = some codex.entries[position] := by
      rw [decode?_labelAt codex (Nat.lt_trans hlt hfits)]
      exact List.getElem?_eq_getElem hlt
    exact (lookup?_of_decode? hdistinct hfits hdecode).mp (h _ _ hdecode)
  · intro h label entry hdecode
    exact (lookup?_of_decode? hdistinct hfits hdecode).mpr (h entry (mem_of_decode? hdecode))

/-- **What encoding has numbered is found again**, as long as there are labels left. -/
theorem finds_after [EquivBEq W] {arcs : List (Entry W)}
    (hfew : (keys flags arcs).eraseDups.length < 2 ^ 32 - 1) (n : Nat) :
    (after flags arcs n).Finds :=
  (finds_iff_normal (distinct_after flags arcs n) (fits_after hfew n)).mpr
    (normal_after flags arcs n)

/-- A codex that cannot be told from one that finds its entries finds its own. -/
theorem Agrees.finds [EquivBEq W] (h : codex.Agrees other) (hother : other.Finds) :
    codex.Finds := by
  intro label entry hentry
  have hrel := h.decode?_beq label
  rw [hentry] at hrel
  obtain ⟨entry', hentry', hequal⟩ : ∃ y, other.decode? label = some y ∧ (entry == y) = true := by
    cases hdecode : other.decode? label with
    | none =>
      rw [hdecode] at hrel
      cases hrel
    | some y =>
      rw [hdecode] at hrel
      cases hrel with
      | some hequal => exact ⟨y, rfl, hequal⟩
  have hkey : (keyOf other.flags entry == keyOf other.flags entry') = true :=
    keyOf_congr other.flags hequal
  rw [h.lookup?_eq, ← hother label entry' hentry']
  exact other.table.find?_congr hkey

/-! ## Codices that were read -/

/-- **Which labels of a codex that was read are found again**: those whose entry is the key of its
own fields, and so every label where all fields count.  The entries of such a codex are told apart
as they stand, which does not tell their keys apart. -/
theorem found_of_read [EquivBEq W] {input : Bytes} (h : (read d input).value = .ok codex)
    (hfits : codex.Fits) :
    codex.Distinct ∧
      (∀ label entry, codex.decode? label = some entry →
        (codex.lookup? entry.input entry.output entry.weight = some label ↔
          (keyOf codex.flags entry == entry) = true)) ∧
      (codex.Finds ↔ codex.Normal) ∧ (codex.flags = ⟨true, true⟩ → codex.Finds) := by
  have hdistinct : codex.Distinct := (Obtained.read h).distinct
  refine ⟨hdistinct, fun label entry => lookup?_of_decode? hdistinct hfits,
    finds_iff_normal hdistinct hfits, fun hall => ?_⟩
  exact (finds_iff_normal hdistinct hfits).mpr (normal_of_flags_all hall)

/-- The text of a codex whose two entries differ in their weights only, with a blank line in
between. -/
def weightsText : String :=
  "wfst-codex tropical 3 2\n1 1,2,-0\n\n2 1,2,0.5\n"

/-- Both of its labels are found again. -/
theorem found_of_read_of_weights :
    ∃ codex : Codex Tropical,
      (read ⟨',', none⟩ (Utf8.encode weightsText.toList)).value = .ok codex ∧ codex.Fits ∧
        codex.flags = ⟨true, true⟩ ∧ codex.Finds := by
  have hcheck : ((read ⟨',', none⟩ (Utf8.encode weightsText.toList)).value.toOption.any
      fun codex : Codex Tropical =>
        decide (codex.entries.length < 2 ^ 32 - 1 ∧ codex.flags = ⟨true, true⟩)) = true := by
    decide +kernel
  obtain ⟨codex, hread, hcodex⟩ := exists_of_any_toOption hcheck
  obtain ⟨hfits, hflags⟩ := of_decide_eq_true hcodex
  exact ⟨codex, hread, hfits, hflags, (found_of_read hread hfits).2.2.2 hflags⟩

/-- The text of a codex for which output labels do not count, with an entry that has one
nevertheless. -/
def unnormalizedText : String :=
  "wfst-codex tropical 2 2\n1 1,0,0\n2 1,7,0\n"

/-- It is read, and the second label is not found again: the first one stands for the same key. -/
theorem not_found_of_unnormalized :
    ∃ (codex : Codex Tropical) (entry : Entry Tropical),
      (read ⟨',', none⟩ (Utf8.encode unnormalizedText.toList)).value = .ok codex ∧
        codex.decode? 2 = some entry ∧
        codex.lookup? entry.input entry.output entry.weight = some 1 := by
  have hcheck : ((read ⟨',', none⟩ (Utf8.encode unnormalizedText.toList)).value.toOption.any
      fun codex : Codex Tropical => (codex.decode? 2).any fun entry =>
        codex.lookup? entry.input entry.output entry.weight == some 1) = true := by
    decide +kernel
  obtain ⟨codex, hread, hcodex⟩ := exists_of_any_toOption hcheck
  obtain ⟨entry, hentry, hlabel⟩ := (Option.any_eq_true _ _).mp hcodex
  exact ⟨codex, entry, hread, hentry, beq_iff_eq.mp hlabel⟩

end Codex
end WeightedTransducer
