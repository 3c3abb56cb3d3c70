import Mathlib.Data.List.Induction
import WeightedTransducer.Codex.Basic

/-!
# The table of labels and the list of entries

A codex keeps its entries twice, in a list and in a hash table.  The table compares an entry only
with those that have its words, so it finds what it holds because equal entries have the same words
(`Entry.hashWords_congr`).  Then binding an entry adds just its own label (`LabelMap.find?_insert`),
and by induction over the entries a codex finds the position of the first equal entry of its list
(`Codex.find?_eq`).  All that is said elsewhere about the labels that are found goes back to this.
-/

namespace WeightedTransducer

namespace Entry
variable {W : Type}

theorem beq_iff [BEq W] {a b : Entry W} :
    (a == b) = true ↔ a.input = b.input ∧ a.output = b.output ∧ (a.weight == b.weight) = true := by
  show (a.input == b.input && a.output == b.output && a.weight == b.weight) = true ↔ _
  simp only [Bool.and_eq_true, beq_iff_eq, and_assoc]

instance [BEq W] [EquivBEq W] : EquivBEq (Entry W) where
  rfl := beq_iff.mpr ⟨rfl, rfl, BEq.rfl⟩
  symm h := by
    obtain ⟨hi, ho, hw⟩ := beq_iff.mp h
    exact beq_iff.mpr ⟨hi.symm, ho.symm, BEq.symm hw⟩
  trans h h' := by
    obtain ⟨hi, ho, hw⟩ := beq_iff.mp h
    obtain ⟨hi', ho', hw'⟩ := beq_iff.mp h'
    exact beq_iff.mpr ⟨hi.trans hi', ho.trans ho', BEq.trans hw hw'⟩

/-- Equal entries have the same words. -/
theorem hashWords_congr [Weight W] {a b : Entry W} (h : (a == b) = true) :
    a.hashWords = b.hashWords := by
  obtain ⟨hinput, houtput, hweight⟩ := beq_iff.mp h
  rw [hashWords, hashWords, hinput, houtput, Weight.hashWords_congr hweight]

end Entry

namespace LabelMap
variable {W : Type} [Weight W]

/-- Looking at the words first does not hide an equal entry. -/
theorem hashWords_beq_and (a b : Entry W) : (b.hashWords == a.hashWords && a == b) = (a == b) := by
  cases h : a == b with
  | false => exact Bool.and_false _
  | true => rw [Entry.hashWords_congr h, beq_self_eq_true, Bool.and_true]

/-- The label that is found is that of the first equal entry. -/
theorem find?_eq (map : LabelMap W) (entry : Entry W) :
    map.find? entry = (map.bindings.find? fun binding => entry == binding.1).map Prod.snd := by
  unfold find?
  simp only [hashWords_beq_and]

/-- Equal entries have the same label, as they have the same words. -/
theorem find?_congr [EquivBEq W] (map : LabelMap W) {a b : Entry W} (h : (a == b) = true) :
    map.find? a = map.find? b := by
  unfold find?
  simp only [Entry.hashWords_congr h, BEq.congr_left h]

/-- **Binding an entry adds a label for it** where there was none, and for nothing else. -/
theorem find?_insert (map : LabelMap W) (bound entry : Entry W) (label : Label) :
    (map.insert bound label).find? entry =
      (map.find? entry).or (if entry == bound then some label else none) := by
  rw [find?_eq, find?_eq, insert, List.find?_append, Option.map_or, List.find?_singleton]
  cases entry == bound <;> rfl

/-- **The table of a list finds the position of the first equal entry.** -/
theorem find?_ofEntries (entries : List (Entry W)) (entry : Entry W) :
    (ofEntries entries).find? entry = (entries.findIdx? (entry == ·)).map Codex.labelAt := by
  -- on the list from its end, where entries are added
  induction entries using List.reverseRecOn with
  | nil => rfl
  | append_singleton entries bound ih =>
    rw [ofEntries_concat, find?_insert, ih, List.findIdx?_append, Option.map_or]
    cases hbound : entry == bound <;> simp [List.findIdx?_cons, hbound]

end LabelMap

/-- **A codex finds the label of the first entry of its list that is equal.** -/
theorem Codex.find?_eq {W : Type} [Weight W] (codex : Codex W) (entry : Entry W) :
    codex.find? entry = (codex.entries.findIdx? (entry == ·)).map labelAt := by
  rw [find?, codex.table_eq, LabelMap.find?_ofEntries]

end WeightedTransducer
