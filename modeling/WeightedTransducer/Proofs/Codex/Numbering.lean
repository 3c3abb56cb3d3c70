import WeightedTransducer.Proofs.Codex.Growth
import WeightedTransducer.Proofs.Weight.Equality

/-!
# The numbering of entries

The table of a codex leads from entries to labels and its list from labels to entries.  While the
entries are told apart, the two are inverse to each other: the label that the table has for an entry
is the one under which the list has it (`Codex.find?_eq_some_iff`).  Encoding keeps it so from the
empty codex on, and what was handed out once is handed out again and again.  `Codex.Numbers` says
it for the fields of any arcs encoded one after another, and `Codex.numbers_of_few` proves it as
long as there are labels left.
-/

namespace WeightedTransducer
namespace Codex

section Labels
variable {W : Type} {codex : Codex W} {label : Label} {entry : Entry W}

/-! ## Labels and positions -/

/-- The labels without an entry are the empty one and those that were not reached yet. -/
theorem decode?_eq_none_iff :
    codex.decode? label = none ↔ label = 0 ∨ codex.entries.length < label.toNat := by
  unfold decode?
  rw [← UInt32.toNat_inj]
  cases label.toNat with
  | zero => simp
  | succ position =>
    rw [List.getElem?_eq_none_iff, UInt32.toNat_zero]
    omega

/-- The entry under a label stands at the position before it. -/
theorem exists_position_of_decode? (h : codex.decode? label = some entry) :
    ∃ position, label.toNat = position + 1 ∧ codex.entries[position]? = some entry := by
  unfold decode? at h
  split at h
  · cases h
  · exact ⟨_, ‹_›, h⟩

theorem ne_epsilon_of_decode? (h : codex.decode? label = some entry) : label ≠ epsilon := by
  rintro rfl
  cases h

theorem mem_of_decode? (h : codex.decode? label = some entry) : entry ∈ codex.entries := by
  obtain ⟨position, -, hposition⟩ := exists_position_of_decode? h
  exact List.mem_of_getElem? hposition

end Labels

variable {W : Type} [Weight W] {codex : Codex W} {label other : Label} {entry : Entry W}

/-! ## A numbering in both directions -/

/-- **The label found for an entry is the one that stands for it.** -/
theorem find?_eq_some_iff [EquivBEq W] (hdistinct : codex.Distinct) (hfits : codex.Fits) :
    codex.find? entry = some label ↔ codex.Names label entry := by
  refine ⟨names_of_find? hfits, ?_⟩
  rintro ⟨-, found, hfound, heq⟩
  obtain ⟨position, hlabel, hposition⟩ := exists_position_of_decode? hfound
  obtain ⟨hlt, rfl⟩ := List.getElem?_eq_some_iff.mp hposition
  rw [find?_eq]
  refine Option.map_eq_some_iff.mpr ⟨position, ?_, ?_⟩
  · refine List.findIdx?_eq_some_iff_getElem.mpr ⟨hlt, heq, fun j hj hearlier => ?_⟩
    have htold := List.pairwise_iff_getElem.mp hdistinct j position (Nat.lt_trans hj hlt) hlt hj
    rw [BEq.trans (BEq.symm heq) hearlier] at htold
    cases htold
  · rw [← UInt32.toNat_inj, toNat_labelAt (Nat.lt_trans hlt hfits), hlabel]

/-- Labels that stand for the same entry are the same. -/
theorem Names.eq [EquivBEq W] (hdistinct : codex.Distinct) (hfits : codex.Fits)
    (h : codex.Names label entry) (h' : codex.Names other entry) : label = other := by
  have hfind := (find?_eq_some_iff hdistinct hfits).mpr h
  rw [(find?_eq_some_iff hdistinct hfits).mpr h'] at hfind
  exact (Option.some.inj hfind).symm

theorem Names.congr [EquivBEq W] {entry' : Entry W} (heq : (entry == entry') = true)
    (h : codex.Names label entry) : codex.Names label entry' := by
  obtain ⟨hne, found, hfound, hentry⟩ := h
  exact ⟨hne, found, hfound, BEq.trans (BEq.symm heq) hentry⟩

/-- Entries that a label stands for are equal. -/
theorem Names.beq [EquivBEq W] {entry' : Entry W} (h : codex.Names label entry)
    (h' : codex.Names label entry') : (entry == entry') = true := by
  obtain ⟨-, found, hfound, hentry⟩ := h
  obtain ⟨-, found', hfound', hentry'⟩ := h'
  rw [hfound, Option.some.injEq] at hfound'
  subst hfound'
  exact BEq.trans hentry (BEq.symm hentry')

theorem names_of_decode? [EquivBEq W] (h : codex.decode? label = some entry) :
    codex.Names label entry :=
  ⟨ne_epsilon_of_decode? h, entry, h, BEq.rfl⟩

theorem encode_of_find?_eq_none (codex : Codex W) (input output : Label) (weight : W)
    (h : codex.find? (key codex.flags input output weight) = none) :
    codex.encode input output weight =
      (labelAt codex.entries.length, codex.push (key codex.flags input output weight)) := by
  unfold encode
  dsimp only
  rw [h]

theorem encode_of_find?_eq_some (codex : Codex W) (input output : Label) (weight : W)
    (h : codex.find? (key codex.flags input output weight) = some label) :
    codex.encode input output weight = (label, codex) := by
  unfold encode
  dsimp only
  rw [h]

/-! ## The fields of arcs, one after another -/

/-- The entry that the fields of an arc are encoded under. -/
def keyOf (flags : Flags) (fields : Entry W) : Entry W :=
  key flags fields.input fields.output fields.weight

/-- Encodes the fields of arcs one after another. -/
def encodeEach (codex : Codex W) : List (Entry W) → List Label × Codex W
  | [] => ([], codex)
  | fields :: rest =>
    let (label, codex) := codex.encode fields.input fields.output fields.weight
    let (labels, codex) := codex.encodeEach rest
    (label :: labels, codex)

theorem encodeEach_append (codex : Codex W) (xs ys : List (Entry W)) :
    codex.encodeEach (xs ++ ys) =
      ((codex.encodeEach xs).1 ++ ((codex.encodeEach xs).2.encodeEach ys).1,
        ((codex.encodeEach xs).2.encodeEach ys).2) := by
  induction xs generalizing codex with
  | nil => rfl
  | cons x xs ih => simp only [List.cons_append, encodeEach, ih]

/-- What encoding one arc preserves, encoding several does. -/
theorem encodeEach_preserves {P : Codex W → Prop}
    (hstep : ∀ codex input output weight, P codex → P (encode codex input output weight).2)
    {codex : Codex W} (h : P codex) (arcs : List (Entry W)) : P (codex.encodeEach arcs).2 := by
  induction arcs generalizing codex with
  | nil => exact h
  | cons fields arcs ih => exact ih (hstep codex fields.input fields.output fields.weight h)

theorem extends_encodeEach (codex : Codex W) (arcs : List (Entry W)) :
    codex.Extends (codex.encodeEach arcs).2 :=
  encodeEach_preserves (fun _ => extends_of_extends_encode) (Extends.refl codex) arcs

theorem length_encodeEach (codex : Codex W) (arcs : List (Entry W)) :
    (codex.encodeEach arcs).1.length = arcs.length := by
  induction arcs generalizing codex with
  | nil => rfl
  | cons fields arcs ih => simp only [encodeEach, List.length_cons, ih]

/-- The entries that are added are the keys without those equal to an earlier one or to an entry
that was there. -/
theorem entries_encodeEach (codex : Codex W) (arcs : List (Entry W)) :
    (codex.encodeEach arcs).2.entries =
      List.eraseDupsBy.loop (· == ·) (arcs.map (keyOf codex.flags)) codex.entries.reverse := by
  induction arcs generalizing codex with
  | nil => exact (List.reverse_reverse _).symm
  | cons fields arcs ih =>
    have hflags := (extends_encode codex fields.input fields.output fields.weight).flags_eq
    have hany : codex.entries.reverse.any (keyOf codex.flags fields == ·) =
        (codex.find? (keyOf codex.flags fields)).isSome := by
      rw [List.any_reverse, find?_eq, Option.isSome_map, List.findIdx?_isSome]
    rw [List.map_cons, List.eraseDupsBy.loop, hany]
    show (encodeEach (codex.encode fields.input fields.output fields.weight).2 arcs).2.entries = _
    rw [ih, hflags]
    unfold encode keyOf
    dsimp only
    cases hfind : codex.find? (key codex.flags fields.input fields.output fields.weight) with
    | some label => rfl
    | none => simp [push]

/-- The label of an arc is the one that encoding gives after the arcs before it. -/
theorem getElem?_encodeEach (codex : Codex W) (arcs : List (Entry W)) (i : Nat) :
    (codex.encodeEach arcs).1[i]? = arcs[i]?.map fun fields =>
      ((codex.encodeEach (arcs.take i)).2.encode fields.input fields.output fields.weight).1 := by
  induction arcs generalizing codex i with
  | nil => rfl
  | cons fields arcs ih =>
    cases i with
    | zero => rfl
    | succ i => exact ih _ i

/-! ## The run from an empty codex -/

section Run
variable (flags : Flags) (arcs : List (Entry W))

/-- The entries that some arcs are encoded under. -/
def keys : List (Entry W) :=
  arcs.map (keyOf flags)

/-- The labels that some arcs get, starting from an empty codex. -/
def labels : List Label :=
  (encodeEach (empty flags : Codex W) arcs).1

/-- The codex after the first `n` arcs, starting from an empty one. -/
def after (n : Nat) : Codex W :=
  (encodeEach (empty flags) (arcs.take n)).2

theorem after_add (i k : Nat) :
    after flags arcs (i + k) = ((after flags arcs i).encodeEach ((arcs.drop i).take k)).2 := by
  unfold after
  rw [List.take_add, encodeEach_append]

theorem flags_after (n : Nat) : (after flags arcs n).flags = flags :=
  (extends_encodeEach _ _).flags_eq

theorem entries_after (n : Nat) :
    (after flags arcs n).entries = ((keys flags arcs).take n).eraseDups := by
  rw [keys, ← List.map_take]
  exact entries_encodeEach _ _

theorem distinct_after (n : Nat) : (after flags arcs n).Distinct :=
  encodeEach_preserves (fun _ _ _ _ h => h.encode _ _ _) .nil _

variable {flags arcs}

theorem extends_after {i n : Nat} (h : i ≤ n) :
    (after flags arcs i).Extends (after flags arcs n) := by
  obtain ⟨k, rfl⟩ := Nat.exists_eq_add_of_le h
  rw [after_add]
  exact extends_encodeEach _ _

/-- One more arc is encoded with the codex so far. -/
theorem after_succ {i : Nat} {fields : Entry W} (h : arcs[i]? = some fields) :
    after flags arcs (i + 1) =
      ((after flags arcs i).encode fields.input fields.output fields.weight).2 := by
  have hone : (arcs.drop i).take 1 = [fields] := by
    rw [List.take_one, List.head?_drop, h]
    rfl
  rw [after_add, hone]
  rfl

theorem mem_of_mem_eraseDupsBy_loop {α : Type} {r : α → α → Bool} {xs ys : List α} {a : α}
    (h : a ∈ List.eraseDupsBy.loop r xs ys) : a ∈ xs ∨ a ∈ ys := by
  induction xs generalizing ys with
  | nil => exact Or.inr (List.mem_reverse.mp h)
  | cons x xs ih =>
    unfold List.eraseDupsBy.loop at h
    split at h
    · exact (ih h).imp_left (List.mem_cons_of_mem x)
    · rcases ih h with hxs | hys
      · exact Or.inl (List.mem_cons_of_mem x hxs)
      · rcases List.mem_cons.mp hys with rfl | hys
        · exact Or.inl List.mem_cons_self
        · exact Or.inr hys

/-- Every entry is the key of an arc so far. -/
theorem mem_keys_of_mem_after {n : Nat} {entry : Entry W}
    (h : entry ∈ (after flags arcs n).entries) : entry ∈ (keys flags arcs).take n := by
  rw [entries_after] at h
  exact (mem_of_mem_eraseDupsBy_loop h).resolve_right List.not_mem_nil

/-- While there are labels left, they are left at any earlier time. -/
theorem fits_after (hfew : (keys flags arcs).eraseDups.length < 2 ^ 32 - 1) (n : Nat) :
    (after flags arcs n).Fits := by
  have hall : (after flags arcs (n + arcs.length)).Fits := by
    unfold Fits
    rw [entries_after, List.take_of_length_le]
    · exact hfew
    · rw [keys, List.length_map]
      exact Nat.le_add_left _ _
  exact (extends_after (Nat.le_add_right n arcs.length)).fits hall

/-- The key and the label of an arc, told by the codex at that time. -/
theorem exists_fields {i : Nat} {key : Entry W} {label : Label}
    (hkey : (keys flags arcs)[i]? = some key) (hlabel : (labels flags arcs)[i]? = some label) :
    ∃ fields, arcs[i]? = some fields ∧ keyOf flags fields = key ∧
      ((after flags arcs i).encode fields.input fields.output fields.weight).1 = label := by
  rw [keys, List.getElem?_map, Option.map_eq_some_iff] at hkey
  obtain ⟨fields, hfields, rfl⟩ := hkey
  rw [labels, getElem?_encodeEach, hfields, Option.map_some, Option.some.injEq] at hlabel
  exact ⟨fields, hfields, rfl, hlabel⟩

/-- From then on, the label of an arc stands for its key. -/
theorem names_after [EquivBEq W] (hfew : (keys flags arcs).eraseDups.length < 2 ^ 32 - 1)
    {i n : Nat} (hi : i < n) {key : Entry W} {label : Label}
    (hkey : (keys flags arcs)[i]? = some key) (hlabel : (labels flags arcs)[i]? = some label) :
    (after flags arcs n).Names label key := by
  obtain ⟨fields, hfields, rfl, rfl⟩ := exists_fields hkey hlabel
  have hnext : after flags arcs (i + 1) = _ := after_succ hfields
  have hnames := names_encode (after flags arcs i) fields.input fields.output fields.weight
    (hnext ▸ fits_after hfew (i + 1))
  rw [← hnext, flags_after] at hnames
  exact (extends_after hi).keeps.names hnames

/-- Every arc gets a label. -/
theorem exists_label {i : Nat} {key : Entry W} (hkey : (keys flags arcs)[i]? = some key) :
    ∃ label, (labels flags arcs)[i]? = some label := by
  have hlt := (List.getElem?_eq_some_iff.mp hkey).1
  rw [keys, List.length_map, ← length_encodeEach (empty flags)] at hlt
  exact ⟨_, List.getElem?_eq_getElem hlt⟩

theorem exists_index_of_mem_take {α : Type} {xs : List α} {n : Nat} {a : α} (h : a ∈ xs.take n) :
    ∃ i, i < n ∧ xs[i]? = some a := by
  obtain ⟨i, hi⟩ := List.mem_iff_getElem?.mp h
  rw [List.getElem?_take] at hi
  split at hi
  · exact ⟨i, ‹_›, hi⟩
  · cases hi

/-- The first arc with a key gets the number of keys before it and one, and the key its entry. -/
theorem label_of_new (hfew : (keys flags arcs).eraseDups.length < 2 ^ 32 - 1) {i : Nat}
    {key : Entry W} {label : Label} (hkey : (keys flags arcs)[i]? = some key)
    (hlabel : (labels flags arcs)[i]? = some label)
    (hnew : ∀ earlier ∈ (keys flags arcs).take i, (key == earlier) = false) :
    label.toNat = ((keys flags arcs).take i).eraseDups.length + 1 ∧
      (after flags arcs (i + 1)).decode? label = some key := by
  obtain ⟨fields, hfields, rfl, rfl⟩ := exists_fields hkey hlabel
  have hfind : (after flags arcs i).find? (keyOf flags fields) = none :=
    find?_eq_none_iff.mpr fun entry hentry => hnew entry (mem_keys_of_mem_after hentry)
  have hencode := encode_of_find?_eq_none (after flags arcs i) fields.input fields.output
    fields.weight (by rw [flags_after]; exact hfind)
  have hsmall := fits_after hfew i
  rw [after_succ hfields, hencode, flags_after]
  refine ⟨?_, ?_⟩
  · rw [toNat_labelAt hsmall, entries_after]
  · rw [decode?_labelAt _ hsmall]
    exact List.getElem?_concat_length

section Few
variable [EquivBEq W] (hfew : (keys flags arcs).eraseDups.length < 2 ^ 32 - 1)
include hfew

theorem find?_after_eq_some_iff {n : Nat} {entry : Entry W} {label : Label} :
    (after flags arcs n).find? entry = some label ↔ (after flags arcs n).Names label entry :=
  find?_eq_some_iff (distinct_after flags arcs n) (fits_after hfew n)

/-- A key that was seen before leaves the codex as it is. -/
theorem after_succ_of_seen {i : Nat} {key earlier : Entry W}
    (hkey : (keys flags arcs)[i]? = some key) (hearlier : earlier ∈ (keys flags arcs).take i)
    (heq : (key == earlier) = true) : after flags arcs (i + 1) = after flags arcs i := by
  obtain ⟨j, hj, hkey'⟩ := exists_index_of_mem_take hearlier
  obtain ⟨label', hlabel'⟩ := exists_label hkey'
  have hnames := (names_after hfew hj hkey' hlabel').congr (BEq.symm heq)
  obtain ⟨label, hlabel⟩ := exists_label hkey
  obtain ⟨fields, hfields, rfl, -⟩ := exists_fields hkey hlabel
  have hencode := encode_of_find?_eq_some (after flags arcs i) fields.input fields.output
    fields.weight (by rw [flags_after]; exact (find?_after_eq_some_iff hfew).mpr hnames)
  rw [after_succ hfields, hencode]

/-- Arcs get the same label exactly if their keys are equal. -/
theorem label_eq_iff_beq {i j : Nat} {key key' : Entry W} {label label' : Label}
    (hkey : (keys flags arcs)[i]? = some key) (hlabel : (labels flags arcs)[i]? = some label)
    (hkey' : (keys flags arcs)[j]? = some key') (hlabel' : (labels flags arcs)[j]? = some label') :
    label = label' ↔ (key == key') = true := by
  -- both labels are compared in the codex after both arcs
  have hnames := names_after hfew (n := max i j + 1) (by omega) hkey hlabel
  have hnames' := names_after hfew (n := max i j + 1) (by omega) hkey' hlabel'
  constructor
  · rintro rfl
    exact hnames.beq hnames'
  · intro heq
    exact (hnames.congr heq).eq (distinct_after flags arcs _) (fits_after hfew _) hnames'

/-- A label is found exactly for the keys seen so far. -/
theorem lookup?_after_eq_some_iff {n : Nat} {input output label : Label} {weight : W} :
    (after flags arcs n).lookup? input output weight = some label ↔
      ∃ i key, i < n ∧ (keys flags arcs)[i]? = some key ∧ (labels flags arcs)[i]? = some label ∧
        (Codex.key flags input output weight == key) = true := by
  rw [lookup?, flags_after, find?_after_eq_some_iff hfew]
  constructor
  · rintro ⟨-, found, hfound, heq⟩
    obtain ⟨i, hi, hkey⟩ := exists_index_of_mem_take (mem_keys_of_mem_after (mem_of_decode? hfound))
    obtain ⟨label', hlabel'⟩ := exists_label hkey
    have hlabel := (names_after hfew hi hkey hlabel').eq (distinct_after flags arcs n)
      (fits_after hfew n) (names_of_decode? hfound)
    exact ⟨i, found, hi, hkey, hlabel ▸ hlabel', heq⟩
  · rintro ⟨i, key, hi, hkey, hlabel, heq⟩
    exact (names_after hfew hi hkey hlabel).congr (BEq.symm heq)

end Few

/-- What encoding some arcs one after another promises about the labels that they get. -/
structure Numbers (flags : Flags) (arcs : List (Entry W)) : Prop where
  /-- Every arc gets a label. -/
  length_labels : (labels flags arcs).length = arcs.length
  /-- There is one entry for each key so far, in the order in which they were first seen. -/
  entries_after (n : Nat) : (after flags arcs n).entries = ((keys flags arcs).take n).eraseDups
  /-- A key that is new gets the number after those of the keys before it, and stays the entry under
  that label. -/
  of_new {i : Nat} {key : Entry W} {label : Label} (hkey : (keys flags arcs)[i]? = some key)
    (hlabel : (labels flags arcs)[i]? = some label)
    (hnew : ∀ earlier ∈ (keys flags arcs).take i, (key == earlier) = false) :
    label.toNat = ((keys flags arcs).take i).eraseDups.length + 1 ∧
      ∀ n, i < n → (after flags arcs n).decode? label = some key
  /-- A key that was seen before leaves the codex as it is. -/
  of_seen {i : Nat} {key : Entry W} (hkey : (keys flags arcs)[i]? = some key)
    (hseen : ∃ earlier ∈ (keys flags arcs).take i, (key == earlier) = true) :
    after flags arcs (i + 1) = after flags arcs i
  /-- Two arcs get the same label exactly if their keys are equal. -/
  label_eq_iff {i j : Nat} {key key' : Entry W} {label label' : Label}
    (hkey : (keys flags arcs)[i]? = some key) (hlabel : (labels flags arcs)[i]? = some label)
    (hkey' : (keys flags arcs)[j]? = some key') (hlabel' : (labels flags arcs)[j]? = some label') :
    label = label' ↔ (key == key') = true
  /-- At any later time the entry under a label is equal to the key of an arc that got it. -/
  decode?_beq {i n : Nat} (hi : i < n) {key : Entry W} {label : Label}
    (hkey : (keys flags arcs)[i]? = some key) (hlabel : (labels flags arcs)[i]? = some label) :
    ∃ found, (after flags arcs n).decode? label = some found ∧ (key == found) = true
  /-- At any time the table has a label for an entry exactly if the list has an equal entry under
  that label. -/
  find?_table_eq_some_iff {n : Nat} {entry : Entry W} {label : Label} :
    (after flags arcs n).table.find? entry = some label ↔
      ∃ found, (after flags arcs n).decode? label = some found ∧ (entry == found) = true
  /-- At any time a label is found exactly for the keys seen so far. -/
  lookup?_eq_some_iff {n : Nat} {input output label : Label} {weight : W} :
    (after flags arcs n).lookup? input output weight = some label ↔
      ∃ i key, i < n ∧ (keys flags arcs)[i]? = some key ∧ (labels flags arcs)[i]? = some label ∧
        (Codex.key flags input output weight == key) = true
  /-- At any time no entry is under the empty label and those that were not reached yet, and one is
  under every other. -/
  decode?_eq_none_iff {n : Nat} {label : Label} :
    (after flags arcs n).decode? label = none ↔
      label = 0 ∨ (after flags arcs n).entries.length < label.toNat

/-- **The keys of arcs are numbered from one in the order in which they are first seen**, and keep
their numbers, as long as there are labels left for them. -/
theorem numbers_of_few [EquivBEq W] (flags : Flags) (arcs : List (Entry W))
    (hfew : (keys flags arcs).eraseDups.length < 2 ^ 32 - 1) : Numbers flags arcs where
  length_labels := length_encodeEach _ _
  entries_after := entries_after flags arcs
  of_new := by
    intro i key label hkey hlabel hnew
    obtain ⟨hnumber, hentry⟩ := label_of_new hfew hkey hlabel hnew
    exact ⟨hnumber, fun n hn => (extends_after hn).decode?_eq_some hentry⟩
  of_seen := by
    rintro i key hkey ⟨earlier, hearlier, heq⟩
    exact after_succ_of_seen hfew hkey hearlier heq
  label_eq_iff := label_eq_iff_beq hfew
  decode?_beq := by
    intro i n hi key label hkey hlabel
    exact (names_after hfew hi hkey hlabel).2
  find?_table_eq_some_iff := by
    intro n entry label
    refine (find?_after_eq_some_iff hfew).trans ⟨And.right, ?_⟩
    rintro ⟨found, hfound, heq⟩
    exact ⟨ne_epsilon_of_decode? hfound, found, hfound, heq⟩
  lookup?_eq_some_iff := lookup?_after_eq_some_iff hfew
  decode?_eq_none_iff := decode?_eq_none_iff

/-- Two arcs that are told apart by a field that does not count, one whose weight is the other zero,
and a new one.  The table has the label of the first for the other zero before any arc with it
came. -/
theorem numbers_of_few_of_zeros :
    let arcs : List (Entry Tropical) :=
      [⟨1, 2, ⟨.zero false⟩⟩, ⟨1, 3, ⟨.zero true⟩⟩, ⟨1, 2, ⟨.quiet true⟩⟩, ⟨1, 2, ⟨.zero true⟩⟩]
    (keys ⟨false, true⟩ arcs).eraseDups.length < 2 ^ 32 - 1 ∧ Numbers ⟨false, true⟩ arcs ∧
      labels ⟨false, true⟩ arcs = [1, 1, 2, 1] ∧
      (after ⟨false, true⟩ arcs 1).table.find? ⟨1, 0, ⟨.zero true⟩⟩ = some 1 := by
  intro arcs
  have hfew : (keys ⟨false, true⟩ arcs).eraseDups.length < 2 ^ 32 - 1 := by decide +kernel
  have hnumbers := numbers_of_few ⟨false, true⟩ arcs hfew
  exact ⟨hfew, hnumbers, by decide +kernel,
    hnumbers.find?_table_eq_some_iff.mpr ⟨⟨1, 0, ⟨.zero false⟩⟩, rfl, by decide +kernel⟩⟩

end Run

end Codex
end WeightedTransducer
