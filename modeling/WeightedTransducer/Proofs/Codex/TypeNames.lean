import WeightedTransducer.Proofs.Codex.ReadBack
import WeightedTransducer.Proofs.Weight.KindText

/-!
# Codices of other weight types

The first line of a codex names the weight type, and a codex is refused as one of another type
exactly if the names differ (`Codex.read_bytes_eq_typeMismatch_iff_typeName_ne`).  The name of a
pair joins the names of its components and does not say where a component ends.  It therefore tells
the costs that a type is built from, in order (`WeightKind.typeName_eq_iff`), but not how they are
nested, and the codex of one nesting is read as one of another (`Codex.read_of_regrouped`).
-/

namespace WeightedTransducer
namespace WeightKind

/-! ## What the name of a type tells -/

/-- The name of a kind joins the names of its leaves. -/
theorem typeName_eq_intercalate [Elementary] (k : WeightKind) :
    Weight.typeName k.Carrier =
      "_X_".intercalate (k.leaves.map fun leaf => Weight.typeName leaf.Carrier) := by
  induction k with
  | product first second ihf ihs =>
    unfold leaves
    rw [List.map_append, String.intercalate_append_of_ne_nil, ← ihf, ← ihs]
    · rfl
    · exact List.map_eq_nil_iff.not.mpr first.leaves_ne_nil
    · exact List.map_eq_nil_iff.not.mpr second.leaves_ne_nil
  | _ => rfl

/-- The kind of costs that a word stands for. -/
def ofWord? (word : List Char) : Option WeightKind :=
  if word = "tropical".toList then some tropical
  else if word = "log".toList then some log
  else none

/-- The kinds of costs that a name lists. -/
def named (name : List Char) : List WeightKind :=
  (name.splitOn '_').filterMap ofWord?

/-- A name that is joined from two lists what both of them list. -/
theorem named_append (first second : List Char) :
    named (first ++ "_X_".toList ++ second) = named first ++ named second := by
  have hjoin : first ++ "_X_".toList ++ second = first ++ '_' :: (['X'] ++ '_' :: second) := by
    simp
  unfold named List.splitOn
  rw [hjoin, List.splitOnP_append_cons _ _ (by decide), List.splitOnP_append_cons _ _ (by decide),
    List.filterMap_append, List.filterMap_append]
  rfl

/-- The name of a kind built from costs lists its leaves. -/
theorem named_typeName [Elementary] {k : WeightKind} (hk : k.OfCosts) :
    named (Weight.typeName k.Carrier).toList = k.leaves := by
  induction hk using OfCosts.induction with
  | tropical =>
    show named "tropical".toList = [tropical]
    decide
  | log =>
    show named "log".toList = [log]
    decide
  | product first second hfirst hsecond ihf ihs =>
    have hname : Weight.typeName (product first second).Carrier =
        Weight.typeName first.Carrier ++ "_X_" ++ Weight.typeName second.Carrier := rfl
    rw [hname, String.toList_append, String.toList_append, named_append, ihf, ihs]
    rfl

/-- **Two types built from costs have the same name exactly if they are built from the same costs in
the same order**, however these are nested. -/
theorem typeName_eq_iff [Elementary] {k l : WeightKind} (hk : k.OfCosts) (hl : l.OfCosts) :
    Weight.typeName k.Carrier = Weight.typeName l.Carrier ↔ k.leaves = l.leaves := by
  constructor
  · intro h
    rw [← named_typeName hk, ← named_typeName hl, h]
  · intro h
    rw [typeName_eq_intercalate k, typeName_eq_intercalate l, h]

end WeightKind

namespace Codex
variable {V W : Type} [Weight V] [Weight W] {d : Delimiters} {expected found : String}

/-! ## Only the first line can be of another type -/

/-- The header of a codex is refused for its type exactly if it names another one. -/
theorem readHeader_eq_typeMismatch_iff (htype : Text.IsWord (Weight.typeName V).toList)
    (codex : Codex V) :
    readHeader W codex.headerLine = .error (.typeMismatch expected found) ↔
      Weight.typeName V ≠ Weight.typeName W ∧ expected = Weight.typeName W ∧
        found = Weight.typeName V := by
  unfold readHeader
  rw [words_headerLine htype codex]
  simp only [List.map_cons, List.map_nil, String.ofList_toList, ne_eq, not_true_eq_false, if_false]
  by_cases hname : Weight.typeName V = Weight.typeName W
  · rw [if_neg (not_not.mpr hname)]
    constructor
    · intro h
      split at h
      · cases h
      · split at h <;> cases h
    · exact fun h => absurd hname h.1
  · rw [if_pos hname]
    simp [hname, eq_comm]

theorem readEntry_ne_typeMismatch (number : Nat) (line : List Char) (codex : Codex W) :
    (readEntry d number line codex).value ≠ .error (.typeMismatch expected found) := by
  intro h
  unfold readEntry at h
  dsimp only at h
  split at h
  · cases h
  · split at h
    · cases h
    · split at h
      · cases h
      · rw [Traced.value_bind] at h
        split at h
        · cases h
        · split at h <;> cases h

theorem readEntries_ne_typeMismatch (number : Nat) (input : List Bytes) (codex : Codex W) :
    (readEntries d number input codex).value ≠ .error (.typeMismatch expected found) := by
  induction input generalizing number codex with
  | nil => nofun
  | cons line rest ih =>
    intro h
    unfold readEntries at h
    split at h
    · cases h
    · rename_i text _
      rw [Traced.value_bind] at h
      have hline : (readEntry d number text codex).value ≠ .error (.typeMismatch expected found) :=
        readEntry_ne_typeMismatch number text codex
      split at h
      · rename_i e he
        rw [he] at hline
        exact hline h
      · exact ih _ _ h

/-- What stands in the first line does not depend on what follows. -/
theorem exists_lines_eq_cons {header : List Char} (h : '\n' ∉ header) (rest : Bytes) :
    ∃ more, lines (Utf8.encode header ++ 10 :: rest) = Utf8.encode header :: more := by
  have hpieces := pieces_append_separator (· == 10) (Utf8.ten_not_mem_encode h)
    (beq_self_eq_true (10 : UInt8)) rest
  have hne : pieces (· == (10 : UInt8)) rest ≠ [] := by
    intro hnil
    have := length_pieces (· == (10 : UInt8)) rest
    rw [hnil] at this
    cases this
  unfold lines
  dsimp only
  rw [hpieces, List.dropLast_cons_of_ne_nil hne]
  split
  · exact ⟨_, rfl⟩
  · exact ⟨_, rfl⟩

/-- **A codex is refused as one of another type exactly if that type has another name.** -/
theorem read_bytes_eq_typeMismatch_iff_typeName_ne
    (htype : Text.IsWord (Weight.typeName V).toList) (codex : Codex V) (d d' : Delimiters) :
    (read d' (codex.bytes d) : Traced (Except CodexError (Codex W))).value =
        .error (.typeMismatch expected found) ↔
      Weight.typeName V ≠ Weight.typeName W ∧ expected = Weight.typeName W ∧
        found = Weight.typeName V := by
  have hfeed := line_feed_not_mem_headerLine htype.2 codex
  obtain ⟨more, hlines⟩ :=
    exists_lines_eq_cons hfeed (Utf8.encode (unlines (entryLines d 1 codex.entries)))
  rw [← readHeader_eq_typeMismatch_iff htype codex]
  unfold read
  rw [bytes_eq, lineTexts, encode_unlines_cons, hlines]
  dsimp only
  rw [Utf8.decode?_encode]
  dsimp only
  cases hheader : readHeader W codex.headerLine with
  | error e => simp
  | ok header =>
    obtain ⟨flags, count⟩ := header
    -- the lines that follow can be refused too, but not for their type
    refine iff_of_false ?_ fun h => by cases h
    intro h
    dsimp only at h
    rw [Traced.value_bind] at h
    have hrest : (readEntries d' 2 more (empty flags : Codex W)).value ≠
        .error (.typeMismatch expected found) := readEntries_ne_typeMismatch 2 more _
    split at h
    · rename_i e he
      rw [he] at hrest
      exact hrest h
    · split at h <;> cases h

/-! ## Types built from costs -/

/-- **The codex of a type built from costs is refused as one of another type exactly if that type is
built from other costs**, or from the same ones in another order. -/
theorem read_bytes_eq_typeMismatch_iff [Elementary] {k l : WeightKind} (hk : k.OfCosts)
    (hl : l.OfCosts) (codex : Codex k.Carrier) (d d' : Delimiters) (expected found : String) :
    (read d' (codex.bytes d) : Traced (Except CodexError (Codex l.Carrier))).value =
        .error (.typeMismatch expected found) ↔
      k.leaves ≠ l.leaves ∧ expected = Weight.typeName l.Carrier ∧
        found = Weight.typeName k.Carrier := by
  rw [read_bytes_eq_typeMismatch_iff_typeName_ne (WeightKind.isWord_typeName hk), ne_eq,
    WeightKind.typeName_eq_iff hk hl]

/-- Costs in another order, under other delimiters. -/
theorem read_bytes_eq_typeMismatch_of_swapped :
    let k : WeightKind := .product .tropical (.product .log .log)
    let l : WeightKind := .product (.product .log .tropical) .log
    let w : k.Carrier := (⟨⟨.quiet true⟩, ⟨⟨.zero true⟩, ⟨.infinity false⟩⟩⟩ :
      Product Tropical (Product Log Log))
    let codex : Codex k.Carrier := { flags := ⟨false, true⟩, entries := [⟨1, 0, w⟩] }
    k.OfCosts ∧ l.OfCosts ∧ k.leaves ≠ l.leaves ∧
      (read ⟨'\n', none⟩ (codex.bytes ⟨';', some ('(', ')')⟩) :
          Traced (Except CodexError (Codex l.Carrier))).value =
        .error (.typeMismatch "log_X_tropical_X_log" "tropical_X_log_X_log") := by
  intro k l w codex
  have hk : k.OfCosts := ⟨trivial, trivial, trivial⟩
  have hl : l.OfCosts := ⟨⟨trivial, trivial⟩, trivial⟩
  have hleaves : k.leaves ≠ l.leaves := by decide
  exact ⟨hk, hl, hleaves,
    (read_bytes_eq_typeMismatch_iff hk hl codex _ _ _ _).mpr ⟨hleaves, rfl, rfl⟩⟩

/-- Nested in another way, the same costs are taken for each other: what was a pair and a cost is
read as a cost and a pair. -/
theorem read_of_regrouped :
    let k : WeightKind := .product (.product .tropical .log) .tropical
    let l : WeightKind := .product .tropical (.product .log .tropical)
    let cost (n : Nat) : Single := Binary.ofNat n
    let w : k.Carrier :=
      (⟨⟨⟨cost 1⟩, ⟨cost 2⟩⟩, ⟨cost 3⟩⟩ : Product (Product Tropical Log) Tropical)
    let v : l.Carrier :=
      (⟨⟨cost 1⟩, ⟨⟨cost 2⟩, ⟨cost 3⟩⟩⟩ : Product Tropical (Product Log Tropical))
    let codex : Codex k.Carrier := ((empty ⟨false, true⟩ : Codex k.Carrier).encode 1 0 w).2
    k ≠ l ∧ k.OfCosts ∧ l.OfCosts ∧
      ∃ other : Codex l.Carrier, (read {} (codex.bytes {})).value = .ok other ∧
        other.flags = codex.flags ∧ (other.entries == [⟨1, 0, v⟩]) = true := by
  intro k l cost w v codex
  have hcheck : ((read {} (codex.bytes {})).value.toOption.any fun other : Codex l.Carrier =>
      decide (other.flags = codex.flags ∧ (other.entries == [⟨1, 0, v⟩]) = true)) = true := by
    decide +kernel
  obtain ⟨other, hread, hother⟩ := exists_of_any_toOption hcheck
  exact ⟨by decide, ⟨⟨trivial, trivial⟩, trivial⟩, ⟨trivial, trivial, trivial⟩, other, hread,
    of_decide_eq_true hother⟩

end Codex
end WeightedTransducer
