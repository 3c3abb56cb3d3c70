import WeightedTransducer.Proofs.Codex.EntryLines

/-!
# What is read as a codex

`Codex.Spells` says which lines spell a codex: a first line of four words, and under it lines with
labels counting up from one, apart from lines of nothing but white space.  Some bytes are read as a
codex exactly if their lines spell it and the first line has its number of entries, and
`Codex.Refusal` says of all other bytes with which error they are refused
(`Codex.read_outcome_iff`).
-/

namespace WeightedTransducer
namespace Codex
variable {W : Type} [Weight W] {d : Delimiters} {codex grown : Codex W}

/-! ## Bytes that are a codex, and bytes that are not -/

/-- A first line with the codex mark, the name of the weight type, a set of flags and a number of
entries. -/
def IsHeader (W : Type) [Weight W] (line : List Char) (flags : Flags) (count : Nat) : Prop :=
  ∃ flagsText countText,
    Text.words line = [mark.toList, (Weight.typeName W).toList, flagsText, countText] ∧
      (Text.natural? 255 flagsText).bind Flags.ofNumber? = some flags ∧
      Text.natural? (2 ^ 64 - 1) countText = some count

/-- Lines that spell a codex: a first line with its flags and the number of entries that it
declares, and the lines of its entries, no two of which are equal. -/
def Spells (d : Delimiters) (input : List Bytes) (declared : Nat) (codex : Codex W) : Prop :=
  ∃ header text rest, input = header :: rest ∧ Utf8.decode? header = some text ∧
    IsHeader W text codex.flags declared ∧ HoldEntries d 1 rest codex.entries ∧ codex.Distinct

/-- What is wrong with a first line. -/
inductive HeaderRefusal (W : Type) [Weight W] (line : Bytes) : CodexError → Prop
  | notText (h : Utf8.decode? line = none) : HeaderRefusal W line (.storage .notText)
  | shape {text : List Char} (htext : Utf8.decode? line = some text)
    (h : (Text.words text).length ≠ 4) : HeaderRefusal W line (.malformed 1 .headerShape)
  | mark {text first typeName flagsText countText : List Char}
    (htext : Utf8.decode? line = some text)
    (hwords : Text.words text = [first, typeName, flagsText, countText])
    (h : first ≠ Codex.mark.toList) :
    HeaderRefusal W line (.malformed 1 (.badMark (String.ofList first)))
  | typeName {text typeName flagsText countText : List Char}
    (htext : Utf8.decode? line = some text)
    (hwords : Text.words text = [Codex.mark.toList, typeName, flagsText, countText])
    (h : typeName ≠ (Weight.typeName W).toList) :
    HeaderRefusal W line (.typeMismatch (Weight.typeName W) (String.ofList typeName))
  | flags {text flagsText countText : List Char} (htext : Utf8.decode? line = some text)
    (hwords : Text.words text =
      [Codex.mark.toList, (Weight.typeName W).toList, flagsText, countText])
    (h : (Text.natural? 255 flagsText).bind Flags.ofNumber? = none) :
    HeaderRefusal W line (.malformed 1 (.badFlags (String.ofList flagsText)))
  | count {text flagsText countText : List Char} {flags : Flags}
    (htext : Utf8.decode? line = some text)
    (hwords : Text.words text =
      [Codex.mark.toList, (Weight.typeName W).toList, flagsText, countText])
    (hflags : (Text.natural? 255 flagsText).bind Flags.ofNumber? = some flags)
    (h : Text.natural? (2 ^ 64 - 1) countText = none) :
    HeaderRefusal W line (.malformed 1 (.badCount (String.ofList countText)))

/-- Why some bytes are not read as a codex. -/
inductive Refusal (W : Type) [Weight W] (d : Delimiters) (input : Bytes) : CodexError → Prop
  | missingHeader (h : lines input = []) : Refusal W d input (.malformed 1 .missingHeader)
  | header {header : Bytes} {rest : List Bytes} {e : CodexError}
    (hlines : lines input = header :: rest) (h : HeaderRefusal W header e) : Refusal W d input e
  | line {front back : List Bytes} {line : Bytes} {declared : Nat} {codex : Codex W}
    {e : CodexError} (hlines : lines input = front ++ line :: back)
    (hfront : Spells d front declared codex)
    (h : EntryRefusal d codex (front.length + 1) line e) : Refusal W d input e
  | count {declared : Nat} {codex : Codex W} (hlines : Spells d (lines input) declared codex)
    (h : codex.entries.length ≠ declared) :
    Refusal W d input (.malformed 1 (.wrongCount declared codex.entries.length))

/-! ## The first line -/

theorem readHeader_of_length_ne {line : List Char} (h : (Text.words line).length ≠ 4) :
    readHeader W line = .error (.malformed 1 .headerShape) := by
  unfold readHeader
  split
  · rename_i hwords
    have := congrArg List.length hwords
    rw [List.length_map] at this
    exact absurd this h
  · rfl

theorem readHeader_of_words {line first typeName flagsText countText : List Char}
    (h : Text.words line = [first, typeName, flagsText, countText]) :
    readHeader W line =
      if first ≠ mark.toList then .error (.malformed 1 (.badMark (String.ofList first)))
      else if typeName ≠ (Weight.typeName W).toList then
        .error (.typeMismatch (Weight.typeName W) (String.ofList typeName))
      else match (Text.natural? 255 flagsText).bind Flags.ofNumber? with
        | none => .error (.malformed 1 (.badFlags (String.ofList flagsText)))
        | some flags =>
          match Text.natural? (2 ^ 64 - 1) countText with
          | none => .error (.malformed 1 (.badCount (String.ofList countText)))
          | some count => .ok (flags, count) := by
  have hname (word : List Char) (name : String) : String.ofList word ≠ name ↔ word ≠ name.toList :=
    not_congr ⟨fun heq => by rw [← heq, String.toList_ofList], fun heq => by
      rw [heq, String.ofList_toList]⟩
  unfold readHeader
  simp only [h, List.map_cons, List.map_nil, String.toList_ofList]
  refine if_congr (hname first mark) rfl (if_congr (hname typeName _) rfl ?_)
  cases (Text.natural? 255 flagsText).bind Flags.ofNumber? with
  | none => rfl
  | some flags => cases Text.natural? (2 ^ 64 - 1) countText <;> rfl

/-- A line of four words. -/
theorem exists_words_of_length_eq {words : List (List Char)} (h : words.length = 4) :
    ∃ first typeName flagsText countText, words = [first, typeName, flagsText, countText] := by
  match words, h with
  | [first, typeName, flagsText, countText], _ => exact ⟨first, typeName, flagsText, countText, rfl⟩

theorem readHeader_eq_ok_iff {line : List Char} {flags : Flags} {count : Nat} :
    readHeader W line = .ok (flags, count) ↔ IsHeader W line flags count := by
  constructor
  · intro h
    by_cases hlength : (Text.words line).length = 4
    · obtain ⟨first, typeName, flagsText, countText, hwords⟩ := exists_words_of_length_eq hlength
      rw [readHeader_of_words hwords] at h
      split at h
      · cases h
      rename_i hfirst
      split at h
      · cases h
      rename_i htype
      split at h
      · cases h
      rename_i hflags
      split at h
      · cases h
      rename_i hcount
      cases h
      rw [not_not] at hfirst htype
      exact ⟨flagsText, countText, by rw [hwords, hfirst, htype], hflags, hcount⟩
    · rw [readHeader_of_length_ne hlength] at h
      cases h
  · rintro ⟨flagsText, countText, hwords, hflags, hcount⟩
    rw [readHeader_of_words hwords, if_neg (not_not.mpr rfl), if_neg (not_not.mpr rfl), hflags]
    dsimp only
    rw [hcount]

/-- **Why a first line is refused.** -/
theorem readHeader_eq_error_iff {line : Bytes} {text : List Char}
    (htext : Utf8.decode? line = some text) {e : CodexError} :
    readHeader W text = .error e ↔ HeaderRefusal W line e := by
  constructor
  · intro h
    by_cases hlength : (Text.words text).length = 4
    · obtain ⟨first, typeName, flagsText, countText, hwords⟩ := exists_words_of_length_eq hlength
      rw [readHeader_of_words hwords] at h
      split at h
      · rename_i hfirst
        cases h
        exact .mark htext hwords hfirst
      rename_i hfirst
      rw [not_not] at hfirst
      subst hfirst
      split at h
      · rename_i htype
        cases h
        exact .typeName htext hwords htype
      rename_i htype
      rw [not_not] at htype
      subst htype
      split at h
      · rename_i hflags
        cases h
        exact .flags htext hwords hflags
      rename_i hflags
      split at h
      · rename_i hcount
        cases h
        exact .count htext hwords hflags hcount
      · cases h
    · rw [readHeader_of_length_ne hlength] at h
      cases h
      exact .shape htext hlength
  · intro h
    cases h with
    | notText hnone =>
      rw [hnone] at htext
      cases htext
    | shape htext' hlength =>
      cases htext.symm.trans htext'
      exact readHeader_of_length_ne hlength
    | mark htext' hwords hfirst =>
      cases htext.symm.trans htext'
      rw [readHeader_of_words hwords, if_pos hfirst]
    | typeName htext' hwords htype =>
      cases htext.symm.trans htext'
      rw [readHeader_of_words hwords, if_neg (not_not.mpr rfl), if_pos htype]
    | flags htext' hwords hflags =>
      cases htext.symm.trans htext'
      rw [readHeader_of_words hwords, if_neg (not_not.mpr rfl), if_neg (not_not.mpr rfl), hflags]
    | count htext' hwords hflags hcount =>
      cases htext.symm.trans htext'
      rw [readHeader_of_words hwords, if_neg (not_not.mpr rfl), if_neg (not_not.mpr rfl), hflags]
      dsimp only
      rw [hcount]

/-! ## The whole codex -/

/-- Lines spell a codex if the first is its header and the others are read as it. -/
theorem spells_cons_iff {header : Bytes} {rest : List Bytes} {declared : Nat} :
    Spells d (header :: rest) declared codex ↔
      ∃ text, Utf8.decode? header = some text ∧ readHeader W text = .ok (codex.flags, declared) ∧
        (readEntries d 2 rest (empty codex.flags)).value = .ok codex := by
  have hempty : (empty codex.flags : Codex W).Distinct := .nil
  constructor
  · rintro ⟨_, text, _, hlines, htext, hheader, hentries, hdistinct⟩
    cases hlines
    refine ⟨text, htext, readHeader_eq_ok_iff.mpr hheader, ?_⟩
    exact (value_readEntries_eq_ok_iff hempty).mpr
      ⟨codex.entries, ext rfl (List.nil_append _).symm, hentries, hdistinct⟩
  · rintro ⟨text, htext, hheader, hrest⟩
    obtain ⟨entries, hcodex, hentries, hdistinct⟩ := (value_readEntries_eq_ok_iff hempty).mp hrest
    have heq : codex.entries = entries := by rw [hcodex]; rfl
    exact ⟨header, text, rest, rfl, htext, readHeader_eq_ok_iff.mp hheader, heq ▸ hentries,
      hdistinct⟩

/-- The flags of what lines add to a codex are its flags. -/
theorem flags_of_readEntries {number : Nat} {input : List Bytes}
    (h : (readEntries d number input codex).value = .ok grown) : grown.flags = codex.flags := by
  have hpush (mid : Codex W) (entry : Entry W) (_ : mid.find? entry = none)
      (hmid : mid.flags = codex.flags) : (mid.push entry).flags = codex.flags := hmid
  exact readEntries_preserves hpush h rfl

theorem value_read_of_readHeader {input header : Bytes} {rest : List Bytes} {text : List Char}
    {flags : Flags} {count : Nat} (hlines : lines input = header :: rest)
    (htext : Utf8.decode? header = some text) (hheader : readHeader W text = .ok (flags, count)) :
    (read d input : Traced (Except CodexError (Codex W))).value =
      match (readEntries d 2 rest (empty flags)).value with
      | .error e => .error e
      | .ok codex =>
        if codex.entries.length ≠ count then
          .error (.malformed 1 (.wrongCount count codex.entries.length))
        else .ok codex := by
  unfold read
  rw [hlines]
  dsimp only
  rw [htext]
  dsimp only
  rw [hheader]
  dsimp only
  rw [Traced.value_bind]
  cases (readEntries d 2 rest (empty flags) : Traced (Except CodexError (Codex W))).value with
  | error e => rfl
  | ok codex =>
    dsimp only
    split <;> rfl

theorem value_read_of_headerRefusal {input header : Bytes} {rest : List Bytes} {e : CodexError}
    (hlines : lines input = header :: rest) (h : HeaderRefusal W header e) :
    (read d input : Traced (Except CodexError (Codex W))).value = .error e := by
  unfold read
  rw [hlines]
  dsimp only
  cases htext : Utf8.decode? header with
  | none =>
    cases h with
    | notText => rfl
    | shape hsome | mark hsome | typeName hsome | flags hsome | count hsome =>
      rw [htext] at hsome
      cases hsome
  | some text =>
    dsimp only
    rw [(readHeader_eq_error_iff htext).mpr h]
    rfl

/-- The bytes that are read as a codex. -/
theorem value_read_eq_ok_iff {input : Bytes} :
    (read d input).value = .ok codex ↔ Spells d (lines input) codex.entries.length codex := by
  constructor
  · intro h
    obtain ⟨header, rest, text, flags, hlines, htext, hheader, hrest⟩ := exists_of_read_eq_ok h
    obtain rfl : codex.flags = flags := flags_of_readEntries hrest
    rw [hlines]
    exact spells_cons_iff.mpr ⟨text, htext, hheader, hrest⟩
  · intro h
    obtain ⟨header, -, rest, hlines, -⟩ := id h
    rw [hlines] at h
    obtain ⟨text, htext, hheader, hrest⟩ := spells_cons_iff.mp h
    rw [value_read_of_readHeader hlines htext hheader, hrest]
    exact if_neg (not_not.mpr rfl)

/-- The errors that bytes are refused with. -/
theorem value_read_eq_error_iff {input : Bytes} {e : CodexError} :
    (read d input : Traced (Except CodexError (Codex W))).value = .error e ↔
      Refusal W d input e := by
  constructor
  · intro h
    cases hlines : lines input with
    | nil =>
      unfold read at h
      rw [hlines] at h
      cases h
      exact .missingHeader hlines
    | cons header rest =>
      cases htext : Utf8.decode? header with
      | none =>
        rw [value_read_of_headerRefusal hlines (.notText htext)] at h
        cases h
        exact .header hlines (.notText htext)
      | some text =>
        cases hheader : readHeader W text with
        | error e' =>
          have hrefusal := (readHeader_eq_error_iff htext).mp hheader
          rw [value_read_of_headerRefusal hlines hrefusal] at h
          cases h
          exact .header hlines hrefusal
        | ok declared =>
          obtain ⟨flags, count⟩ := declared
          rw [value_read_of_readHeader hlines htext hheader] at h
          cases hrest : (readEntries d 2 rest (empty flags) :
              Traced (Except CodexError (Codex W))).value with
          | error e' =>
            rw [hrest] at h
            cases h
            obtain ⟨front, line, back, mid, rfl, hfront, hline⟩ :=
              value_readEntries_eq_error_iff.mp hrest
            -- the lines before it spell a codex, whatever number of entries the first declares
            obtain rfl : mid.flags = flags := flags_of_readEntries hfront
            have hspells : Spells d (header :: front) count mid :=
              spells_cons_iff.mpr ⟨text, htext, hheader, hfront⟩
            refine .line hlines hspells ?_
            rwa [List.length_cons, Nat.add_assoc, Nat.add_comm]
          | ok codex =>
            rw [hrest] at h
            obtain rfl : codex.flags = flags := flags_of_readEntries hrest
            dsimp only at h
            split at h
            · rename_i hcount
              cases h
              refine .count ?_ hcount
              rw [hlines]
              exact spells_cons_iff.mpr ⟨text, htext, hheader, hrest⟩
            · cases h
  · intro h
    cases h with
    | missingHeader hlines =>
      unfold read
      rw [hlines]
      rfl
    | header hlines h => exact value_read_of_headerRefusal hlines h
    | line hlines hfront h =>
      obtain ⟨header, -, front, rfl, -⟩ := id hfront
      obtain ⟨text, htext, hheader, hread⟩ := spells_cons_iff.mp hfront
      rw [List.cons_append] at hlines
      rw [value_read_of_readHeader hlines htext hheader]
      rw [List.length_cons, Nat.add_assoc, Nat.add_comm] at h
      rw [value_readEntries_eq_error_iff.mpr ⟨front, _, _, _, rfl, hread, h⟩]
    | count hspells hcount =>
      obtain ⟨header, -, rest, hlines, -⟩ := id hspells
      rw [hlines] at hspells
      obtain ⟨text, htext, hheader, hrest⟩ := spells_cons_iff.mp hspells
      rw [value_read_of_readHeader hlines htext hheader, hrest]
      exact if_pos hcount

/-- **What is read as a codex.**  Some bytes are read as a codex exactly if their lines spell it and
the first of them declares its number of entries; its entries are then found under their labels.
All other bytes are refused: with the error of the first line that is not what it should be or,
where there is none, with that of the number of entries. -/
theorem read_outcome_iff (d : Delimiters) (input : Bytes) :
    (∀ codex : Codex W, (read d input).value = .ok codex ↔
      Spells d (lines input) codex.entries.length codex) ∧
    (∀ codex : Codex W, (read d input).value = .ok codex → ∀ position < 2 ^ 32 - 1,
      codex.decode? (labelAt position) = codex.entries[position]?) ∧
    ∀ e, (read d input : Traced (Except CodexError (Codex W))).value = .error e ↔
      Refusal W d input e :=
  ⟨fun _ => value_read_eq_ok_iff, fun codex _ _ h => decode?_labelAt codex h,
    fun _ => value_read_eq_error_iff⟩

omit [Weight W] in
/-- An error is known from what is read but for the codex. -/
theorem eq_error_of_map_flags {result : Except CodexError (Codex W)} {e : CodexError}
    (h : result.map flags = .error e) : result = .error e := by
  cases result with
  | error e' => exact congrArg Except.error (Except.error.inj h)
  | ok codex => cases h

/-- A wrong label behind blank lines, which count for nothing but the number of the line. -/
theorem read_outcome_iff_of_blank_lines :
    let input := Utf8.encode "wfst-codex tropical 2 2\n\n 1 1,0,0 \n\t\n3 2,0,0\n".toList
    let e : CodexError := .malformed 5 (.wrongLabel 2 "3")
    (read {} input : Traced (Except CodexError (Codex Tropical))).value = .error e ∧
      Refusal Tropical {} input e := by
  intro input e
  have hread : (read {} input : Traced (Except CodexError (Codex Tropical))).value = .error e :=
    eq_error_of_map_flags (by decide +kernel)
  exact ⟨hread, ((read_outcome_iff {} input).2.2 e).mp hread⟩

/-- **A text that is refused without the number of its line**: that of an entry with two fields. -/
theorem read_of_two_fields :
    let input := Utf8.encode "wfst-codex tropical 1 1\n1 1,0\n".toList
    let result : Except CodexError (Codex Tropical) := (read {} input).value
    result = .error (.entry .emptyElement) ∧
      ∀ line fault, result ≠ .error (.malformed line fault) := by
  intro input result
  have hresult : result = .error (.entry .emptyElement) :=
    eq_error_of_map_flags (by decide +kernel)
  exact ⟨hresult, fun line fault h => by cases hresult.symm.trans h⟩

end Codex
end WeightedTransducer
