import WeightedTransducer.Proofs.Codex.Obtained

/-!
# The lines of entries

Lines are read one after the other.  One of nothing but white space changes nothing, and any other
must hold the next label and an entry that is new (`Codex.IsEntryLine`).  Lines that are all read
hold some entries (`Codex.value_readEntries_eq_ok_iff`); otherwise the first that is not what it
should be decides the error (`Codex.EntryRefusal`, `Codex.value_readEntries_eq_error_iff`).
-/

namespace WeightedTransducer

/-! ## Texts cut at white space -/

namespace Text

/-- A line that, without the white space around it, is a word, white space and a text. -/
def Fields (line word text : List Char) : Prop :=
  ∃ gap, trim line = word ++ gap ++ text ∧ IsWord word ∧ AllBlank gap ∧ gap ≠ [] ∧ StartsSolid text

theorem fields_iff {line word text : List Char} :
    Fields line word text ↔
      ∃ rest, splitAtBlank? (trim line) = some (word, rest) ∧ trimStart rest = text := by
  constructor
  · rintro ⟨gap, htrim, hword, hgap, hne, hsolid⟩
    obtain ⟨blank, gap, rfl⟩ := List.exists_cons_of_ne_nil hne
    obtain ⟨hblank, hgap⟩ := List.forall_mem_cons.mp hgap
    refine ⟨gap ++ text, ?_, ?_⟩
    · rw [htrim, List.append_assoc, List.cons_append, splitAtBlank?_append hword hblank]
    · rw [trimStart_append hgap, trimStart_of_startsSolid hsolid]
  · rintro ⟨rest, hsplit, hrest⟩
    obtain ⟨blank, htrim, hword, hblank⟩ := splitAtBlank?_eq_some_iff.mp hsplit
    obtain ⟨gap, rfl, hgap, hsolid⟩ := trimStart_eq_iff.mp hrest
    have hne : word ≠ [] := by
      rintro rfl
      have hstart := startsSolid_trim line
      rw [htrim] at hstart
      exact absurd (hstart blank rfl) (by simp [hblank])
    refine ⟨blank :: gap, ?_, ⟨hne, hword⟩, List.forall_mem_cons.mpr ⟨hblank, hgap⟩,
      List.cons_ne_nil _ _, hsolid⟩
    rw [htrim, List.append_assoc, List.cons_append]

theorem Fields.not_allBlank {line word text : List Char} (h : Fields line word text) :
    ¬ AllBlank line := by
  obtain ⟨gap, htrim, hword, -⟩ := h
  rw [← trim_eq_nil_iff, htrim]
  simp [hword.1]

end Text

namespace Codex
variable {W : Type} [Weight W] {d : Delimiters} {codex grown : Codex W}

/-- A line with a label and the text of an entry. -/
def IsEntryLine (d : Delimiters) (label : Nat) (line : List Char) (entry : Entry W) : Prop :=
  ∃ word text, Text.Fields line word text ∧ Text.natural? (2 ^ 64 - 1) word = some label ∧
    (Textual.read d text).value = .ok entry

/-- Lines that are all text and, apart from those of nothing but white space, hold some entries
under labels counting up from the first. -/
def HoldEntries (d : Delimiters) (first : Nat) (input : List Bytes) (entries : List (Entry W)) :
    Prop :=
  ∃ texts : List (List Char), input.map Utf8.decode? = texts.map some ∧
    List.Forall₂ (fun line entry => IsEntryLine d line.2 line.1 entry)
      ((texts.filter fun text => ¬ Text.AllBlank text).zipIdx first) entries

/-- What is wrong with the line of an entry that comes after those of a codex; `number` is the
number of the line. -/
inductive EntryRefusal (d : Delimiters) (codex : Codex W) (number : Nat) (line : Bytes) :
    CodexError → Prop
  | notText (h : Utf8.decode? line = none) : EntryRefusal d codex number line (.storage .notText)
  | shape {text : List Char} (htext : Utf8.decode? line = some text) (hne : ¬ Text.AllBlank text)
    (h : ∀ word body, ¬ Text.Fields text word body) :
    EntryRefusal d codex number line (.malformed number .entryShape)
  | label {text word body : List Char} (htext : Utf8.decode? line = some text)
    (hfields : Text.Fields text word body)
    (h : Text.natural? (2 ^ 64 - 1) word ≠ some (codex.entries.length + 1)) :
    EntryRefusal d codex number line
      (.malformed number (.wrongLabel (codex.entries.length + 1) (String.ofList word)))
  | entry {text word body : List Char} {e : ReadError} (htext : Utf8.decode? line = some text)
    (hfields : Text.Fields text word body)
    (hlabel : Text.natural? (2 ^ 64 - 1) word = some (codex.entries.length + 1))
    (h : (Textual.read d body : Traced (Except ReadError (Entry W))).value = .error e) :
    EntryRefusal d codex number line (.entry e)
  | duplicate {text : List Char} {entry earlier : Entry W} (htext : Utf8.decode? line = some text)
    (hline : IsEntryLine d (codex.entries.length + 1) text entry)
    (hearlier : earlier ∈ codex.entries) (h : (entry == earlier) = true) :
    EntryRefusal d codex number line (.malformed number .duplicate)

/-! ## One line -/

theorem value_readEntry_of_allBlank {number : Nat} {line : List Char} (h : Text.AllBlank line) :
    (readEntry d number line codex).value = .ok codex := by
  unfold readEntry
  dsimp only
  rw [Text.trim_eq_nil_iff.mpr h]
  rfl

theorem value_readEntry_of_not_fields {number : Nat} {line : List Char} (hne : ¬ Text.AllBlank line)
    (h : ∀ word text, ¬ Text.Fields line word text) :
    (readEntry d number line codex).value = .error (.malformed number .entryShape) := by
  have hsplit : Text.splitAtBlank? (Text.trim line) = none := by
    refine Option.eq_none_iff_forall_ne_some.mpr fun ⟨word, rest⟩ hsplit => ?_
    exact h word _ (Text.fields_iff.mpr ⟨rest, hsplit, rfl⟩)
  unfold readEntry
  dsimp only
  rw [if_neg (by rwa [List.isEmpty_iff, Text.trim_eq_nil_iff]), hsplit]
  rfl

theorem value_readEntry_of_fields {number : Nat} {line word text : List Char}
    (h : Text.Fields line word text) :
    (readEntry d number line codex).value =
      if Text.natural? (2 ^ 64 - 1) word ≠ some (codex.entries.length + 1) then
        .error (.malformed number (.wrongLabel (codex.entries.length + 1) (String.ofList word)))
      else match (Textual.read d text : Traced (Except ReadError (Entry W))).value with
        | .error e => .error (.entry e)
        | .ok entry =>
          if (codex.find? entry).isSome then .error (.malformed number .duplicate)
          else .ok (codex.push entry) := by
  obtain ⟨rest, hsplit, rfl⟩ := Text.fields_iff.mp h
  unfold readEntry
  dsimp only
  rw [if_neg (by rw [List.isEmpty_iff, Text.trim_eq_nil_iff]; exact h.not_allBlank), hsplit]
  dsimp only
  split
  · rfl
  · rw [Traced.value_bind]
    cases (Textual.read d (Text.trimStart rest) : Traced (Except ReadError (Entry W))).value with
    | error e => rfl
    | ok entry =>
      dsimp only
      split <;> rfl

/-- **What a line adds**: nothing if it is white space, and otherwise the new entry that it holds
under the next label. -/
theorem value_readEntry_eq_ok_iff {number : Nat} {line : List Char} :
    (readEntry d number line codex).value = .ok grown ↔
      Text.AllBlank line ∧ grown = codex ∨
        ∃ entry, IsEntryLine d (codex.entries.length + 1) line entry ∧ codex.find? entry = none ∧
          grown = codex.push entry := by
  constructor
  · intro h
    rcases readEntry_cases h with ⟨hblank, heq⟩ |
      ⟨word, rest, entry, hsplit, hlabel, hread, hnew, heq⟩
    · exact .inl ⟨Text.trim_eq_nil_iff.mp hblank, heq⟩
    · have hfields := Text.fields_iff.mpr ⟨rest, hsplit, rfl⟩
      exact .inr ⟨entry, ⟨word, _, hfields, hlabel, hread⟩, hnew, heq⟩
  · rintro (⟨hblank, rfl⟩ | ⟨entry, ⟨word, text, hfields, hlabel, hread⟩, hnew, rfl⟩)
    · exact value_readEntry_of_allBlank hblank
    · rw [value_readEntry_of_fields hfields, if_neg (not_not.mpr hlabel), hread]
      dsimp only
      rw [hnew]
      rfl

theorem isSome_find?_iff {entry : Entry W} :
    (codex.find? entry).isSome = true ↔ ∃ earlier ∈ codex.entries, (entry == earlier) = true := by
  rw [← not_iff_not, Bool.not_eq_true, Option.isSome_eq_false_iff, Option.isNone_iff_eq_none,
    find?_eq_none_iff]
  simp

/-- **Why a line is refused.** -/
theorem value_readEntry_eq_error_iff {number : Nat} {line : Bytes} {text : List Char}
    (htext : Utf8.decode? line = some text) {e : CodexError} :
    (readEntry d number text codex).value = .error e ↔ EntryRefusal d codex number line e := by
  constructor
  · intro h
    by_cases hblank : Text.AllBlank text
    · rw [value_readEntry_of_allBlank hblank] at h
      cases h
    by_cases hnone : ∀ word body, ¬ Text.Fields text word body
    · rw [value_readEntry_of_not_fields hblank hnone] at h
      cases h
      exact .shape htext hblank hnone
    · simp only [not_forall, not_not] at hnone
      obtain ⟨word, body, hfields⟩ := hnone
      rw [value_readEntry_of_fields hfields] at h
      split at h
      · rename_i hlabel
        cases h
        exact .label htext hfields hlabel
      · rename_i hlabel
        rw [not_not] at hlabel
        split at h
        · rename_i hread
          cases h
          exact .entry htext hfields hlabel hread
        · rename_i entry hread
          split at h
          · rename_i hfind
            cases h
            obtain ⟨earlier, hearlier, heq⟩ := isSome_find?_iff.mp hfind
            exact .duplicate htext ⟨word, body, hfields, hlabel, hread⟩ hearlier heq
          · cases h
  · intro h
    cases h with
    | notText hnone =>
      rw [hnone] at htext
      cases htext
    | shape htext' hne hnone =>
      cases htext.symm.trans htext'
      exact value_readEntry_of_not_fields hne hnone
    | label htext' hfields hlabel =>
      cases htext.symm.trans htext'
      rw [value_readEntry_of_fields hfields, if_pos hlabel]
    | entry htext' hfields hlabel hread =>
      cases htext.symm.trans htext'
      rw [value_readEntry_of_fields hfields, if_neg (not_not.mpr hlabel), hread]
    | duplicate htext' hline hearlier heq =>
      cases htext.symm.trans htext'
      obtain ⟨word, body, hfields, hlabel, hread⟩ := hline
      rw [value_readEntry_of_fields hfields, if_neg (not_not.mpr hlabel), hread]
      exact if_pos (isSome_find?_iff.mpr ⟨_, hearlier, heq⟩)

/-! ## The lines of entries -/

theorem holdEntries_nil_iff {first : Nat} {entries : List (Entry W)} :
    HoldEntries d first [] entries ↔ entries = [] := by
  constructor
  · rintro ⟨texts, htexts, hall⟩
    obtain rfl : texts = [] := by simpa using htexts.symm
    simpa using hall
  · rintro rfl
    exact ⟨[], rfl, .nil⟩

/-- A line of white space holds nothing, and any other holds the first of the entries. -/
theorem holdEntries_cons_iff {first : Nat} {line : Bytes} {rest : List Bytes}
    {entries : List (Entry W)} :
    HoldEntries d first (line :: rest) entries ↔
      ∃ text, Utf8.decode? line = some text ∧
        (Text.AllBlank text ∧ HoldEntries d first rest entries ∨
          ¬ Text.AllBlank text ∧ ∃ entry more, entries = entry :: more ∧
            IsEntryLine d first text entry ∧ HoldEntries d (first + 1) rest more) := by
  constructor
  · rintro ⟨texts, htexts, hall⟩
    cases texts with
    | nil => cases htexts
    | cons text texts =>
      obtain ⟨htext, hrest⟩ := List.cons.inj htexts
      refine ⟨text, htext, ?_⟩
      by_cases hblank : Text.AllBlank text
      · rw [List.filter_cons_of_neg (by simpa using hblank)] at hall
        exact .inl ⟨hblank, texts, hrest, hall⟩
      · rw [List.filter_cons_of_pos (by simpa using hblank), List.zipIdx_cons] at hall
        cases hall with
        | cons hline hmore => exact .inr ⟨hblank, _, _, rfl, hline, texts, hrest, hmore⟩
  · rintro ⟨text, htext, ⟨hblank, texts, hrest, hall⟩ |
      ⟨hne, entry, more, rfl, hline, texts, hrest, hall⟩⟩
    · refine ⟨text :: texts, congrArg₂ List.cons htext hrest, ?_⟩
      rw [List.filter_cons_of_neg (by simpa using hblank)]
      exact hall
    · refine ⟨text :: texts, congrArg₂ List.cons htext hrest, ?_⟩
      rw [List.filter_cons_of_pos (by simpa using hne), List.zipIdx_cons]
      exact .cons hline hall

/-- **What lines add**: the entries that they hold under the next labels, if no entry is equal to an
earlier one. -/
theorem value_readEntries_eq_ok_iff (hcodex : codex.Distinct) {number : Nat} {input : List Bytes} :
    (readEntries d number input codex).value = .ok grown ↔
      ∃ entries, grown = { flags := codex.flags, entries := codex.entries ++ entries } ∧
        HoldEntries d (codex.entries.length + 1) input entries ∧ grown.Distinct := by
  induction input generalizing codex number with
  | nil =>
    constructor
    · intro h
      obtain rfl : codex = grown := Except.ok.inj h
      exact ⟨[], ext rfl (List.append_nil _).symm, holdEntries_nil_iff.mpr rfl, hcodex⟩
    · rintro ⟨entries, rfl, hentries, -⟩
      rw [holdEntries_nil_iff.mp hentries]
      exact congrArg Except.ok (ext rfl (List.append_nil _).symm)
  | cons line rest ih =>
    rw [readEntries_cons_iff]
    constructor
    · rintro ⟨text, mid, htext, hline, hrest⟩
      rcases value_readEntry_eq_ok_iff.mp hline with ⟨hblank, rfl⟩ | ⟨entry, hentry, hnew, rfl⟩
      · obtain ⟨entries, hgrown, hentries, hdistinct⟩ := (ih hcodex).mp hrest
        exact ⟨entries, hgrown, holdEntries_cons_iff.mpr ⟨text, htext, .inl ⟨hblank, hentries⟩⟩,
          hdistinct⟩
      · obtain ⟨entries, hgrown, hentries, hdistinct⟩ := (ih (hcodex.push hnew)).mp hrest
        have hne : ¬ Text.AllBlank text := by
          obtain ⟨word, body, hfields, -⟩ := hentry
          exact hfields.not_allBlank
        refine ⟨entry :: entries, ?_, holdEntries_cons_iff.mpr ⟨text, htext, .inr ⟨hne, entry,
          entries, rfl, hentry, ?_⟩⟩, hdistinct⟩
        · rw [hgrown]
          exact ext rfl (List.append_assoc codex.entries [entry] entries)
        · simpa [push] using hentries
    · rintro ⟨entries, hgrown, hentries, hdistinct⟩
      obtain ⟨text, htext, ⟨hblank, hrest⟩ | ⟨-, entry, more, rfl, hentry, hrest⟩⟩ :=
        holdEntries_cons_iff.mp hentries
      · exact ⟨text, codex, htext, value_readEntry_eq_ok_iff.mpr (.inl ⟨hblank, rfl⟩),
          (ih hcodex).mpr ⟨entries, hgrown, hrest, hdistinct⟩⟩
      · -- an entry is new as no two of the codex afterwards are equal
        have hnew : codex.find? entry = none := by
          rw [hgrown] at hdistinct
          exact find?_eq_none_iff.mpr fun a ha =>
            (List.pairwise_append.mp hdistinct).2.2 a ha entry List.mem_cons_self
        refine ⟨text, codex.push entry, htext,
          value_readEntry_eq_ok_iff.mpr (.inr ⟨entry, hentry, hnew, rfl⟩),
          (ih (hcodex.push hnew)).mpr ⟨more, ?_, ?_, hdistinct⟩⟩
        · rw [hgrown]
          exact ext rfl (List.append_assoc codex.entries [entry] more).symm
        · simpa [push] using hrest

/-- The first line is refused, or it is read and one of the others is refused. -/
theorem value_readEntries_cons_eq_error_iff {number : Nat} {line : Bytes} {rest : List Bytes}
    {e : CodexError} :
    (readEntries d number (line :: rest) codex).value = .error e ↔
      EntryRefusal d codex number line e ∨
        ∃ text mid, Utf8.decode? line = some text ∧
          (readEntry d number text codex).value = .ok mid ∧
          (readEntries d (number + 1) rest mid).value = .error e := by
  conv_lhs => unfold readEntries
  cases htext : Utf8.decode? line with
  | none =>
    constructor
    · intro h
      cases h
      exact .inl (.notText htext)
    · rintro (h | ⟨_, _, hsome, -⟩)
      · cases h with
        | notText => rfl
        | shape hsome | label hsome | entry hsome | duplicate hsome =>
          rw [htext] at hsome
          cases hsome
      · cases hsome
  | some text =>
    dsimp only
    rw [Traced.value_bind, ← value_readEntry_eq_error_iff htext]
    cases hline : (readEntry d number text codex).value with
    | error e' =>
      constructor
      · exact .inl
      · rintro (h | ⟨_, _, hsome, hok, -⟩)
        · exact h
        · cases hsome
          rw [hline] at hok
          cases hok
    | ok mid =>
      constructor
      · exact fun h => .inr ⟨text, mid, rfl, hline, h⟩
      · rintro (h | ⟨_, _, hsome, hok, h⟩)
        · cases h
        · cases hsome
          rw [hline] at hok
          cases hok
          exact h

/-- **The first line that is refused decides the error.** -/
theorem value_readEntries_eq_error_iff {number : Nat} {input : List Bytes} {e : CodexError} :
    (readEntries d number input codex).value = .error e ↔
      ∃ front line back mid, input = front ++ line :: back ∧
        (readEntries d number front codex).value = .ok mid ∧
        EntryRefusal d mid (number + front.length) line e := by
  induction input generalizing codex number with
  | nil =>
    refine iff_of_false nofun ?_
    rintro ⟨front, line, back, _, hinput, -⟩
    exact List.append_ne_nil_of_right_ne_nil front (List.cons_ne_nil line back) hinput.symm
  | cons line rest ih =>
    rw [value_readEntries_cons_eq_error_iff]
    constructor
    · rintro (h | ⟨text, next, htext, hline, hrest⟩)
      · exact ⟨[], line, rest, codex, rfl, rfl, h⟩
      · obtain ⟨front, last, back, mid, rfl, hfront, h⟩ := ih.mp hrest
        refine ⟨line :: front, last, back, mid, rfl,
          readEntries_cons_iff.mpr ⟨text, next, htext, hline, hfront⟩, ?_⟩
        rwa [List.length_cons, Nat.add_comm front.length, ← Nat.add_assoc]
    · rintro ⟨front, last, back, mid, hinput, hfront, h⟩
      cases front with
      | nil =>
        cases hinput
        cases hfront
        exact .inl h
      | cons first front =>
        obtain ⟨rfl, rfl⟩ := List.cons.inj hinput
        obtain ⟨text, next, htext, hline, hmore⟩ := readEntries_cons_iff.mp hfront
        refine .inr ⟨text, next, htext, hline, ih.mpr ⟨front, last, back, mid, rfl, hmore, ?_⟩⟩
        rwa [List.length_cons, Nat.add_comm front.length, ← Nat.add_assoc] at h

end Codex
end WeightedTransducer
