import WeightedTransducer.Proofs.Codex.Growth
import WeightedTransducer.Proofs.Codex.Lines
import WeightedTransducer.Proofs.Composite.RoundTrip

/-!
# Codices read back

The text of a codex is a header and a line for every entry, and each line reads back by itself
(`Codex.readHeader_headerLine`, `Codex.value_readEntry_entryLine`).  A weight need only read back up
to some relation as fine as the equality of its type; all entries then read back up to it, under
their own labels, and none is taken for another (`Codex.read_bytes`).
-/

namespace WeightedTransducer

/-- Entries with the same labels and weights that are related. -/
def Entry.Same {W : Type} (same : W → W → Prop) (a b : Entry W) : Prop :=
  a.input = b.input ∧ a.output = b.output ∧ same a.weight b.weight

/-- A weight that can be the last element of an entry and reads back up to some relation. -/
def ReadsBack {W : Type} [Textual W] (d : Delimiters) (same : W → W → Prop) (w : W) : Prop :=
  d.IsSolid (Textual.text d w) ∧
    ∃ read, (Textual.read d (Textual.text d w)).value = .ok read ∧ same read w

namespace Codex

/-- What is found to be true of a result, if there is one, is true of one that exists. -/
theorem exists_of_any_toOption {ε α : Type} {result : Except ε α} {p : α → Bool}
    (h : result.toOption.any p = true) : ∃ a, result = .ok a ∧ p a = true := by
  cases result with
  | error e => cases h
  | ok a => exact ⟨a, rfl, h⟩

variable {W : Type} [Weight W] {d : Delimiters} {same : W → W → Prop}

/-! ## Lines of a codex -/

/-- The first line, without its line feed. -/
def headerLine (codex : Codex W) : List Char :=
  mark.toList ++ ' ' :: ((Weight.typeName W).toList ++ ' ' :: (Nat.toDigits 10 codex.flags.number
    ++ ' ' :: Nat.toDigits 10 codex.entries.length))

/-- The line of an entry, without its line feed. -/
def entryLine (d : Delimiters) (label : Nat) (entry : Entry W) : List Char :=
  Nat.toDigits 10 label ++ ' ' :: Textual.text d entry

/-- The lines of entries, the first of which has the given label. -/
def entryLines (d : Delimiters) : (label : Nat) → List (Entry W) → List (List Char)
  | _, [] => []
  | label, entry :: rest => entryLine d label entry :: entryLines d (label + 1) rest

theorem entryTexts_eq (label : Nat) (entries : List (Entry W)) :
    entryTexts d label entries = unlines (entryLines d label entries) := by
  induction entries generalizing label with
  | nil => rfl
  | cons entry entries ih =>
    unfold entryTexts entryLines unlines
    rw [List.flatMap_cons, ih]
    simp [entryLine, unlines]

theorem text_eq (codex : Codex W) :
    codex.text d = unlines (codex.headerLine :: entryLines d 1 codex.entries) := by
  unfold text
  rw [entryTexts_eq]
  simp [unlines, headerText, headerLine, toString]

/-- The lines of a codex, without their line feeds. -/
def lineTexts (d : Delimiters) (codex : Codex W) : List (List Char) :=
  codex.headerLine :: entryLines d 1 codex.entries

theorem bytes_eq (codex : Codex W) : codex.bytes d = Utf8.encode (unlines (lineTexts d codex)) := by
  rw [bytes, text_eq, lineTexts]

theorem isWord_toDigits (n : Nat) : Text.IsWord (Nat.toDigits 10 n) :=
  ⟨Nat.toDigits_ne_nil, fun c hc => isBlank_eq_false_of_isDigit (Text.all_isDigit_toDigits n c hc)⟩

theorem words_headerLine (htype : Text.IsWord (Weight.typeName W).toList) (codex : Codex W) :
    Text.words codex.headerLine = [mark.toList, (Weight.typeName W).toList,
      Nat.toDigits 10 codex.flags.number, Nat.toDigits 10 codex.entries.length] := by
  have hspace : Text.isBlank ' ' = true := by decide
  have hmark : Text.IsWord mark.toList := by decide
  unfold headerLine
  rw [Text.words_append hmark hspace, Text.words_append htype hspace,
    Text.words_append (isWord_toDigits _) hspace, Text.words_of_isWord (isWord_toDigits _)]

/-- The header reads back as the flags and the number of entries. -/
theorem readHeader_headerLine (htype : Text.IsWord (Weight.typeName W).toList) (codex : Codex W)
    (hlength : codex.entries.length < 2 ^ 64) :
    readHeader W codex.headerLine = .ok (codex.flags, codex.entries.length) := by
  have hflags : codex.flags.number ≤ 255 := by
    unfold Flags.number
    split <;> split <;> omega
  unfold readHeader
  rw [words_headerLine htype codex]
  simp [Text.natural?_toDigits hflags, Text.natural?_toDigits (Nat.le_sub_one_of_lt hlength),
    Flags.ofNumber?_number]

/-! ## Reading the entries -/

/-- The texts of the fields of an entry. -/
def fieldTexts (d : Delimiters) (entry : Entry W) : List (List Char) :=
  [Textual.text d entry.input, Textual.text d entry.output, Textual.text d entry.weight]

theorem isSolid_fieldTexts (hdigits : ∀ c ∈ d.characters, c.isDigit = false) {entry : Entry W}
    (h : d.IsSolid (Textual.text d entry.weight)) : ∀ t ∈ fieldTexts d entry, d.IsSolid t := by
  have hlabel (label : Label) : d.IsSolid (Textual.text d label) :=
    (isLeaf_label hdigits label).isElement.toIsSolid
  simp [fieldTexts, hlabel, h]

/-- An entry is solid if its weight is. -/
theorem isSolid_entry [LawfulTextual W] (hd : d.validate = .ok ())
    (hdigits : ∀ c ∈ d.characters, c.isDigit = false) {entry : Entry W}
    (h : d.IsSolid (Textual.text d entry.weight)) : d.IsSolid (Textual.text d entry) := by
  rw [text_entry]
  exact Delimiters.isSolid_compose (Delimiters.distinct_of_validate hd) (List.cons_ne_nil _ _)
    (isSolid_fieldTexts hdigits h)

/-- An entry reads back if its weight does, because its labels do. -/
theorem readsBack_entry [LawfulTextual W] (hd : d.validate = .ok ())
    (hdigits : ∀ c ∈ d.characters, c.isDigit = false) {entry : Entry W}
    (h : ReadsBack d same entry.weight) : ReadsBack d (Entry.Same same) entry := by
  obtain ⟨hsolid, weight, hread, hsame⟩ := h
  have hinput := (isLeaf_label hdigits entry.input).isElement
  have houtput := (isLeaf_label hdigits entry.output).isElement
  have hlabel (label : Label) := read_text_label d label
  refine ⟨isSolid_entry hd hdigits hsolid, ⟨entry.input, entry.output, weight⟩, ?_, rfl, rfl, hsame⟩
  rw [text_entry]
  exact read_entry_compose hd hinput houtput hsolid (hlabel _) (hlabel _) hread

theorem line_feed_not_mem {text : List Char} (h : ∀ c ∈ text, Text.isBlank c = false) :
    '\n' ∉ text := by
  intro hmem
  have := h _ hmem
  cases this

/-- The line of an entry adds what the entry reads back as. -/
theorem value_readEntry_entryLine {codex : Codex W} {entry read : Entry W} (number : Nat)
    (hword : Text.IsWord (Textual.text d entry))
    (hread : (Textual.read d (Textual.text d entry)).value = .ok read)
    (hnew : codex.find? read = none) (hlength : codex.entries.length + 1 < 2 ^ 64) :
    (readEntry d number (entryLine d (codex.entries.length + 1) entry) codex).value =
      .ok (codex.push read) := by
  have hdigits := isWord_toDigits (codex.entries.length + 1)
  have htrim : Text.trim (entryLine d (codex.entries.length + 1) entry) =
      entryLine d (codex.entries.length + 1) entry := by
    have := Text.trim_eq_self hdigits hword [' ']
    simpa [entryLine] using this
  have hsplit : Text.splitAtBlank? (entryLine d (codex.entries.length + 1) entry) =
      some (Nat.toDigits 10 (codex.entries.length + 1), Textual.text d entry) :=
    Text.splitAtBlank?_append hdigits (by decide) _
  unfold readEntry
  dsimp only
  rw [htrim, hsplit]
  dsimp only
  rw [Text.trimStart_of_isWord hword, Text.natural?_toDigits (Nat.le_sub_one_of_lt hlength)]
  simp [entryLine, hread, hnew]

theorem beq_of_same (hsame : ∀ a b : W, same a b → (a == b) = true) {a b : Entry W}
    (h : Entry.Same same a b) : (a == b) = true :=
  Entry.beq_iff.mpr ⟨h.1, h.2.1, hsame _ _ h.2.2⟩

/-- What an entry reads back as is new where the entry was. -/
theorem find?_eq_none_of_same [EquivBEq W] (hsame : ∀ a b : W, same a b → (a == b) = true)
    {codex : Codex W} {front : List (Entry W)} {entry read : Entry W}
    (hfront : List.Forall₂ (Entry.Same same) codex.entries front)
    (hread : Entry.Same same read entry) (hnew : ∀ a ∈ front, (entry == a) = false) :
    codex.find? read = none := by
  refine find?_eq_none_iff.mpr fun a ha => ?_
  obtain ⟨b, hb, hab⟩ := exists_of_mem_of_forall₂ hfront ha
  rw [← Bool.not_eq_true]
  intro heq
  have hentry : (entry == b) = true :=
    BEq.trans (BEq.symm (beq_of_same hsame hread)) (BEq.trans heq (beq_of_same hsame hab))
  rw [hnew b hb] at hentry
  cases hentry

/-- Reading the lines of entries adds what the entries read back as, one after the other. -/
theorem readEntries_entryLines [EquivBEq W] [LawfulTextual W] (hd : d.validate = .ok ())
    (hdigits : ∀ c ∈ d.characters, c.isDigit = false)
    (hsame : ∀ a b : W, same a b → (a == b) = true) (codex : Codex W)
    (front : List (Entry W)) {entries : List (Entry W)} (number : Nat)
    (hentries : ∀ e ∈ entries, ReadsBack d same e.weight)
    (hfront : List.Forall₂ (Entry.Same same) codex.entries front)
    (hdistinct : (front ++ entries).Pairwise fun a b => (b == a) = false)
    (hlength : codex.entries.length + entries.length < 2 ^ 64) :
    ∃ reads, (readEntries d number
        ((entryLines d (codex.entries.length + 1) entries).map Utf8.encode) codex).value =
          .ok { flags := codex.flags, entries := codex.entries ++ reads } ∧
      List.Forall₂ (Entry.Same same) reads entries := by
  -- `front` are the entries that the codex was read from so far
  induction entries generalizing front codex number with
  | nil => exact ⟨[], congrArg Except.ok (ext rfl (List.append_nil _).symm), .nil⟩
  | cons entry entries ih =>
    obtain ⟨hentry, hentries⟩ := List.forall_mem_cons.mp hentries
    obtain ⟨hsolid, read, hread, hreadSame⟩ := readsBack_entry hd hdigits hentry
    have hnew : ∀ a ∈ front, (entry == a) = false := fun a ha =>
      (List.pairwise_append.mp hdistinct).2.2 a ha entry List.mem_cons_self
    have hfind := find?_eq_none_of_same hsame hfront hreadSame hnew
    have hpush : (codex.push read).entries.length = codex.entries.length + 1 := by simp [push]
    rw [List.length_cons] at hlength
    obtain ⟨reads, hreads, hall⟩ := ih (codex.push read) (front ++ [entry]) (number + 1) hentries
      (List.rel_append hfront (.cons hreadSame .nil)) (by simpa using hdistinct) (by omega)
    refine ⟨read :: reads, ?_, .cons hreadSame hall⟩
    unfold entryLines
    rw [List.map_cons]
    unfold readEntries
    rw [Utf8.decode?_encode, Traced.value_bind, value_readEntry_entryLine number hsolid.isWord hread
      hfind (by omega)]
    rw [hpush] at hreads
    rw [hreads]
    exact congrArg Except.ok (ext rfl (List.append_assoc codex.entries [read] reads))

theorem line_feed_not_mem_headerLine
    (htype : ∀ c ∈ (Weight.typeName W).toList, Text.isBlank c = false) (codex : Codex W) :
    '\n' ∉ codex.headerLine := by
  have hmark : Text.IsWord mark.toList := by decide
  unfold headerLine
  simp only [List.mem_append, List.mem_cons, not_or]
  exact ⟨line_feed_not_mem hmark.2, by decide, line_feed_not_mem htype, by decide,
    line_feed_not_mem (isWord_toDigits _).2, by decide, line_feed_not_mem (isWord_toDigits _).2⟩

theorem line_feed_not_mem_entryLines {entries : List (Entry W)}
    (h : ∀ e ∈ entries, Text.IsWord (Textual.text d e)) (label : Nat) :
    ∀ line ∈ entryLines d label entries, '\n' ∉ line := by
  induction entries generalizing label with
  | nil => exact fun _ hline => by cases hline
  | cons entry entries ih =>
    obtain ⟨hentry, hentries⟩ := List.forall_mem_cons.mp h
    refine List.forall_mem_cons.mpr ⟨?_, ih hentries (label + 1)⟩
    unfold entryLine
    simp only [List.mem_append, List.mem_cons, not_or]
    exact ⟨line_feed_not_mem (isWord_toDigits _).2, by decide, line_feed_not_mem hentry.2⟩

theorem line_feed_not_mem_lineTexts
    (htype : ∀ c ∈ (Weight.typeName W).toList, Text.isBlank c = false) {codex : Codex W}
    (h : ∀ e ∈ codex.entries, Text.IsWord (Textual.text d e)) :
    ∀ line ∈ lineTexts d codex, '\n' ∉ line :=
  List.forall_mem_cons.mpr
    ⟨line_feed_not_mem_headerLine htype codex, line_feed_not_mem_entryLines h 1⟩

/-- **A codex reads back from its bytes**: the same flags, and as many entries, each of them what it
was but for its weight, which is related. -/
theorem read_bytes [EquivBEq W] [LawfulTextual W] (hd : d.validate = .ok ())
    (hdigits : ∀ c ∈ d.characters, c.isDigit = false)
    (htype : Text.IsWord (Weight.typeName W).toList)
    (hsame : ∀ a b : W, same a b → (a == b) = true) {codex : Codex W} (hdistinct : codex.Distinct)
    (hlength : codex.entries.length < 2 ^ 64)
    (hweights : ∀ e ∈ codex.entries, ReadsBack d same e.weight) :
    ∃ entries, (read d (codex.bytes d)).value = .ok { flags := codex.flags, entries } ∧
      List.Forall₂ (Entry.Same same) entries codex.entries := by
  obtain ⟨entries, hread, hall⟩ := readEntries_entryLines hd hdigits hsame
    (empty codex.flags) [] 2 hweights .nil hdistinct (by simpa using hlength)
  have hwords : ∀ e ∈ codex.entries, Text.IsWord (Textual.text d e) := fun e he =>
    (readsBack_entry hd hdigits (hweights e he)).1.isWord
  have hlines : lines (codex.bytes d) =
      (codex.headerLine :: entryLines d 1 codex.entries).map Utf8.encode := by
    rw [bytes_eq]
    exact lines_encode (line_feed_not_mem_lineTexts htype.2 hwords)
  refine ⟨entries, ?_, hall⟩
  unfold read
  rw [hlines, List.map_cons]
  dsimp only
  rw [Utf8.decode?_encode]
  dsimp only
  rw [readHeader_headerLine htype codex hlength]
  dsimp only
  have hrest : (readEntries d 2 ((entryLines d 1 codex.entries).map Utf8.encode)
      (empty codex.flags)).value = .ok { flags := codex.flags, entries } := hread
  rw [Traced.value_bind, hrest]
  simp [hall.length_eq]

end Codex
end WeightedTransducer
