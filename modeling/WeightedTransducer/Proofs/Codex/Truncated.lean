import WeightedTransducer.Proofs.Codex.Obtained
import WeightedTransducer.Proofs.Composite.Fronts

/-!
# Codices that were cut short

The bytes of a codex with parentheses cannot be cut short without being noticed, unless nothing is
missing but the last line feed (`Codex.read_front`).  Each kind of cut is found out by another
check.  In the first line the number of entries has lost digits and cannot be zero, but no entries
follow (`Codex.eq_of_read_header_front`).  A line adds one entry at most, so no whole line may be
missing (`Codex.length_le_of_readEntries`).  Of a line that was cut, either the text of the entry is
gone, or its parentheses do not match (`Codex.eq_of_readEntry_front`).
-/

namespace WeightedTransducer
namespace Codex
variable {W : Type} [Weight W] {d : Delimiters} {codex grown : Codex W}

/-! ## Entries that were cut short -/

/-- No entry in parentheses is read from the front of its text. -/
theorem eq_of_read_entry_front [LawfulTextual W] (hd : d.validate = .ok ())
    (hp : d.parentheses.isSome) (hdigits : ∀ c ∈ d.characters, c.isDigit = false)
    {entry read : Entry W}
    (hsolid : d.IsSolid (Textual.text d entry.weight)) {front : List Char}
    (hfront : front <+: Textual.text d entry) (h : (Textual.read d front).value = .ok read) :
    front = Textual.text d entry := by
  by_contra hproper
  rw [text_entry] at hfront hproper
  obtain ⟨e, he⟩ := (Reading.encloses_entry (α := W)).exists_error_of_front hd hp
    (List.cons_ne_nil _ _) (isSolid_fieldTexts hdigits hsolid) hfront hproper
  cases h.symm.trans he

/-- Of a line that was cut short, no entry is read. -/
theorem eq_of_readEntry_front [LawfulTextual W] (hd : d.validate = .ok ())
    (hp : d.parentheses.isSome) (hdigits : ∀ c ∈ d.characters, c.isDigit = false) {entry : Entry W}
    (hsolid : d.IsSolid (Textual.text d entry.weight)) {label number : Nat} {front : List Char}
    (hne : front ≠ []) (hfront : front <+: entryLine d label entry)
    (h : (readEntry d number front codex).value = .ok grown) : front = entryLine d label entry := by
  have hlabel := isWord_toDigits label
  have hentry := (isSolid_entry hd hdigits hsolid).isWord
  -- a label alone is no line, with or without a blank behind it
  have halone {word blanks : List Char} (hword : Text.IsWord word)
      (hblanks : Text.AllBlank blanks) : front ≠ word ++ blanks := by
    rintro rfl
    rcases readEntry_cases h with ⟨hnil, -⟩ | ⟨_, _, _, hsplit, -⟩
    · rw [Text.trim_append_of_allBlank hword hblanks] at hnil
      exact hword.1 hnil
    · rw [Text.trim_append_of_allBlank hword hblanks, Text.splitAtBlank?_of_isWord hword] at hsplit
      cases hsplit
  have hnone : Text.AllBlank [] := nofun
  have hblank : Text.AllBlank [' '] := by decide
  rcases prefix_append_cases hfront with hshort | ⟨more, rfl, hmore⟩
  · have hword : Text.IsWord front := ⟨hne, fun c hc => hlabel.2 c (hshort.subset hc)⟩
    exact absurd (List.append_nil front).symm (halone hword hnone)
  · rcases List.prefix_cons_iff.mp hmore with rfl | ⟨text, rfl, htext⟩
    · exact absurd rfl (halone hlabel hnone)
    · by_cases hnil : text = []
      · rw [hnil] at halone
        exact absurd rfl (halone hlabel hblank)
      · have hword : Text.IsWord text := ⟨hnil, fun c hc => hentry.2 c (htext.subset hc)⟩
        have htrim : Text.trim (Nat.toDigits 10 label ++ ' ' :: text) =
            Nat.toDigits 10 label ++ ' ' :: text := by
          have := Text.trim_eq_self hlabel hword [' ']
          simpa using this
        rcases readEntry_cases h with ⟨hempty, -⟩ | ⟨_, _, read, hsplit, -, hread, -⟩
        · rw [htrim] at hempty
          cases (List.append_eq_nil_iff.mp hempty).2
        · rw [htrim, Text.splitAtBlank?_append hlabel (by decide)] at hsplit
          cases hsplit
          rw [Text.trimStart_of_isWord hword] at hread
          rw [eq_of_read_entry_front hd hp hdigits hsolid htext hread]
          rfl

/-! ## Headers that were cut short -/

/-- The first line up to the number of entries, without the blank in front of it. -/
def headerStart (codex : Codex W) : List Char :=
  mark.toList ++ ' ' :: ((Weight.typeName W).toList ++ ' ' :: Nat.toDigits 10 codex.flags.number)

theorem headerLine_eq (codex : Codex W) :
    codex.headerLine = codex.headerStart ++ ' ' :: Nat.toDigits 10 codex.entries.length := by
  simp [headerLine, headerStart]

/-- A header has four words, the last of which is the number of entries. -/
theorem exists_words_of_readHeader {line : List Char} {flags : Flags} {count : Nat}
    (h : readHeader W line = .ok (flags, count)) :
    ∃ first typeName flagsText countText,
      Text.words line = [first, typeName, flagsText, countText] ∧
      Text.natural? (2 ^ 64 - 1) countText = some count := by
  unfold readHeader at h
  split at h
  · rename_i first typeName flagsText countText hwords
    simp only [List.map_eq_cons_iff, List.map_eq_nil_iff] at hwords
    obtain ⟨a, _, hline, -, b, _, rfl, -, c, _, rfl, -, e, _, rfl, rfl, rfl⟩ := hwords
    refine ⟨a, b, c, e, hline, ?_⟩
    split at h
    · cases h
    · split at h
      · cases h
      · split at h
        · cases h
        · split at h
          · cases h
          · rename_i hcount
            rw [String.toList_ofList] at hcount
            rw [hcount, (Prod.mk.inj (Except.ok.inj h)).2]
  · cases h

/-- A front of the first line with four words goes on to the number of entries. -/
theorem exists_digits_of_words
    (htype : ∀ c ∈ (Weight.typeName W).toList, Text.isBlank c = false) {front : List Char}
    (hfront : front <+: codex.headerLine) (hwords : (Text.words front).length = 4) :
    ∃ digits, front = codex.headerStart ++ ' ' :: digits ∧
      digits <+: Nat.toDigits 10 codex.entries.length := by
  have hmark : Text.IsWord mark.toList := by decide
  have hflags := isWord_toDigits codex.flags.number
  rw [headerLine_eq] at hfront
  -- four words take three blanks, and there are two before the one in front of the digits
  have hblanks : codex.headerStart.countP Text.isBlank = 2 := by
    have hspace : Text.isBlank ' ' = true := by decide
    simp [headerStart, List.countP_append, Text.countP_isBlank_eq_zero hmark.2,
      Text.countP_isBlank_eq_zero htype, Text.countP_isBlank_eq_zero hflags.2, hspace]
  have hshort : ¬ front <+: codex.headerStart := by
    intro hshort
    have hcut := hshort.sublist.countP_le (p := Text.isBlank)
    have hfew := Text.length_words_le front
    omega
  obtain ⟨more, rfl, hmore⟩ := (prefix_append_cases hfront).resolve_left hshort
  rcases List.prefix_cons_iff.mp hmore with rfl | ⟨digits, rfl, hdigits⟩
  · rw [List.append_nil] at hshort
    exact absurd (List.prefix_refl _) hshort
  · exact ⟨digits, rfl, hdigits⟩

/-- Four words up to some digits are a mark, a name, flags and the digits. -/
theorem eq_of_words_headerStart
    (htype : ∀ c ∈ (Weight.typeName W).toList, Text.isBlank c = false) {digits : List Char}
    (hdigits : ∀ c ∈ digits, Text.isBlank c = false) {first typeName flagsText last : List Char}
    (h : Text.words (codex.headerStart ++ ' ' :: digits) = [first, typeName, flagsText, last]) :
    Text.IsWord (Weight.typeName W).toList ∧ digits ≠ [] ∧ last = digits := by
  have hspace : Text.isBlank ' ' = true := by decide
  have hmark : Text.IsWord mark.toList := by decide
  have hflags := isWord_toDigits codex.flags.number
  have hrest : codex.headerStart ++ ' ' :: digits =
      mark.toList ++ ' ' :: ((Weight.typeName W).toList ++ ' ' ::
        (Nat.toDigits 10 codex.flags.number ++ ' ' :: digits)) := by
    simp [headerStart]
  rw [hrest, Text.words_append hmark hspace] at h
  by_cases hname : (Weight.typeName W).toList = []
  · -- without a name there are three words at most
    have hfew := Text.length_words_le digits
    rw [Text.countP_isBlank_eq_zero hdigits] at hfew
    rw [hname, List.nil_append, Text.words_cons_blank hspace, Text.words_append hflags hspace] at h
    have hlength := congrArg List.length h
    simp only [List.length_cons, List.length_nil] at hlength
    omega
  · have hword : Text.IsWord (Weight.typeName W).toList := ⟨hname, htype⟩
    rw [Text.words_append hword hspace, Text.words_append hflags hspace] at h
    simp only [List.cons.injEq] at h
    obtain ⟨-, -, -, hlast⟩ := h
    have hne : digits ≠ [] := by
      rintro rfl
      cases hlast
    rw [Text.words_of_isWord ⟨hne, hdigits⟩] at hlast
    exact ⟨hword, hne, (List.cons.inj hlast).1.symm⟩

/-- A front of the first line that is read as a header goes on to the digits of the number of
entries; this also means that the name of the weights is a word. -/
theorem exists_digits_of_readHeader_front
    (htype : ∀ c ∈ (Weight.typeName W).toList, Text.isBlank c = false) {front : List Char}
    (hfront : front <+: codex.headerLine) {flags : Flags} {count : Nat}
    (h : readHeader W front = .ok (flags, count)) :
    Text.IsWord (Weight.typeName W).toList ∧ ∃ digits, front = codex.headerStart ++ ' ' :: digits ∧
      digits ≠ [] ∧ digits <+: Nat.toDigits 10 codex.entries.length ∧
      Text.natural? (2 ^ 64 - 1) digits = some count := by
  obtain ⟨_, _, _, countText, hwords, hcount⟩ := exists_words_of_readHeader h
  obtain ⟨digits, rfl, hdigits⟩ := exists_digits_of_words htype hfront (by rw [hwords]; rfl)
  have hsolid : ∀ c ∈ digits, Text.isBlank c = false := fun c hc =>
    (isWord_toDigits codex.entries.length).2 c (hdigits.subset hc)
  obtain ⟨hword, hne, rfl⟩ := eq_of_words_headerStart htype hsolid hwords
  exact ⟨hword, countText, rfl, hne, hdigits, hcount⟩

/-! ## Lines that are missing -/

theorem length_entryLines (label : Nat) (entries : List (Entry W)) :
    (entryLines d label entries).length = entries.length := by
  induction entries generalizing label with
  | nil => rfl
  | cons entry entries ih => rw [entryLines, List.length_cons, ih, List.length_cons]

theorem exists_entry_of_mem_entryLines {label : Nat} {entries : List (Entry W)} {line : List Char}
    (h : line ∈ entryLines d label entries) :
    ∃ number, ∃ entry ∈ entries, line = entryLine d number entry := by
  induction entries generalizing label with
  | nil => cases h
  | cons entry entries ih =>
    rcases List.mem_cons.mp h with rfl | h
    · exact ⟨label, entry, List.mem_cons_self, rfl⟩
    · obtain ⟨number, other, hother, rfl⟩ := ih h
      exact ⟨number, other, List.mem_cons_of_mem _ hother, rfl⟩

/-- A line adds one entry at most. -/
theorem length_le_of_readEntries {number : Nat} {input : List Bytes}
    (h : (readEntries d number input codex).value = .ok grown) :
    grown.entries.length ≤ codex.entries.length + input.length := by
  induction input generalizing codex number with
  | nil => exact Except.ok.inj h ▸ Nat.le_refl _
  | cons line rest ih =>
    obtain ⟨text, mid, -, hline, hrest⟩ := readEntries_cons_iff.mp h
    have hle := ih hrest
    rw [List.length_cons]
    rcases eq_or_push_of_readEntry hline with rfl | ⟨entry, -, rfl⟩
    · omega
    · simp only [push, List.length_append, List.length_cons, List.length_nil] at hle
      omega

theorem exists_of_readEntries_append {number : Nat} {front back : List Bytes}
    (h : (readEntries d number (front ++ back) codex).value = .ok grown) :
    ∃ mid, (readEntries d number front codex).value = .ok mid ∧
      (readEntries d (number + front.length) back mid).value = .ok grown := by
  induction front generalizing codex number with
  | nil => exact ⟨codex, rfl, h⟩
  | cons line front ih =>
    obtain ⟨text, next, hdecode, hline, hrest⟩ := readEntries_cons_iff.mp h
    obtain ⟨mid, hfront, hback⟩ := ih hrest
    refine ⟨mid, readEntries_cons_iff.mpr ⟨text, next, hdecode, hline, hfront⟩, ?_⟩
    rw [List.length_cons, Nat.add_comm front.length, ← Nat.add_assoc]
    exact hback

/-! ## The whole codex -/

/-- No line of a codex is empty. -/
theorem ne_nil_of_mem_lineTexts {line : List Char} (h : line ∈ lineTexts d codex) : line ≠ [] := by
  rcases List.mem_cons.mp h with rfl | h
  · rw [headerLine_eq]
    simp
  · obtain ⟨number, entry, -, rfl⟩ := exists_entry_of_mem_entryLines h
    simp [entryLine]

/-- A codex that was cut in its first line and is read all the same has no other lines. -/
theorem eq_of_read_header_front
    (htype : ∀ c ∈ (Weight.typeName W).toList, Text.isBlank c = false)
    (hlength : codex.entries.length < 2 ^ 64) {front : List Char}
    (hfront : front <+: codex.headerLine) {flags : Flags}
    (h : readHeader W front = .ok (flags, 0)) :
    codex.entries = [] ∧ front = codex.headerLine := by
  obtain ⟨-, digits, rfl, hne, hdigits, hcount⟩ := exists_digits_of_readHeader_front htype hfront h
  obtain ⟨m, rfl, hle, hzero⟩ := Text.exists_toDigits_of_prefix hne hdigits
  rw [Text.natural?_toDigits (by omega)] at hcount
  obtain rfl : m = 0 := Option.some.inj hcount
  rw [headerLine_eq, hzero rfl]
  exact ⟨List.length_eq_zero_iff.mp (hzero rfl), rfl⟩

/-- Bytes that were cut in the first line. -/
theorem bytes_eq_of_read_header
    (htype : ∀ c ∈ (Weight.typeName W).toList, Text.isBlank c = false)
    (hlength : codex.entries.length < 2 ^ 64) {part : Bytes}
    (hpart : part <+: Utf8.encode codex.headerLine) {read : Codex W}
    (h : (Codex.read d part).value = .ok read) :
    Text.IsWord (Weight.typeName W).toList ∧ codex.bytes d = part ++ [10] := by
  obtain ⟨header, rest, text, flags, hlines, hdecode, hheader, hentries⟩ := exists_of_read_eq_ok h
  have hfeed : ∀ byte ∈ part, (byte == 10) = false := fun byte hbyte =>
    Utf8.ten_not_mem_encode (line_feed_not_mem_headerLine htype codex) byte (hpart.subset hbyte)
  have hne : part ≠ [] := by
    rintro rfl
    cases hlines
  have hline : lines part = [part] := lines_encode_append (List.forall_mem_nil _) hfeed hne
  rw [hline] at hlines
  obtain ⟨rfl, rfl⟩ := List.cons.inj hlines
  have hcount : read.entries.length = 0 := by
    rw [← Except.ok.inj hentries]
    rfl
  rw [hcount] at hheader
  have hfront := Utf8.prefix_of_decode?_eq_some hdecode hpart
  have hword := (exists_digits_of_readHeader_front htype hfront hheader).1
  obtain ⟨hnone, rfl⟩ := eq_of_read_header_front htype hlength hfront hheader
  refine ⟨hword, ?_⟩
  rw [bytes_eq, lineTexts, hnone, encode_unlines_cons, Utf8.encode_of_decode?_eq_some hdecode]
  rfl

/-- The first line is read only if the name of the weights is a word, and says how many entries
there are. -/
theorem length_eq_of_readHeader
    (htype : ∀ c ∈ (Weight.typeName W).toList, Text.isBlank c = false)
    (hlength : codex.entries.length < 2 ^ 64) {flags : Flags} {count : Nat}
    (h : readHeader W codex.headerLine = .ok (flags, count)) :
    Text.IsWord (Weight.typeName W).toList ∧ codex.entries.length = count := by
  have hword := (exists_digits_of_readHeader_front htype (List.prefix_refl codex.headerLine) h).1
  have hread := (readHeader_headerLine hword codex hlength).symm.trans h
  exact ⟨hword, (Prod.mk.inj (Except.ok.inj hread)).2⟩

/-- Where as many entries are read as there are lines, the lines before the cut do not suffice: the
line with the cut is the last, and something of it is left that is read. -/
theorem exists_of_readEntries_cut {front left : List Bytes} {back : Nat} {part : Bytes}
    {flags : Flags} {read : Codex W} (hleft : left = [] ∨ left = [part] ∧ part ≠ [])
    (hcount : read.entries.length = front.length + (back + 1))
    (h : (readEntries d 2 (front ++ left) (empty flags)).value = .ok read) :
    back = 0 ∧ part ≠ [] ∧ ∃ number text, ∃ mid grown : Codex W,
      Utf8.decode? part = some text ∧ (readEntry d number text mid).value = .ok grown := by
  obtain ⟨mid, hfront, hlast⟩ := exists_of_readEntries_append h
  have hmid := length_le_of_readEntries hfront
  have hempty : (empty flags : Codex W).entries.length = 0 := rfl
  have hread := length_le_of_readEntries hlast
  rcases hleft with rfl | ⟨rfl, hne⟩
  · rw [List.length_nil] at hread
    omega
  · rw [List.length_singleton] at hread
    obtain ⟨text, grown, htext, hline, -⟩ := readEntries_cons_iff.mp hlast
    exact ⟨by omega, hne, _, text, mid, grown, htext, hline⟩

/-- Bytes that were cut behind the first line. -/
theorem bytes_eq_of_read_lines [LawfulTextual W] (hd : d.validate = .ok ())
    (hp : d.parentheses.isSome) (hdigits : ∀ c ∈ d.characters, c.isDigit = false)
    (htype : ∀ c ∈ (Weight.typeName W).toList, Text.isBlank c = false)
    (hlength : codex.entries.length < 2 ^ 64)
    (hweights : ∀ e ∈ codex.entries, d.IsSolid (Textual.text d e.weight))
    {front back : List (List Char)} {line : List Char}
    (hall : entryLines d 1 codex.entries = front ++ line :: back) {part : Bytes}
    (hpart : part <+: Utf8.encode line) {read : Codex W}
    (h : (Codex.read d (Utf8.encode (unlines (codex.headerLine :: front)) ++ part)).value =
      .ok read) :
    Text.IsWord (Weight.typeName W).toList ∧
      codex.bytes d = Utf8.encode (unlines (codex.headerLine :: front)) ++ part ++ [10] := by
  obtain ⟨header, rest, text, flags, hlines, hdecode, hheader, hentries⟩ := exists_of_read_eq_ok h
  have hfeed := line_feed_not_mem_lineTexts htype fun e he =>
    (isSolid_entry hd hdigits (hweights e he)).isWord
  rw [lineTexts, hall] at hfeed
  have hbefore : ∀ t ∈ codex.headerLine :: front, '\n' ∉ t := fun t ht =>
    hfeed t (List.mem_append_left (line :: back) ht)
  have hpartFeed : ∀ byte ∈ part, (byte == 10) = false := fun byte hbyte =>
    Utf8.ten_not_mem_encode (hfeed line (by simp)) byte (hpart.subset hbyte)
  obtain ⟨left, hfound, hleft⟩ := exists_left_of_cut hbefore hpartFeed
  rw [hfound] at hlines
  obtain ⟨rfl, rfl⟩ := List.cons.inj hlines
  obtain rfl : codex.headerLine = text :=
    Option.some.inj ((Utf8.decode?_encode _).symm.trans hdecode)
  obtain ⟨hword, hcount⟩ := length_eq_of_readHeader htype hlength hheader
  have htotal : read.entries.length = (front.map Utf8.encode).length + (back.length + 1) := by
    rw [← hcount, ← length_entryLines (d := d) 1 codex.entries, hall, List.length_append,
      List.length_cons, List.length_map]
  obtain ⟨hback, hne, _, text, _, _, htext, hline⟩ :=
    exists_of_readEntries_cut hleft htotal hentries
  obtain rfl := List.length_eq_zero_iff.mp hback
  -- the text that was read is the front of the last line, and therefore all of it
  obtain ⟨number, entry, hentry, rfl⟩ :=
    exists_entry_of_mem_entryLines (hall ▸ List.mem_append_right front List.mem_cons_self)
  have hsome : text ≠ [] := by
    rintro rfl
    exact hne (Utf8.encode_of_decode?_eq_some htext).symm
  have heq := eq_of_readEntry_front hd hp hdigits (hweights entry hentry) hsome
    (Utf8.prefix_of_decode?_eq_some htext hpart) hline
  refine ⟨hword, ?_⟩
  rw [← Utf8.encode_of_decode?_eq_some htext, heq, bytes_eq, lineTexts, hall,
    ← encode_unlines_concat]
  rfl

/-- Where bytes that were cut short are read, nothing but the last line feed is missing. -/
theorem bytes_eq_of_read_front [LawfulTextual W] (hd : d.validate = .ok ())
    (hp : d.parentheses.isSome) (hdigits : ∀ c ∈ d.characters, c.isDigit = false)
    (htype : ∀ c ∈ (Weight.typeName W).toList, Text.isBlank c = false)
    (hlength : codex.entries.length < 2 ^ 64)
    (hweights : ∀ e ∈ codex.entries, d.IsSolid (Textual.text d e.weight)) {cut : Bytes}
    (hcut : cut <+: codex.bytes d) (hne : cut ≠ codex.bytes d) {read : Codex W}
    (h : (Codex.read d cut).value = .ok read) :
    Text.IsWord (Weight.typeName W).toList ∧ codex.bytes d = cut ++ [10] := by
  rw [bytes_eq] at hcut hne
  obtain ⟨front, line, back, part, htexts, rfl, hpart⟩ := exists_cut_of_prefix hcut hne
  cases front with
  | nil =>
    obtain ⟨rfl, -⟩ := List.cons.inj htexts
    exact bytes_eq_of_read_header htype hlength hpart h
  | cons first front =>
    obtain ⟨rfl, hall⟩ := List.cons.inj htexts
    exact bytes_eq_of_read_lines hd hp hdigits htype hlength hweights hall hpart h

/-- Without its last line feed a codex is read as with it. -/
theorem read_of_missing_line_feed [LawfulTextual W] (hd : d.validate = .ok ())
    (hdigits : ∀ c ∈ d.characters, c.isDigit = false)
    (htype : ∀ c ∈ (Weight.typeName W).toList, Text.isBlank c = false)
    (hweights : ∀ e ∈ codex.entries, d.IsSolid (Textual.text d e.weight)) {cut : Bytes}
    (hcut : codex.bytes d = cut ++ [10]) :
    (Codex.read d cut : Traced (Except CodexError (Codex W))) = Codex.read d (codex.bytes d) := by
  have hfeed := line_feed_not_mem_lineTexts htype fun e he =>
    (isSolid_entry hd hdigits (hweights e he)).isWord
  have hlines : lines cut = lines (codex.bytes d) := by
    rw [bytes_eq] at hcut ⊢
    rw [lines_encode hfeed]
    exact lines_of_missing_line_feed hfeed (fun _ => ne_nil_of_mem_lineTexts) hcut
  unfold Codex.read
  rw [hlines]

/-- **A codex that was cut short is not read**, unless nothing but the last line feed is missing;
then it reads back as one that cannot be told from it. -/
theorem read_front [EquivBEq W] [LawfulTextual W] (hd : d.validate = .ok ())
    (hp : d.parentheses.isSome) (hdigits : ∀ c ∈ d.characters, c.isDigit = false)
    (htype : ∀ c ∈ (Weight.typeName W).toList, Text.isBlank c = false) (hcodex : codex.Obtained)
    (hlength : codex.entries.length < 2 ^ 64)
    (hweights : ∀ e ∈ codex.entries, ReadsBack d (fun a b => (a == b) = true) e.weight)
    {cut : Bytes} (hcut : cut <+: codex.bytes d) (hne : cut ≠ codex.bytes d) :
    (∀ read : Codex W, (Codex.read d cut).value = .ok read →
      codex.bytes d = cut ++ [10] ∧ read.Agrees codex) ∧
    ((Weight.typeName W).toList ≠ [] → codex.bytes d = cut ++ [10] →
      ∃ read, (Codex.read d cut).value = .ok read ∧ read.Agrees codex) := by
  have hsolid : ∀ e ∈ codex.entries, d.IsSolid (Textual.text d e.weight) :=
    fun e he => (hweights e he).1
  have hagrees (hword : Text.IsWord (Weight.typeName W).toList)
      (hfeed : codex.bytes d = cut ++ [10]) :
      ∃ read, (Codex.read d cut).value = .ok read ∧ read.Agrees codex := by
    obtain ⟨entries, hread, hall⟩ :=
      read_bytes hd hdigits hword (fun _ _ h => h) hcodex.distinct hlength hweights
    have hbeq := hall.imp fun a b h => beq_of_same (fun _ _ h => h) h
    rw [read_of_missing_line_feed hd hdigits htype hsolid hfeed]
    exact ⟨_, hread, agrees_of_forall₂ rfl hbeq⟩
  constructor
  · intro read h
    obtain ⟨hword, hfeed⟩ :=
      bytes_eq_of_read_front hd hp hdigits htype hlength hsolid hcut hne h
    obtain ⟨same, hsame, hagree⟩ := hagrees hword hfeed
    obtain rfl : read = same := Except.ok.inj (h.symm.trans hsame)
    exact ⟨hfeed, hagree⟩
  · intro hname hfeed
    exact hagrees ⟨hname, htype⟩ hfeed

/-- A codex with a pair in parentheses of two bytes each: it is read without its line feed, and not
if the last parenthesis has lost its second byte. -/
theorem read_front_of_pair :
    let d : Delimiters := ⟨'→', some ('«', '»')⟩
    let k : WeightKind := .product .tropical .log
    let w : k.Carrier := (⟨⟨.quiet true⟩, ⟨.zero true⟩⟩ : Product Tropical Log)
    let codex : Codex k.Carrier := (((empty ⟨true, true⟩ : Codex k.Carrier).encode
      0 0 Weight.one).2.encode 1 2 w).2
    let bytes := codex.bytes d
    d.validate = .ok () ∧ d.parentheses.isSome ∧ codex.Obtained ∧
      codex.entries.length < 2 ^ 64 ∧ bytes.dropLast <+: bytes ∧
      (∃ read, (Codex.read d bytes.dropLast).value = .ok read ∧ read.Agrees codex) ∧
      ∀ read : Codex k.Carrier, (Codex.read d bytes.dropLast.dropLast).value ≠ .ok read := by
  intro d k w codex bytes
  have hk : k.OfCosts := ⟨trivial, trivial⟩
  have hcosts : d.AvoidsCosts := Delimiters.avoidsCosts_of_characters (by decide)
  have hweights : ∀ e ∈ codex.entries, ReadsBack d (fun a b => (a == b) = true) e.weight :=
    fun e _ => WeightKind.readsBack rfl hcosts hk (Or.inl rfl) e.weight
  have hcodex : codex.Obtained := .encode (.encode (.fresh _) 0 0 Weight.one) 1 2 w
  have hlength : codex.entries.length < 2 ^ 64 := by decide +kernel
  have hname := WeightKind.isWord_typeName hk
  have hbytes : bytes = bytes.dropLast ++ [10] := by decide +kernel
  have hread {cut : Bytes} (hcut : cut <+: bytes) (hne : cut ≠ bytes) :=
    read_front rfl rfl hcosts.isDigit_eq_false hname.2 hcodex hlength hweights hcut hne
  refine ⟨rfl, rfl, hcodex, hlength, List.dropLast_prefix bytes, ?_, ?_⟩
  · exact (hread (List.dropLast_prefix bytes) (by decide +kernel)).2 hname.1 hbytes
  · intro read h
    have hcut : bytes.dropLast.dropLast <+: bytes :=
      (List.dropLast_prefix _).trans (List.dropLast_prefix _)
    have hfeed := ((hread hcut (by decide +kernel)).1 read h).1
    revert hfeed
    decide +kernel

end Codex
end WeightedTransducer
