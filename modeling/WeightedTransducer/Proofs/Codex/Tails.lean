import WeightedTransducer.Proofs.Codex.Lines
import WeightedTransducer.Proofs.Codex.Reading
import WeightedTransducer.Proofs.Composite.TupleText

/-!
# What a line may have behind its entry

A reader looks at one character behind a value.  If that is white space, the value is complete, and
nothing of what follows is looked at; so a line of a codex holds a label and a tuple, and then
anything at all behind white space (`Codex.isEntryLine_iff`).  Whatever is put there, the codex that
is read stays the same (`Codex.read_ignores_tails`).
-/

namespace WeightedTransducer

/-! ## Lines that go on behind white space -/

namespace Text

/-- The last field of a line is not empty. -/
theorem Fields.text_ne_nil {line word text : List Char} (h : Fields line word text) :
    text ≠ [] := by
  rintro rfl
  obtain ⟨gap, htrim, hword, hgap, hne, -⟩ := h
  have hend := trimEnd_trim line
  rw [htrim, List.append_nil, trimEnd_append_eq (trimEnd_of_isWord hword),
    trimEnd_eq_nil_iff.mpr hgap] at hend
  exact hne (List.append_cancel_left hend).symm

/-- A line that goes on behind white space has the same fields, with what is behind in the last. -/
theorem Fields.append {line word text tail : List Char} (h : Fields line word text)
    (htail : StartsBlank tail) :
    ∃ behind, StartsBlank behind ∧ Fields (line ++ tail) word (text ++ behind) := by
  have hne := h.text_ne_nil
  obtain ⟨gap, htrim, hword, hgap, hgapne, hsolid⟩ := h
  obtain ⟨front, back, hline, hfront, hback⟩ := exists_eq_append_trim line
  -- the blanks that were trimmed now stand between the text and what follows it
  have hbehind : StartsBlank (back ++ tail) := by
    by_cases hnil : back = []
    · rwa [hnil]
    · exact hback.startsBlank hnil tail
  refine ⟨trimEnd (back ++ tail),
    fun c hc => hbehind c (mem_head?_of_front (prefix_trimEnd _) hc), gap, ?_, hword, hgap,
    hgapne, ?_⟩
  · have hstart : trimStart (line ++ tail) = trim line ++ (back ++ tail) := by
      refine trimStart_eq_iff.mpr ⟨front, ?_, hfront, ?_⟩
      · conv_lhs => rw [hline]
        simp
      · rw [htrim, List.append_assoc, List.append_assoc]
        exact hword.startsSolid _
    conv_lhs => unfold trim
    rw [hstart, trimEnd_append_eq (trimEnd_trim line), htrim, List.append_assoc]
  · obtain ⟨c, text, rfl⟩ := List.exists_cons_of_ne_nil hne
    exact fun x hx => hsolid x hx

end Text

namespace Delimiters
variable {d : Delimiters} {tail : List Char} (htail : Text.StartsBlank tail)
include htail

theorem EndsAt.append {depth : Nat} {ahead : List Char} (h : d.EndsAt depth ahead) :
    d.EndsAt depth (ahead ++ tail) := by
  match depth, h with
  | 0, h => exact Text.StartsBlank.append h htail
  | 1, ⟨gap, behind, hahead, hgap, hbehind⟩ =>
    refine ⟨gap, behind ++ tail, ?_, hgap, hbehind.append htail⟩
    rw [hahead, List.append_assoc]

theorem Components.append {depth : Nat} {texts : List (List Char)} {input : List Char}
    (h : d.Components depth texts input) : d.Components depth texts (input ++ tail) := by
  induction h with
  | last hne htaken hends =>
    rw [List.append_assoc]
    exact .last hne htaken (hends.append htail)
  | separated hne htaken hdepth _ ih =>
    rw [List.append_assoc]
    exact .separated hne htaken hdepth ih
  | closed hc hne htaken hdepth _ ih =>
    rw [List.append_assoc]
    exact .closed hc hne htaken hdepth ih

theorem IsTuple.append {firsts : List (List Char)} {last text : List Char}
    (h : d.IsTuple firsts last text) : d.IsTuple firsts last (text ++ tail) := by
  obtain ⟨hfirsts, hlast, front, gap, behind, rfl, hfront, hgap, hbehind⟩ := h
  exact ⟨hfirsts, hlast, front, gap, behind ++ tail, by simp, hfront, hgap, hbehind.append htail⟩

theorem ClosedEarly.append {firsts : List (List Char)} {last text : List Char}
    (h : d.ClosedEarly firsts last text) : d.ClosedEarly firsts last (text ++ tail) := by
  obtain ⟨inner, outer, hsplit, hne, hinner, front, c, behind, rfl, hfront, hc, hbehind⟩ := h
  exact ⟨inner, outer, hsplit, hne, hinner, front, c, behind ++ tail, by simp, hfront, hc,
    hbehind.append htail⟩

end Delimiters

namespace Codex
variable {W : Type} [Weight W] {d : Delimiters} {codex : Codex W}

/-- A line that, between white space, is a label and a text of the form of an entry, or one that was
closed early, from which the fields of the entry are read.  Both forms may have anything at all
behind white space at their end. -/
def HoldsTuple (d : Delimiters) (label : Nat) (line : List Char) (entry : Entry W) : Prop :=
  ∃ word text input output weight, Text.Fields line word text ∧
    Text.natural? (2 ^ 64 - 1) word = some label ∧
    (d.IsTuple [input, output] weight text ∨ d.ClosedEarly [input, output] weight text) ∧
    (Textual.read d input).value = .ok entry.input ∧
    (Textual.read d output).value = .ok entry.output ∧
    (Textual.read d weight).value = .ok entry.weight

theorem isEntryLine_iff (hd : d.validate = .ok ()) {label : Nat} {line : List Char}
    {entry : Entry W} : IsEntryLine d label line entry ↔ HoldsTuple d label line entry := by
  constructor
  · rintro ⟨word, text, hfields, hlabel, hread⟩
    obtain ⟨input, output, weight, hform, hinput, houtput, hweight⟩ :=
      (Reading.read_entry_eq_ok_iff hd).mp hread
    exact ⟨word, text, input, output, weight, hfields, hlabel, hform, hinput, houtput, hweight⟩
  · rintro ⟨word, text, input, output, weight, hfields, hlabel, hform, hinput, houtput, hweight⟩
    exact ⟨word, text, hfields, hlabel, (Reading.read_entry_eq_ok_iff hd).mpr
      ⟨input, output, weight, hform, hinput, houtput, hweight⟩⟩

theorem HoldsTuple.append {label : Nat} {line tail : List Char} {entry : Entry W}
    (h : HoldsTuple d label line entry) (htail : Text.StartsBlank tail) :
    HoldsTuple d label (line ++ tail) entry := by
  obtain ⟨word, text, input, output, weight, hfields, hlabel, hform, hreads⟩ := h
  obtain ⟨behind, hbehind, hfields⟩ := hfields.append htail
  exact ⟨word, text ++ behind, input, output, weight, hfields, hlabel,
    hform.imp (Delimiters.IsTuple.append hbehind) (Delimiters.ClosedEarly.append hbehind), hreads⟩

/-- A line that is another one and goes on behind white space; a blank line stays blank. -/
def GoesOn (line longer : Bytes) : Prop :=
  ∃ text tail, Utf8.decode? line = some text ∧ Utf8.decode? longer = some (text ++ tail) ∧
    Text.StartsBlank tail ∧ (Text.AllBlank text → Text.AllBlank tail)

theorem HoldEntries.of_goesOn (hd : d.validate = .ok ()) {first : Nat} {input longer : List Bytes}
    (hlines : List.Forall₂ GoesOn input longer) {entries : List (Entry W)}
    (h : HoldEntries d first input entries) : HoldEntries d first longer entries := by
  induction hlines generalizing first entries with
  | nil => exact h
  | cons hline _ ih =>
    obtain ⟨text, tail, htext, hlonger, htail, hstays⟩ := hline
    obtain ⟨text', htext', hcases⟩ := holdEntries_cons_iff.mp h
    cases htext.symm.trans htext'
    refine holdEntries_cons_iff.mpr ⟨text ++ tail, hlonger, ?_⟩
    rcases hcases with ⟨hblank, hrest⟩ | ⟨hne, entry, more, rfl, hentry, hrest⟩
    · refine .inl ⟨fun c hc => ?_, ih hrest⟩
      exact (List.mem_append.mp hc).elim (hblank c) (hstays hblank c)
    · refine .inr ⟨fun hall => hne fun c hc => hall c (List.mem_append_left _ hc), entry, more, rfl,
        ?_, ih hrest⟩
      exact (isEntryLine_iff hd).mpr (((isEntryLine_iff hd).mp hentry).append htail)

/-- **What stands behind an entry is not looked at.**  Some bytes are read as a codex exactly if
they have its first line and every other line that is not blank holds a label and a tuple, its next
entry.  Lines that go on behind white space, with anything at all, are read as the same codex. -/
theorem read_ignores_tails (hd : d.validate = .ok ()) :
    (∀ (input : Bytes) (codex : Codex W), (read d input).value = .ok codex ↔
      ∃ (header : Bytes) (text : List Char) (rest : List Bytes) (texts : List (List Char)),
        lines input = header :: rest ∧ Utf8.decode? header = some text ∧
        IsHeader W text codex.flags codex.entries.length ∧
        rest.map Utf8.decode? = texts.map some ∧
        List.Forall₂ (fun line entry => HoldsTuple d line.2 line.1 entry)
          ((texts.filter fun text => ¬ Text.AllBlank text).zipIdx 1) codex.entries ∧
        codex.Distinct) ∧
    ∀ (input longer header : Bytes) (rest more : List Bytes) (codex : Codex W),
      lines input = header :: rest → lines longer = header :: more →
      List.Forall₂ GoesOn rest more → (read d input).value = .ok codex →
      (read d longer).value = .ok codex := by
  constructor
  · intro input codex
    rw [value_read_eq_ok_iff]
    constructor
    · rintro ⟨header, text, rest, hlines, htext, hheader, ⟨texts, htexts, hall⟩, hdistinct⟩
      exact ⟨header, text, rest, texts, hlines, htext, hheader, htexts,
        hall.imp fun _ _ => (isEntryLine_iff hd).mp, hdistinct⟩
    · rintro ⟨header, text, rest, texts, hlines, htext, hheader, htexts, hall, hdistinct⟩
      exact ⟨header, text, rest, hlines, htext, hheader,
        ⟨texts, htexts, hall.imp fun _ _ => (isEntryLine_iff hd).mpr⟩, hdistinct⟩
  · intro input longer header rest more codex hinput hlonger hgoesOn h
    obtain ⟨header', text, rest', hlines, htext, hheader, hentries, hdistinct⟩ :=
      value_read_eq_ok_iff.mp h
    cases hinput.symm.trans hlines
    exact value_read_eq_ok_iff.mpr ⟨header, text, more, hlonger, htext, hheader,
      hentries.of_goesOn hd hgoesOn, hdistinct⟩

/-- A tuple in parentheses with a word and one more parenthesis behind it. -/
theorem read_ignores_tails_of_word :
    let d : Delimiters := ⟨',', some ('(', ')')⟩
    let header := "wfst-codex tropical 1 1".toList
    let line := "1 (1,0,0 )".toList
    let tail := " junk)".toList
    let input := Utf8.encode (unlines [header, line])
    let longer := Utf8.encode (unlines [header, line ++ tail])
    d.validate = .ok () ∧ ∃ codex : Codex Tropical, (read d input).value = .ok codex ∧
      (read d longer).value = .ok codex := by
  intro d header line tail input longer
  have hcheck : ((read d input : Traced (Except CodexError (Codex Tropical))).value.toOption.any
      fun _ => true) = true := by
    decide +kernel
  obtain ⟨codex, hread, -⟩ := exists_of_any_toOption hcheck
  have hlines : lines input = [Utf8.encode header, Utf8.encode line] := lines_encode (by decide)
  have hlonger : lines longer = [Utf8.encode header, Utf8.encode (line ++ tail)] :=
    lines_encode (by decide)
  have hgoesOn : GoesOn (Utf8.encode line) (Utf8.encode (line ++ tail)) :=
    ⟨line, tail, Utf8.decode?_encode line, Utf8.decode?_encode (line ++ tail), by decide,
      fun hblank => absurd hblank (by decide)⟩
  exact ⟨rfl, codex, hread, (read_ignores_tails rfl).2 input longer _ _ _ codex hlines hlonger
    (.cons hgoesOn .nil) hread⟩

/-- **A line of three words that is read as an entry.** -/
theorem read_of_three_words :
    let line := "1 1,0,0 junk".toList
    let input := Utf8.encode (unlines ["wfst-codex tropical 1 1".toList, line])
    (Text.words line).length = 3 ∧ ∃ codex : Codex Tropical, (read {} input).value = .ok codex ∧
      (codex.entries == [⟨1, 0, Weight.one⟩]) = true := by
  intro line input
  have hcheck : ((read {} input : Traced (Except CodexError (Codex Tropical))).value.toOption.any
      fun codex => codex.entries == [⟨1, 0, Weight.one⟩]) = true := by
    decide +kernel
  exact ⟨by decide, exists_of_any_toOption hcheck⟩

end Codex
end WeightedTransducer
