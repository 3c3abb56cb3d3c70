import WeightedTransducer.Proofs.Composite.Depth
import WeightedTransducer.Proofs.Composite.RoundTrip

/-!
# Composite values that were cut short

A value in parentheses is not read from a proper front of its text
(`Composed.read_front_of_plain`).  The cut may have left what looks complete one level further in,
so the reason lies in the parentheses of the whole front: lists, pairs and codex entries are all
taken between an opening parenthesis and the closing of the value (`Reading.Encloses`), so a word
that one of them is read from closes what it opens (`Reading.Encloses.closed_eq_opened`), whereas in
a front of a value the first parenthesis stays open.
-/

namespace WeightedTransducer
variable {d : Delimiters}

namespace Reading
variable {α β : Type}

/-- A reading that takes the opening parenthesis of a value first and closes the value last. -/
def Encloses (reading : Reading α) : Prop :=
  ∀ (d : Delimiters) (input : List Char) (r : CompositeReader) (a : α) (r' : CompositeReader),
    CompositeReader.Reached d input r → reading.Yields r a r' →
      ∃ inside mid last, opening.Yields r () inside ∧ CompositeReader.Reached d input mid ∧
        closing.Yields mid () last

section Readings
variable [Textual α] [Textual β]

theorem reached_of_yields_elements {input : List Char} {r r' : CompositeReader} {values : List α}
    (hr : CompositeReader.Reached d input r) (h : Yields elements r values r') :
    CompositeReader.Reached d input r' := by
  induction values generalizing r with
  | nil => rcases yields_elements_iff.mp h with ⟨_, _, hnil⟩ | ⟨_, _, _, _, _, hnil⟩ <;> cases hnil
  | cons v others ih =>
    rcases yields_elements_iff.mp h with ⟨a, hlast, -⟩ | ⟨a, mid, rest, hfirst, hrest, heq⟩
    · exact (hr.element false).of_yields hlast
    · cases heq
      exact ih ((hr.element false).of_yields hfirst) hrest

theorem encloses_sequence : Encloses (sequence : Reading (List α)) := by
  intro d input r values r' hr h
  obtain ⟨inside, mid, hopening, helements, hclosing⟩ := yields_sequence_iff.mp h
  have hinside := hr.opening.of_yields hopening
  exact ⟨inside, mid, r', hopening, reached_of_yields_elements hinside helements, hclosing⟩

theorem encloses_product : Encloses (Product.reading : Reading (Product α β)) := by
  intro d input r w r' hr h
  obtain ⟨inside, hopening, _, mid, hfirst, _, last, r'', hsecond, hclosing⟩ :=
    yields_product_iff.mp ⟨r', h⟩
  have hinside := hr.opening.of_yields hopening
  have hmid := (hinside.element false).of_yields hfirst
  exact ⟨inside, last, r'', hopening, (hmid.element true).of_yields hsecond, hclosing⟩

theorem encloses_entry : Encloses (Entry.reading : Reading (Entry α)) := by
  intro d input r e r' hr h
  obtain ⟨inside, hopening, _, mid, hinput, _, mid', houtput, _, last, r'', hweight, hclosing⟩ :=
    yields_entry_iff.mp ⟨r', h⟩
  have hinside := hr.opening.of_yields hopening
  have hmid := (hinside.element false).of_yields hinput
  have hmid' := (hmid.element false).of_yields houtput
  exact ⟨inside, last, r'', hopening, (hmid'.element true).of_yields hweight, hclosing⟩

end Readings

namespace Encloses
variable {reading : Reading α} (h : reading.Encloses)
include h

/-- A text without blanks from which a value in parentheses is read is not empty, and closes what it
opens. -/
theorem closed_eq_opened (hd : d.validate = .ok ()) (hp : d.parentheses.isSome) {text : List Char}
    (hblank : ∀ c ∈ text, Text.isBlank c = false) {a : α}
    (hread : (runOn d text reading).value = .ok a) :
    text ≠ [] ∧ d.closed text = d.opened text := by
  obtain ⟨r', hyields⟩ := (runOn_eq_ok_iff hd).mp hread
  have hstart : CompositeReader.Reached d text { delimiters := d, ahead := text } :=
    CompositeReader.value_start hd text ▸ .start
  obtain ⟨inside, mid, last, hopening, hmid, hclosing⟩ := h _ _ _ _ _ hstart hyields
  constructor
  · rintro rfl
    obtain ⟨⟨o, c⟩, hboth⟩ := Option.isSome_iff_exists.mp hp
    obtain ⟨front, body, hempty, -⟩ := (yields_opening_iff hd).mp hopening
    rw [Delimiters.opening_of_some hboth] at hempty
    simp at hempty
  · obtain ⟨used, htext, hcount, hends⟩ := hmid.exists_used_of_yields_closing hd hp hclosing
    -- there are no blanks, so nothing is left behind the value
    have hnothing : last.ahead = [] := by
      rcases hahead : last.ahead with _ | ⟨c, rest⟩
      · rfl
      · have hc := hblank c (by rw [htext, hahead]; simp)
        rw [hahead] at hends
        rw [hends c rfl] at hc
        cases hc
    rw [hnothing, List.append_nil] at htext
    rw [htext]
    exact hcount

/-- **A value in parentheses is not read from a proper front of its text.** -/
theorem exists_error_of_front (hd : d.validate = .ok ()) (hp : d.parentheses.isSome)
    {texts : List (List Char)} (hne : texts ≠ []) (htexts : ∀ t ∈ texts, d.IsSolid t)
    {front : List Char} (hfront : front <+: d.compose texts) (hproper : front ≠ d.compose texts) :
    ∃ e, (runOn d front reading).value = .error e := by
  have hdistinct := Delimiters.distinct_of_validate hd
  have hword := (Delimiters.isSolid_compose hdistinct hne htexts).isWord
  cases hread : (runOn d front reading).value with
  | error e => exact ⟨e, rfl⟩
  | ok a =>
    exfalso
    obtain ⟨hfrontNe, hmatch⟩ :=
      h.closed_eq_opened hd hp (fun c hc => hword.2 c (hfront.subset hc)) hread
    obtain ⟨⟨o, c⟩, hboth⟩ := Option.isSome_iff_exists.mp hp
    have ho := Delimiters.opening_of_some hboth
    have hcompose : d.compose texts = o :: [d.separator].intercalate texts ++ [c] := by
      rw [Delimiters.compose, ho, Delimiters.closing_of_some hboth]
      rfl
    rw [hcompose] at hfront hproper
    have hbody := Delimiters.isSolid_intercalate hdistinct hne htexts
    have hopen :=
      hbody.balanced.closed_lt_opened_of_prefix hdistinct ho hfront hfrontNe hproper
    omega

end Encloses
end Reading

namespace Composed

/-- **No value in parentheses is read from a proper front of its text**, however deep its lists,
pairs and entries are nested and whatever its leaves are; from the whole text it is read if its
leaves are. -/
theorem read_front_of_plain (hd : d.validate = .ok ()) (hp : d.parentheses.isSome) {t : Composed}
    (ht : t.IsComposite) {v : t.Carrier} (hv : t.Plain d v) :
    (∀ front, front <+: Textual.text d v → front ≠ Textual.text d v →
      ∃ e, (Textual.read d front : Traced (Except ReadError t.Carrier)).value = .error e) ∧
    (t.Legible d v →
      ∃ w, (Textual.read d (Textual.text d v)).value = .ok w ∧ (w == v) = true) := by
  refine ⟨?_, fun hlegible => (isElement_and_reads hd hp t v hlegible).2⟩
  intro front hfront hproper
  rw [text_eq_compose ht] at hfront hproper
  have hne := texts_ne_nil ht hv
  have hsolid : ∀ s ∈ t.texts d v, d.IsSolid s := fun s hs =>
    ((isElement_text hd hp t v hv).2 s hs).toIsSolid
  cases t with
  | simple α => exact ht.elim
  | list element =>
    exact Reading.encloses_sequence.exists_error_of_front hd hp hne hsolid hfront hproper
  | product first second =>
    exact Reading.encloses_product.exists_error_of_front hd hp hne hsolid hfront hproper
  | entry weight =>
    exact Reading.encloses_entry.exists_error_of_front hd hp hne hsolid hfront hproper

/-- An entry whose weight is a list of pairs, cut behind an inner parenthesis. -/
theorem read_front_of_inner_value :
    let d : Delimiters := ⟨';', some ('[', ']')⟩
    let t : Composed := .entry (.list (.product (.simple String) (.simple Label)))
    let v : t.Carrier := (⟨7, 0, [⟨"ab", 1⟩, ⟨"c", 23⟩]⟩ : Entry (List (Product String Label)))
    let front := "[7;0;[[ab;1];[c;23]]".toList
    d.validate = .ok () ∧ d.parentheses.isSome ∧ t.IsComposite ∧ t.Plain d v ∧
      front <+: Textual.text d v ∧ front ≠ Textual.text d v ∧
      ∃ e, (Textual.read d front : Traced (Except ReadError t.Carrier)).value = .error e := by
  intro d t v front
  have hlabel (label : Label) : d.IsPlain (Textual.text d label) :=
    (isLeaf_label (by decide) label).isPlain
  have hword (word : String) (hne : word.toList ≠ [])
      (h : ∀ c ∈ word.toList, Text.isBlank c = false ∧ c ∉ d.characters) :
      d.IsPlain (Textual.text d word) :=
    (isLeaf_word hne h).isPlain
  have hplain : t.Plain d v := by
    refine ⟨hlabel 7, hlabel 0, nofun, List.forall_mem_cons.mpr ⟨?_, ?_⟩⟩
    · exact ⟨hword "ab" (by decide) (by decide), hlabel 1⟩
    · exact List.forall_mem_cons.mpr ⟨⟨hword "c" (by decide) (by decide), hlabel 23⟩, nofun⟩
  have htext : Textual.text d v = front ++ [']'] := by decide
  have hfront : front <+: Textual.text d v := htext ▸ List.prefix_append front [']']
  have hproper : front ≠ Textual.text d v := by
    rw [htext]
    decide
  exact ⟨rfl, rfl, trivial, hplain, hfront, hproper,
    (read_front_of_plain (t := t) rfl rfl trivial hplain).1 front hfront hproper⟩

end Composed
end WeightedTransducer
