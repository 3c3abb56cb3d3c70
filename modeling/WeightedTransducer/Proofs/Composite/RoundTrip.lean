import WeightedTransducer.Proofs.Composite.SequenceText
import WeightedTransducer.Proofs.Composite.TupleText
import WeightedTransducer.Proofs.Number.NumberText

/-!
# Composite values read back

The composite values of this library are lists, pairs and codex entries.  Each is read back from its
text if its elements are read back from theirs (`read_list_compose`, `read_product_compose`,
`read_entry_compose`), where all elements but the last of a pair or entry must be kept together by a
reader (`Delimiters.IsElement`).  Parentheses around solid texts see to that, so by induction over
the type every value that is composed of leaves reads back, however deep
(`Composed.read_text_of_legible`).
-/

namespace WeightedTransducer
variable {d : Delimiters}

/-! ## From the elements to the value -/

section Composite
variable {α β : Type} [Textual α] [Textual β]

/-- The text of a list reads back element by element. -/
theorem read_list_compose (hd : d.validate = .ok ()) {texts : List (List Char)} {values : List α}
    (hne : texts ≠ []) (htexts : ∀ t ∈ texts, d.IsElement t)
    (hreads : List.Forall₂ (fun t v => (Textual.read d t).value = .ok v) texts values) :
    (Textual.read d (d.compose texts) : Traced (Except ReadError (List α))).value = .ok values := by
  refine Reading.sequence_eq_ok_of_isSequence hd
    ⟨hne, htexts, [], [], [], ?_, nofun, d.isGap_nil false, nofun⟩ hreads
  simp [Delimiters.compose]

/-- The text of a pair reads back. -/
theorem read_product_compose (hd : d.validate = .ok ()) {s t : List Char} {a : α} {b : β}
    (hs : d.IsElement s) (ht : d.IsSolid t) (ha : (Textual.read d s).value = .ok a)
    (hb : (Textual.read d t).value = .ok b) :
    (Textual.read d (d.compose [s, t]) : Traced (Except ReadError (Product α β))).value =
      .ok ⟨a, b⟩ := by
  have htuple : d.IsTuple [s] t (d.compose [s, t]) :=
    Delimiters.isTuple_compose (by simpa using hs) ht
  exact (Reading.read_product_eq_ok_iff hd).mpr ⟨s, t, Or.inl htuple, ha, hb⟩

/-- The text of a codex entry reads back. -/
theorem read_entry_compose (hd : d.validate = .ok ()) {s t u : List Char} {i o : Label} {a : α}
    (hs : d.IsElement s) (ht : d.IsElement t) (hu : d.IsSolid u)
    (hi : (Textual.read d s).value = .ok i) (ho : (Textual.read d t).value = .ok o)
    (ha : (Textual.read d u).value = .ok a) :
    (Textual.read d (d.compose [s, t, u]) : Traced (Except ReadError (Entry α))).value =
      .ok ⟨i, o, a⟩ := by
  have htuple : d.IsTuple [s, t] u (d.compose [s, t, u]) :=
    Delimiters.isTuple_compose (by simpa using ⟨hs, ht⟩) hu
  exact (Reading.read_entry_eq_ok_iff hd).mpr ⟨s, t, u, Or.inl htuple, hi, ho, ha⟩

end Composite

/-! ## Leaves -/

/-- A text without white space and delimiters. -/
structure Delimiters.IsPlain (d : Delimiters) (text : List Char) : Prop where
  ne_nil : text ≠ []
  not_blank : ∀ c ∈ text, Text.isBlank c = false
  not_delimiter : ∀ c ∈ text, c ∉ d.characters

theorem Delimiters.IsPlain.isElement {text : List Char} (h : d.IsPlain text) : d.IsElement text :=
  isElement_of_plain h.ne_nil h.not_blank h.not_delimiter

/-- An element that is safe wherever it stands in a composite value: its text has no white space and
no delimiters, and is read back to an equal value. -/
structure IsLeaf (d : Delimiters) {α : Type} [Textual α] [BEq α] (a : α) : Prop where
  ne_nil : Textual.text d a ≠ []
  not_blank : ∀ c ∈ Textual.text d a, Text.isBlank c = false
  not_delimiter : ∀ c ∈ Textual.text d a, c ∉ d.characters
  reads_back : ∃ b, (Textual.read d (Textual.text d a)).value = .ok b ∧ (b == a) = true

theorem IsLeaf.isPlain {α : Type} [Textual α] [BEq α] {a : α} (h : IsLeaf d a) :
    d.IsPlain (Textual.text d a) :=
  ⟨h.ne_nil, h.not_blank, h.not_delimiter⟩

theorem IsLeaf.isElement {α : Type} [Textual α] [BEq α] {a : α} (h : IsLeaf d a) :
    d.IsElement (Textual.text d a) :=
  h.isPlain.isElement

theorem isBlank_eq_false_of_isDigit {c : Char} (hc : c.isDigit = true) :
    Text.isBlank c = false := by
  have hall : ∀ x ∈ "0123456789".toList, Text.isBlank x = false := by decide
  exact hall c (Text.mem_of_isDigit hc)

theorem text_label (d : Delimiters) (label : Label) :
    Textual.text d label = Nat.toDigits 10 label.toNat := by
  show Text.writeInteger (label.toNat : Int) = _
  unfold Text.writeInteger
  rw [if_neg (by omega)]
  rfl

theorem read_wholeNumber (d : Delimiters) {α : Type} {name : String} {least greatest z : Int}
    {toInt : α → Int} {ofInt : Int → α} {text : List Char}
    (h : Text.integer? least greatest text = some z) :
    ((Textual.wholeNumber name least greatest toInt ofInt).read d text).value = .ok (ofInt z) := by
  unfold Textual.wholeNumber Textual.read
  dsimp only
  rw [h]
  rfl

theorem read_text_label (d : Delimiters) (label : Label) :
    (Textual.read d (Textual.text d label)).value = .ok label := by
  have hread : Text.integer? 0 (2 ^ 32 - 1) (Text.writeInteger (label.toNat : Int)) =
      some (label.toNat : Int) :=
    Text.integer?_writeInteger (by omega) (by have := label.toNat_lt; omega)
  refine (read_wholeNumber d hread).trans ?_
  simp

/-- Labels are leaves wherever no delimiter is a digit. -/
theorem isLeaf_label (h : ∀ c ∈ d.characters, c.isDigit = false) (label : Label) :
    IsLeaf d label where
  ne_nil := by
    rw [text_label]
    exact Nat.toDigits_ne_nil
  not_blank c hc := by
    rw [text_label] at hc
    exact isBlank_eq_false_of_isDigit (Text.all_isDigit_toDigits _ c hc)
  not_delimiter c hc hmem := by
    rw [text_label] at hc
    have := Text.all_isDigit_toDigits _ c hc
    rw [h c hmem] at this
    cases this
  reads_back := ⟨label, read_text_label d label, beq_self_eq_true label⟩

/-- Words are leaves. -/
theorem isLeaf_word {word : String} (hne : word.toList ≠ [])
    (h : ∀ c ∈ word.toList, Text.isBlank c = false ∧ c ∉ d.characters) : IsLeaf d word where
  ne_nil := hne
  not_blank c hc := (h c hc).1
  not_delimiter c hc := (h c hc).2
  reads_back := by
    refine ⟨word, ?_, beq_self_eq_true word⟩
    show Except.ok (String.ofList word.toList) = _
    rw [String.ofList_toList]

/-! ## Values of any depth -/

/-- A description of a type built from types of leaves by lists, pairs and codex entries. -/
inductive Composed : Type 1 where
  /-- A type of leaves. -/
  | simple (α : Type) [Textual α] [LawfulTextual α] [BEq α]
  /-- Lists. -/
  | list (element : Composed)
  /-- Pairs. -/
  | product (first second : Composed)
  /-- Codex entries. -/
  | entry (weight : Composed)

namespace Composed

/-- The values of the type described. -/
def Carrier : Composed → Type
  | @simple α _ _ _ => α
  | list element => List element.Carrier
  | product first second => Product first.Carrier second.Carrier
  | entry weight => Entry weight.Carrier

instance instTextual : (t : Composed) → Textual t.Carrier
  | @simple _ textual _ _ => textual
  | list element =>
    letI := instTextual element
    inferInstanceAs (Textual (List element.Carrier))
  | product first second =>
    letI := instTextual first
    letI := instTextual second
    inferInstanceAs (Textual (Product first.Carrier second.Carrier))
  | entry weight =>
    letI := instTextual weight
    inferInstanceAs (Textual (Entry weight.Carrier))

instance instLawfulTextual : (t : Composed) → LawfulTextual t.Carrier
  | @simple _ _ lawful _ => lawful
  | list element =>
    letI := instLawfulTextual element
    inferInstanceAs (LawfulTextual (List element.Carrier))
  | product first second =>
    letI := instLawfulTextual first
    letI := instLawfulTextual second
    inferInstanceAs (LawfulTextual (Product first.Carrier second.Carrier))
  | entry weight =>
    letI := instLawfulTextual weight
    inferInstanceAs (LawfulTextual (Entry weight.Carrier))

/-- Values are equal if they have equal leaves in the same places. -/
instance instBEq : (t : Composed) → BEq t.Carrier
  | @simple _ _ _ beq => beq
  | list element =>
    letI := instBEq element
    inferInstanceAs (BEq (List element.Carrier))
  | product first second =>
    letI := instBEq first
    letI := instBEq second
    ⟨fun (v w : Product first.Carrier second.Carrier) =>
      v.first == w.first && v.second == w.second⟩
  | entry weight =>
    letI := instBEq weight
    inferInstanceAs (BEq (Entry weight.Carrier))

/-- A value whose leaves are safe and whose lists have elements. -/
def Legible (d : Delimiters) : (t : Composed) → t.Carrier → Prop
  | @simple α _ _ _, a => IsLeaf d (α := α) a
  | list element, (values : List element.Carrier) =>
    values ≠ [] ∧ ∀ v ∈ values, element.Legible d v
  | product first second, w => first.Legible d w.first ∧ second.Legible d w.second
  | entry weight, e => IsLeaf d e.input ∧ IsLeaf d e.output ∧ weight.Legible d e.weight

/-- A value whose leaves have plain texts, whether or not they are read back, and whose lists have
elements. -/
def Plain (d : Delimiters) : (t : Composed) → t.Carrier → Prop
  | @simple α _ _ _, a => d.IsPlain (Textual.text d (α := α) a)
  | list element, (values : List element.Carrier) =>
    values ≠ [] ∧ ∀ v ∈ values, element.Plain d v
  | product first second, w => first.Plain d w.first ∧ second.Plain d w.second
  | entry weight, e =>
    d.IsPlain (Textual.text d e.input) ∧ d.IsPlain (Textual.text d e.output) ∧
      weight.Plain d e.weight

theorem Legible.plain {t : Composed} {v : t.Carrier} (h : t.Legible d v) : t.Plain d v := by
  induction t with
  | simple α => exact IsLeaf.isPlain h
  | list element ih => exact ⟨h.1, fun x hx => ih (h.2 x hx)⟩
  | product first second ihf ihs => exact ⟨ihf h.1, ihs h.2⟩
  | entry weight ih => exact ⟨h.1.isPlain, h.2.1.isPlain, ih h.2.2⟩

/-- The types whose values are made of elements. -/
def IsComposite : Composed → Prop
  | simple _ => False
  | _ => True

/-- The texts of the elements of a value. -/
def texts (d : Delimiters) : (t : Composed) → t.Carrier → List (List Char)
  | @simple _ _ _ _, _ => []
  | list _, (values : List _) => values.map (Textual.text d)
  | product _ _, w => [Textual.text d w.first, Textual.text d w.second]
  | entry _, e => [Textual.text d e.input, Textual.text d e.output, Textual.text d e.weight]

theorem text_eq_compose {t : Composed} (ht : t.IsComposite) (v : t.Carrier) :
    Textual.text d v = d.compose (t.texts d v) := by
  cases t with
  | simple α => exact ht.elim
  | list element => exact text_list d v
  | product first second => exact text_product d v
  | entry weight => exact text_entry d v

theorem texts_ne_nil {t : Composed} (ht : t.IsComposite) {v : t.Carrier} (hv : t.Plain d v) :
    t.texts d v ≠ [] := by
  cases t with
  | simple α => exact ht.elim
  | list element => exact fun h => hv.1 (List.map_eq_nil_iff.mp h)
  | product first second => exact List.cons_ne_nil _ _
  | entry weight => exact List.cons_ne_nil _ _

/-- A value with plain leaves is an element wherever it stands, and so are its own elements. -/
theorem isElement_text (hd : d.validate = .ok ()) (hp : d.parentheses.isSome) (t : Composed)
    (v : t.Carrier) (hv : t.Plain d v) :
    d.IsElement (Textual.text d v) ∧ ∀ s ∈ t.texts d v, d.IsElement s := by
  -- parentheses around the elements make the value an element
  have hwhole {t : Composed} (ht : t.IsComposite) {v : t.Carrier} (hv : t.Plain d v)
      (hparts : ∀ s ∈ t.texts d v, d.IsElement s) :
      d.IsElement (Textual.text d v) ∧ ∀ s ∈ t.texts d v, d.IsElement s := by
    refine ⟨?_, hparts⟩
    rw [text_eq_compose ht]
    exact Delimiters.isElement_compose (Delimiters.distinct_of_validate hd) hp
      (texts_ne_nil ht hv) fun s hs => (hparts s hs).toIsSolid
  induction t with
  | simple α => exact ⟨hv.isElement, nofun⟩
  | list element ih =>
    apply hwhole (t := .list element) trivial hv
    intro s hs
    obtain ⟨x, hx, rfl⟩ := List.mem_map.mp hs
    exact (ih x (hv.2 x hx)).1
  | product first second ihf ihs =>
    apply hwhole (t := .product first second) trivial hv
    exact List.forall_mem_cons.mpr ⟨(ihf v.first hv.1).1,
      List.forall_mem_cons.mpr ⟨(ihs v.second hv.2).1, nofun⟩⟩
  | entry weight ih =>
    apply hwhole (t := .entry weight) trivial hv
    exact List.forall_mem_cons.mpr ⟨hv.1.isElement, List.forall_mem_cons.mpr ⟨hv.2.1.isElement,
      List.forall_mem_cons.mpr ⟨(ih v.weight hv.2.2).1, nofun⟩⟩⟩

/-- Values read from a list of texts one by one. -/
theorem exists_reads {α : Type} [Textual α] [BEq α] {values : List α}
    (h : ∀ v ∈ values, ∃ w, (Textual.read d (Textual.text d v)).value = .ok w ∧ (w == v) = true) :
    ∃ others, List.Forall₂ (fun t w => (Textual.read d t).value = .ok w)
      (values.map (Textual.text d)) others ∧ (others == values) = true := by
  induction values with
  | nil => exact ⟨[], .nil, rfl⟩
  | cons v values ih =>
    obtain ⟨hv, hvalues⟩ := List.forall_mem_cons.mp h
    obtain ⟨w, hread, hw⟩ := hv
    obtain ⟨others, hreads, hothers⟩ := ih hvalues
    refine ⟨w :: others, .cons hread hreads, ?_⟩
    show (w == v && others == values) = true
    rw [hw, hothers]
    rfl

/-- A legible value is an element wherever it stands, and reads back. -/
theorem isElement_and_reads (hd : d.validate = .ok ()) (hp : d.parentheses.isSome) (t : Composed)
    (v : t.Carrier) (hv : t.Legible d v) : d.IsElement (Textual.text d v) ∧
      ∃ w, (Textual.read d (Textual.text d v)).value = .ok w ∧ (w == v) = true := by
  refine ⟨(isElement_text hd hp t v hv.plain).1, ?_⟩
  have helements {t : Composed} {v : t.Carrier} (hv : t.Legible d v) :=
    (isElement_text hd hp t v hv.plain).2
  induction t with
  | simple α => exact hv.reads_back
  | list element ih =>
    obtain ⟨others, hreads, hothers⟩ := exists_reads fun x hx => ih x (hv.2 x hx)
    rw [text_eq_compose (t := .list element) trivial v]
    exact ⟨others, read_list_compose hd (texts_ne_nil (t := .list element) trivial hv.plain)
      (helements hv) hreads, hothers⟩
  | product first second ihf ihs =>
    obtain ⟨a, ha, hav⟩ := ihf v.first hv.1
    obtain ⟨b, hb, hbv⟩ := ihs v.second hv.2
    obtain ⟨hfirst, hrest⟩ := List.forall_mem_cons.mp (helements hv)
    have hsecond := hrest _ (List.mem_singleton_self _)
    rw [text_eq_compose (t := .product first second) trivial v]
    refine ⟨⟨a, b⟩, read_product_compose hd hfirst hsecond.toIsSolid ha hb, ?_⟩
    show (a == v.first && b == v.second) = true
    rw [hav, hbv]
    rfl
  | entry weight ih =>
    obtain ⟨hinput, houtput, hweight⟩ := hv
    obtain ⟨a, ha, hav⟩ := ih v.weight hweight
    obtain ⟨i, hi, hiv⟩ := hinput.reads_back
    obtain ⟨o, ho, hov⟩ := houtput.reads_back
    have hw := (isElement_text hd hp weight v.weight hweight.plain).1
    rw [text_eq_compose (t := .entry weight) trivial v]
    refine ⟨⟨i, o, a⟩,
      read_entry_compose hd hinput.isElement houtput.isElement hw.toIsSolid hi ho ha, ?_⟩
    show (i == v.input && o == v.output && a == v.weight) = true
    rw [hiv, hov, hav]
    rfl

/-- **Every legible value reads back from its text**, however deep its lists, pairs and entries are
nested. -/
theorem read_text_of_legible (hd : d.validate = .ok ()) (hp : d.parentheses.isSome) (t : Composed)
    (v : t.Carrier) (hv : t.Legible d v) :
    ∃ w, (Textual.read d (Textual.text d v)).value = .ok w ∧ (w == v) = true :=
  (isElement_and_reads hd hp t v hv).2

/-- Entries in a list, each with a pair of a label and a list of words. -/
theorem read_text_of_nested :
    let d : Delimiters := ⟨';', some ('[', ']')⟩
    let t : Composed := .list (.entry (.product (.simple Label) (.list (.simple String))))
    let v : t.Carrier :=
      ([⟨7, 0, ⟨12, ["ab", "c"]⟩⟩, ⟨1, 2, ⟨0, ["x,y"]⟩⟩] :
        List (Entry (Product Label (List String))))
    d.validate = .ok () ∧ d.parentheses.isSome ∧ t.Legible d v ∧
      ∃ w, (Textual.read d (Textual.text d v)).value = .ok w ∧ (w == v) = true := by
  intro d t v
  have hlabel (label : Label) : IsLeaf d label := isLeaf_label (by decide) label
  have hword (word : String) (hne : word.toList ≠ [])
      (h : ∀ c ∈ word.toList, Text.isBlank c = false ∧ c ∉ d.characters) : IsLeaf d word :=
    ⟨hne, fun c hc => (h c hc).1, fun c hc => (h c hc).2, word, by
      show Except.ok (String.ofList word.toList) = _
      rw [String.ofList_toList], beq_self_eq_true word⟩
  have hlegible : t.Legible d v := by
    refine ⟨nofun, List.forall_mem_cons.mpr ⟨?_, List.forall_mem_cons.mpr ⟨?_, nofun⟩⟩⟩
    · refine ⟨hlabel 7, hlabel 0, hlabel 12, nofun, List.forall_mem_cons.mpr ⟨?_, ?_⟩⟩
      · exact hword "ab" (by decide) (by decide)
      · exact List.forall_mem_cons.mpr ⟨hword "c" (by decide) (by decide), nofun⟩
    · refine ⟨hlabel 1, hlabel 2, hlabel 0, nofun, List.forall_mem_cons.mpr ⟨?_, nofun⟩⟩
      exact hword "x,y" (by decide) (by decide)
  exact ⟨rfl, rfl, hlegible, read_text_of_legible rfl rfl t v hlegible⟩

end Composed
end WeightedTransducer
