import WeightedTransducer.Proofs.Composite.Steps

/-!
# The texts that are read as sequences

A reader takes elements for as long as another is announced, and which texts it accepts in this way
is a language that can be said without it (`Delimiters.IsSequence`): elements with separators
between, in parentheses if there are any, with white space in front and at most one separator left
over at the end.  `Reading.sequence_eq_ok_iff` says that these are the texts, and which elements are
read from them.
-/

namespace WeightedTransducer

/-- The text of a sequence whose elements have the given texts, as it may be read: with white space
in front, something between the last element and the closing parenthesis (`Delimiters.IsGap`), and
anything at all after white space behind it. -/
def Delimiters.IsSequence (d : Delimiters) (elements : List (List Char)) (text : List Char) :
    Prop :=
  elements ≠ [] ∧ (∀ e ∈ elements, d.IsElement e) ∧
    ∃ front gap tail, text = front ++ d.opening.toList ++ [d.separator].intercalate elements ++ gap
        ++ d.closing.toList ++ tail ∧
      Text.AllBlank front ∧ d.IsGap false gap ∧ Text.StartsBlank tail

namespace Reading
variable {α : Type} [Textual α] {d : Delimiters}

/-- Elements are taken one by one, the last of them announces no other. -/
theorem yields_elements_iff {r r' : CompositeReader} {values : List α} :
    Yields elements r values r' ↔
      (∃ a, (element false).Yields r (a, false) r' ∧ values = [a]) ∨
      ∃ a mid others, (element false).Yields r (a, true) mid ∧ Yields elements mid others r' ∧
        values = a :: others := by
  unfold Yields
  conv_lhs => unfold elements
  dsimp only
  split
  · rename_i h
    simp [h]
  · rename_i a mid h
    rw [h]
    constructor
    · intro heq
      cases heq
      exact Or.inl ⟨a, rfl, rfl⟩
    · rintro (⟨b, heq, rfl⟩ | ⟨b, next, others, heq, -⟩)
      · cases heq
        rfl
      · cases heq
  · rename_i a mid h
    rw [h]
    constructor
    · intro heq
      obtain ⟨hvalues, hreader⟩ := Prod.mk.inj heq
      cases hothers : (elements mid : Traced (Except ReadError (List α) × _)).value.1 with
      | error e =>
        rw [hothers] at hvalues
        cases hvalues
      | ok others =>
        rw [hothers] at hvalues
        cases hvalues
        exact Or.inr ⟨a, mid, others, rfl, Prod.ext hothers hreader, rfl⟩
    · rintro (⟨b, heq, -⟩ | ⟨b, next, others, heq, hothers, rfl⟩)
      · cases heq
      · cases heq
        rw [hothers]
        rfl

theorem any_head?_append {word : List Char} (h : Text.IsWord word) (rest : List Char) :
    (word ++ rest).head?.any (!Text.isBlank ·) = true := by
  obtain ⟨c, word, rfl⟩ := List.exists_cons_of_ne_nil h.1
  simp [h.2 c List.mem_cons_self]

/-- The elements of a sequence and its end. -/
theorem yields_elements_closing_iff (hd : d.validate = .ok ()) {input : List Char}
    {values : List α} :
    (∃ mid r', Yields elements (.inside d input) values mid ∧ closing.Yields mid () r') ↔
      ∃ texts gap tail, texts ≠ [] ∧ (∀ t ∈ texts, d.IsElement t) ∧
        input = [d.separator].intercalate texts ++ gap ++ d.closing.toList ++ tail ∧
        d.IsGap false gap ∧ Text.StartsBlank tail ∧
        List.Forall₂ (fun t v => (Textual.read d t).value = .ok v) texts values := by
  induction values generalizing input with
  | nil =>
    constructor
    · rintro ⟨mid, r', helements, -⟩
      rcases yields_elements_iff.mp helements with ⟨_, _, h⟩ | ⟨_, _, _, _, _, h⟩ <;> cases h
    · rintro ⟨texts, gap, tail, hne, -, -, -, -, hread⟩
      cases hread
      exact absurd rfl hne
  | cons v others ih =>
    constructor
    · rintro ⟨mid, r', helements, hclosing⟩
      rcases yields_elements_iff.mp helements with ⟨a, hlast, h⟩ | ⟨a, next, rest, hnext, hrest, h⟩
      · cases h
        obtain ⟨text, gap, tail, rfl, -, htext, hgap, htail, hread⟩ :=
          (yields_element_closing_iff hd).mp ⟨mid, r', hlast, hclosing⟩
        refine ⟨[text], gap, tail, List.cons_ne_nil _ _, by simpa using htext, ?_, hgap, htail,
          .cons hread .nil⟩
        rw [List.intercalate_singleton]
      · cases h
        obtain ⟨text, ahead, rfl, htext, -, hread, rfl⟩ := (yields_next_element_iff hd).mp hnext
        obtain ⟨texts, gap, tail, hne, htexts, rfl, hgap, htail, hreads⟩ :=
          ih.mp ⟨mid, r', hrest, hclosing⟩
        refine ⟨text :: texts, gap, tail, List.cons_ne_nil _ _,
          List.forall_mem_cons.mpr ⟨htext, htexts⟩, ?_, hgap, htail, .cons hread hreads⟩
        obtain ⟨second, texts, rfl⟩ := List.exists_cons_of_ne_nil hne
        simp [List.intercalate_cons_cons]
    · rintro ⟨texts, gap, tail, -, htexts, rfl, hgap, htail, hreads⟩
      obtain ⟨text, texts, hread, hothers, rfl⟩ := List.forall₂_cons_right_iff.mp hreads
      obtain ⟨htext, htexts⟩ := List.forall_mem_cons.mp htexts
      cases texts with
      | nil =>
        cases hothers
        obtain ⟨mid, r', hlast, hclosing⟩ := (yields_element_closing_iff hd).mpr
          ⟨text, gap, tail, rfl, htext.toIsSolid, fun _ => htext, hgap, htail, hread⟩
        rw [List.intercalate_singleton]
        exact ⟨mid, r', yields_elements_iff.mpr (.inl ⟨v, hlast, rfl⟩), hclosing⟩
      | cons second texts =>
        obtain ⟨mid, r', hrest, hclosing⟩ :=
          ih.mpr ⟨second :: texts, gap, tail, List.cons_ne_nil _ _, htexts, rfl, hgap, htail,
            hothers⟩
        have hsolid := Delimiters.isSolid_intercalate (Delimiters.distinct_of_validate hd)
          (List.cons_ne_nil second texts) fun t ht => (htexts t ht).toIsSolid
        have hinput : [d.separator].intercalate (text :: second :: texts) ++ gap
            ++ d.closing.toList ++ tail = text ++ d.separator ::
              ([d.separator].intercalate (second :: texts) ++ gap ++ d.closing.toList ++ tail) := by
          simp [List.intercalate_cons_cons]
        have hmore : ([d.separator].intercalate (second :: texts) ++ gap ++ d.closing.toList
            ++ tail).head?.any (!Text.isBlank ·) = true := by
          rw [List.append_assoc, List.append_assoc]
          exact any_head?_append hsolid.isWord _
        have hnext := (yields_next_element_iff hd).mpr ⟨text, _, hinput, htext, hmore, hread, rfl⟩
        exact ⟨mid, r', yields_elements_iff.mpr (.inr ⟨v, _, others, hnext, hrest, rfl⟩), hclosing⟩

/-- A sequence is the elements of one between its beginning and its end. -/
theorem yields_sequence_iff {r r' : CompositeReader} {values : List α} :
    sequence.Yields r values r' ↔ ∃ inside mid, opening.Yields r () inside ∧
      Yields elements inside values mid ∧ closing.Yields mid () r' := by
  unfold sequence
  rw [yields_bind_iff]
  constructor
  · rintro ⟨⟨⟩, inside, hopening, h⟩
    obtain ⟨read, mid, helements, h⟩ := yields_bind_iff.mp h
    obtain ⟨⟨⟩, closed, hclosing, h⟩ := yields_bind_iff.mp h
    obtain ⟨rfl, rfl⟩ := yields_pure_iff.mp h
    exact ⟨inside, mid, hopening, helements, hclosing⟩
  · rintro ⟨inside, mid, hopening, helements, hclosing⟩
    refine ⟨(), inside, hopening, yields_bind_iff.mpr ⟨values, mid, helements, ?_⟩⟩
    exact yields_bind_iff.mpr ⟨(), r', hclosing, yields_pure_iff.mpr ⟨rfl, rfl⟩⟩

/-- A text of the form of a sequence is read element by element. -/
theorem sequence_eq_ok_of_isSequence (hd : d.validate = .ok ()) {elements : List (List Char)}
    {text : List Char} {values : List α} (htext : d.IsSequence elements text)
    (hreads : List.Forall₂ (fun e v => (Textual.read d e).value = .ok v) elements values) :
    (runOn d text (sequence : Reading (List α))).value = .ok values := by
  obtain ⟨hne, helements, front, gap, tail, rfl, hfront, hgap, htail⟩ := htext
  obtain ⟨mid, r', hinside, hclosing⟩ := (yields_elements_closing_iff hd).mpr
    ⟨elements, gap, tail, hne, helements, rfl, hgap, htail, hreads⟩
  have hsolid := Delimiters.isSolid_intercalate (Delimiters.distinct_of_validate hd) hne
    fun t ht => (helements t ht).toIsSolid
  have hstart : Text.StartsSolid
      ([d.separator].intercalate elements ++ gap ++ d.closing.toList ++ tail) := by
    rw [List.append_assoc, List.append_assoc]
    exact hsolid.isWord.startsSolid _
  have hopening := (yields_opening_iff hd).mpr ⟨front, _, rfl, hfront, fun _ => hstart, rfl⟩
  rw [runOn_eq_ok_iff hd]
  simp only [List.append_assoc] at hopening hinside ⊢
  exact ⟨r', yields_sequence_iff.mpr ⟨_, mid, hopening, hinside, hclosing⟩⟩

/-- **The language of sequences.**  A text is read as a sequence exactly if it has the form of one,
and the values are what its elements are read as. -/
theorem sequence_eq_ok_iff (hd : d.validate = .ok ()) {text : List Char} {values : List α} :
    (runOn d text (sequence : Reading (List α))).value = .ok values ↔
      ∃ elements, d.IsSequence elements text ∧
        List.Forall₂ (fun e v => (Textual.read d e).value = .ok v) elements values := by
  constructor
  · intro h
    obtain ⟨r', h⟩ := (runOn_eq_ok_iff hd).mp h
    obtain ⟨inside, mid, hopening, helements, hclosing⟩ := yields_sequence_iff.mp h
    obtain ⟨front, body, rfl, hfront, -, rfl⟩ := (yields_opening_iff hd).mp hopening
    obtain ⟨elements, gap, tail, hne, htexts, rfl, hgap, htail, hreads⟩ :=
      (yields_elements_closing_iff hd).mp ⟨mid, r', helements, hclosing⟩
    exact ⟨elements, ⟨hne, htexts, front, gap, tail, by simp, hfront, hgap, htail⟩, hreads⟩
  · rintro ⟨elements, htext, hreads⟩
    exact sequence_eq_ok_of_isSequence hd htext hreads

/-- White space in front, an inner value as an element, a separator left over before white space,
and words behind the value. -/
theorem sequence_eq_ok_of_nested :
    (⟨',', some ('(', ')')⟩ : Delimiters).validate = .ok () ∧
      (runOn ⟨',', some ('(', ')')⟩ " (ab,(d,e), ) x".toList
        (sequence : Reading (List String))).value = .ok ["ab", "(d,e)"] := by
  refine ⟨rfl, (sequence_eq_ok_iff rfl).mpr ⟨["ab".toList, "(d,e)".toList], ?_, ?_⟩⟩
  · exact ⟨nofun, by decide, " ".toList, ", ".toList, " x".toList, by decide, by decide,
      Or.inr ⟨rfl, " ".toList, nofun, by decide, rfl⟩, by decide⟩
  · exact .cons rfl (.cons rfl .nil)

end Reading
end WeightedTransducer
