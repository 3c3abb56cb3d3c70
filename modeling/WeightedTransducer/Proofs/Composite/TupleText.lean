import WeightedTransducer.Codex.Text
import WeightedTransducer.Proofs.Composite.Components
import WeightedTransducer.Weight.Product
import WeightedTransducer.Weight.Tropical

/-!
# The texts that are read as pairs and codex entries

Each step of reading a value with a fixed number of components takes what `Delimiters.Components`
says, one component at a time (`Reading.yields_component_iff`, `Reading.yields_last_component_iff`).
`Reading.components_eq_ok_iff` says which texts are read as pairs and which as entries, and which
texts their components are read from: those of the form of a tuple, and those that were closed
early.
-/

namespace WeightedTransducer
namespace Reading
variable {α β : Type} {d : Delimiters} {input ahead : List Char} {depth : Nat}

/-! ## Taking components -/

/-- A value ends behind its last component if nothing but the value is open there. -/
theorem closes_iff_endsAt (hd : d.validate = .ok ()) (hdepth : d.parentheses = none → depth = 0) :
    Closes d ahead depth ↔ d.EndsAt depth ahead := by
  match depth with
  | 0 => exact closes_zero_iff hd
  | depth + 1 =>
    obtain ⟨c, hc⟩ := Delimiters.exists_closing hdepth
    cases depth with
    | zero =>
      rw [closes_one_iff hd hc]
      simp [Delimiters.EndsAt, hc]
    | succ depth =>
      constructor
      · intro h
        have := depth_le_one_of_closes hd hc h
        omega
      · intro h
        have := h.depth_le_one
        omega

/-- Behind the last component stands what ends it, and then the end of the value. -/
theorem afterElement_endsAt_iff (hd : d.validate = .ok ())
    (hdepth : d.parentheses = none → depth = 0) :
    (d.StopsAt true depth ahead ∧
        ∃ r', closing.Yields (afterElement { delimiters := d, ahead, depth }).2 () r') ↔
      d.EndsAt depth ahead := by
  have hdistinct := Delimiters.distinct_of_validate hd
  constructor
  · rintro ⟨hstops, hcloses⟩
    rcases stopsAt_iff.mp hstops with hblank | ⟨-, -, -, hlast⟩ | ⟨c, tail, hc, rfl, rfl⟩
    · rw [afterElement_of_startsBlank hblank] at hcloses
      exact (closes_iff_endsAt hd hdepth).mp hcloses
    · cases hlast
    · rw [afterElement_closing hdistinct hc] at hcloses
      exact ⟨[], tail, by simp [hc], nofun, (closes_zero_iff hd).mp hcloses⟩
  · intro hends
    by_cases hblank : Text.StartsBlank ahead
    · rw [afterElement_of_startsBlank hblank]
      exact ⟨stopsAt_iff.mpr (.inl hblank), (closes_iff_endsAt hd hdepth).mpr hends⟩
    · match depth, hends with
      | 0, hends => exact absurd hends hblank
      | 1, ⟨gap, tail, hahead, hgap, htail⟩ =>
        obtain ⟨c, hc⟩ := Delimiters.exists_closing hdepth
        obtain rfl : gap = [] := by
          by_contra hne
          rw [hahead, List.append_assoc] at hblank
          exact hblank (hgap.startsBlank hne _)
        obtain rfl : ahead = c :: tail := by simpa [hc] using hahead
        rw [afterElement_closing hdistinct hc]
        exact ⟨stopsAt_closing hc tail, (closes_zero_iff hd).mpr htail⟩

variable [Textual α] [Textual β]

/-- The last component of a value, and its end. -/
theorem yields_last_component_iff (hd : d.validate = .ok ())
    (hdepth : d.parentheses = none → depth = 0) {a : α} :
    (∃ more mid r', (element true).Yields { delimiters := d, ahead := input, depth } (a, more) mid ∧
        closing.Yields mid () r') ↔
      ∃ texts, (∃ text, texts = [text] ∧ (Textual.read d text).value = .ok a) ∧
        d.Components depth texts input := by
  have hdistinct := Delimiters.distinct_of_validate hd
  have hafter := Delimiters.depthAfter_eq_zero hdepth
  constructor
  · rintro ⟨more, mid, r', helement, hclosing⟩
    obtain ⟨text, ahead, depth', hscan, hne, hread, hmid⟩ := (yields_element_at_iff hd).mp helement
    obtain ⟨rfl, htaken, rfl, hstops⟩ := (Delimiters.scan_eq_iff hdistinct).mp hscan
    have hends := (afterElement_endsAt_iff hd (hafter text)).mp ⟨hstops, r', by rwa [hmid]⟩
    exact ⟨[text], ⟨text, rfl, hread⟩, .last hne htaken hends⟩
  · rintro ⟨_, ⟨text, rfl, hread⟩, hcomponents⟩
    cases hcomponents with
    | separated _ _ _ hrest => exact absurd hrest Delimiters.not_components_nil
    | closed _ _ _ _ hrest => exact absurd hrest Delimiters.not_components_nil
    | last hne htaken hends =>
      obtain ⟨hstops, r', hclosing⟩ := (afterElement_endsAt_iff hd (hafter text)).mpr hends
      have hscan := Delimiters.scan_append_of_taken htaken hstops
      exact ⟨_, _, r', (yields_element_at_iff hd).mpr ⟨text, _, _, hscan, hne, hread, rfl⟩,
        hclosing⟩

/-- A component before the last, where what comes next (`P`) takes components that are as they
should be (`R`). -/
theorem yields_component_iff (hd : d.validate = .ok ())
    (hdepth : d.parentheses = none → depth = 0) {P : CompositeReader → Prop}
    {R : List (List Char) → Prop} (hne : ¬ R [])
    (hrest : ∀ ahead depth, (d.parentheses = none → depth = 0) →
      (P { delimiters := d, ahead, depth } ↔ ∃ rest, R rest ∧ d.Components depth rest ahead))
    {a : α} :
    (∃ more mid, (element false).Yields { delimiters := d, ahead := input, depth } (a, more) mid ∧
        P mid) ↔
      ∃ texts, (∃ text rest, texts = text :: rest ∧ (Textual.read d text).value = .ok a ∧ R rest) ∧
        d.Components depth texts input := by
  have hdistinct := Delimiters.distinct_of_validate hd
  have hafter := Delimiters.depthAfter_eq_zero hdepth
  constructor
  · rintro ⟨more, mid, helement, hmid⟩
    obtain ⟨text, ahead, depth', hscan, htext, hread, heq⟩ := (yields_element_at_iff hd).mp helement
    obtain ⟨rfl, htaken, rfl, hstops⟩ := (Delimiters.scan_eq_iff hdistinct).mp hscan
    rcases stopsAt_iff.mp hstops with hblank | ⟨next, rfl, hle, -⟩ | ⟨c, next, hc, rfl, hone⟩
    · -- nothing is left for the components that are still to come
      rw [afterElement_of_startsBlank hblank] at heq
      cases heq
      obtain ⟨rest, -, hcomponents⟩ := (hrest _ _ (hafter text)).mp hmid
      exact absurd hblank hcomponents.not_startsBlank
    · rw [afterElement_separator hdistinct] at heq
      cases heq
      obtain ⟨rest, hR, hcomponents⟩ := (hrest _ _ (hafter text)).mp hmid
      exact ⟨_, ⟨text, rest, rfl, hread, hR⟩, .separated htext htaken hle hcomponents⟩
    · rw [hone, afterElement_closing hdistinct hc] at heq
      cases heq
      obtain ⟨rest, hR, hcomponents⟩ := (hrest _ _ fun _ => rfl).mp hmid
      exact ⟨_, ⟨text, rest, rfl, hread, hR⟩, .closed hc htext htaken hone hcomponents⟩
  · rintro ⟨_, ⟨text, rest, rfl, hread, hR⟩, hcomponents⟩
    cases hcomponents with
    | last => exact absurd hR hne
    | @separated _ _ next _ htext htaken hle hcomponents =>
      have hscan := Delimiters.scan_append_of_taken htaken (stopsAt_separator hle next)
      have hmid := (hrest _ _ (hafter text)).mpr ⟨rest, hR, hcomponents⟩
      exact ⟨_, _, (yields_element_at_iff hd).mpr ⟨text, _, _, hscan, htext, hread,
        afterElement_separator hdistinct _ _⟩, hmid⟩
    | @closed _ _ next _ c hc htext htaken hone hcomponents =>
      have hstops : d.StopsAt false (d.depthAfter depth text) (c :: next) := by
        rw [hone]
        exact stopsAt_closing hc next
      have hscan := Delimiters.scan_append_of_taken htaken hstops
      have hmid := (hrest _ _ fun _ => rfl).mpr ⟨rest, hR, hcomponents⟩
      rw [hone] at hscan
      exact ⟨_, _, (yields_element_at_iff hd).mpr ⟨text, _, _, hscan, htext, hread,
        afterElement_closing hdistinct hc _⟩, hmid⟩

/-! ## Pairs and entries -/

/-- The beginning of a value, where what comes next (`P`) takes components that are as they should
be (`R`). -/
theorem yields_opening_component_iff (hd : d.validate = .ok ()) {P : CompositeReader → Prop}
    {R : List (List Char) → Prop}
    (hrest : ∀ body, P (.inside d body) ↔ ∃ texts, R texts ∧ d.Components d.base texts body) :
    (∃ inside, opening.Yields { delimiters := d, ahead := input } () inside ∧ P inside) ↔
      ∃ texts, R texts ∧ ∃ front body, input = front ++ d.opening.toList ++ body ∧
        Text.AllBlank front ∧ d.Components d.base texts body := by
  constructor
  · rintro ⟨inside, hopening, h⟩
    obtain ⟨front, body, hinput, hfront, -, rfl⟩ := (yields_opening_iff hd).mp hopening
    obtain ⟨texts, hR, hcomponents⟩ := (hrest body).mp h
    exact ⟨texts, hR, front, body, hinput, hfront, hcomponents⟩
  · rintro ⟨texts, hR, front, body, hinput, hfront, hcomponents⟩
    have hsolid : Text.StartsSolid body := by
      intro x hx
      by_contra hblank
      refine hcomponents.not_startsBlank fun y hy => ?_
      rw [Option.mem_unique hy hx]
      simpa using hblank
    exact ⟨_, (yields_opening_iff hd).mpr ⟨front, body, hinput, hfront, fun _ => hsolid, rfl⟩,
      (hrest body).mpr ⟨texts, hR, hcomponents⟩⟩

/-- The steps of reading a pair. -/
theorem yields_product_iff {r : CompositeReader} {w : Product α β} :
    (∃ r', (Product.reading : Reading (Product α β)).Yields r w r') ↔
      ∃ inside, opening.Yields r () inside ∧
        ∃ more mid, (element false).Yields inside (w.first, more) mid ∧
          ∃ more' last r', (element true).Yields mid (w.second, more') last ∧
            closing.Yields last () r' := by
  unfold Product.reading
  constructor
  · rintro ⟨r', h⟩
    obtain ⟨⟨⟩, inside, hopening, h⟩ := yields_bind_iff.mp h
    obtain ⟨⟨first, more⟩, mid, hfirst, h⟩ := yields_bind_iff.mp h
    obtain ⟨⟨second, more'⟩, last, hsecond, h⟩ := yields_bind_iff.mp h
    obtain ⟨⟨⟩, closed, hclosing, h⟩ := yields_bind_iff.mp h
    obtain ⟨rfl, rfl⟩ := yields_pure_iff.mp h
    exact ⟨inside, hopening, more, mid, hfirst, more', last, _, hsecond, hclosing⟩
  · rintro ⟨inside, hopening, more, mid, hfirst, more', last, r', hsecond, hclosing⟩
    refine ⟨r', yields_bind_iff.mpr ⟨(), inside, hopening, ?_⟩⟩
    refine yields_bind_iff.mpr ⟨_, mid, hfirst, ?_⟩
    refine yields_bind_iff.mpr ⟨_, last, hsecond, ?_⟩
    exact yields_bind_iff.mpr ⟨(), r', hclosing, yields_pure_iff.mpr ⟨rfl, rfl⟩⟩

/-- The steps of reading an entry. -/
theorem yields_entry_iff {r : CompositeReader} {e : Entry α} :
    (∃ r', (Entry.reading : Reading (Entry α)).Yields r e r') ↔
      ∃ inside, opening.Yields r () inside ∧
        ∃ more mid, (element false).Yields inside (e.input, more) mid ∧
          ∃ more' mid', (element false).Yields mid (e.output, more') mid' ∧
            ∃ more'' last r', (element true).Yields mid' (e.weight, more'') last ∧
              closing.Yields last () r' := by
  unfold Entry.reading
  constructor
  · rintro ⟨r', h⟩
    obtain ⟨⟨⟩, inside, hopening, h⟩ := yields_bind_iff.mp h
    obtain ⟨⟨input, more⟩, mid, hinput, h⟩ := yields_bind_iff.mp h
    obtain ⟨⟨output, more'⟩, mid', houtput, h⟩ := yields_bind_iff.mp h
    obtain ⟨⟨weight, more''⟩, last, hweight, h⟩ := yields_bind_iff.mp h
    obtain ⟨⟨⟩, closed, hclosing, h⟩ := yields_bind_iff.mp h
    obtain ⟨rfl, rfl⟩ := yields_pure_iff.mp h
    exact ⟨inside, hopening, more, mid, hinput, more', mid', houtput, more'', last, _, hweight,
      hclosing⟩
  · rintro ⟨inside, hopening, more, mid, hinput, more', mid', houtput, more'', last, r', hweight,
      hclosing⟩
    refine ⟨r', yields_bind_iff.mpr ⟨(), inside, hopening, ?_⟩⟩
    refine yields_bind_iff.mpr ⟨_, mid, hinput, ?_⟩
    refine yields_bind_iff.mpr ⟨_, mid', houtput, ?_⟩
    refine yields_bind_iff.mpr ⟨_, last, hweight, ?_⟩
    exact yields_bind_iff.mpr ⟨(), r', hclosing, yields_pure_iff.mpr ⟨rfl, rfl⟩⟩

/-- A text is read as a pair exactly if it has the form of one or was closed early, and both
components are read from their texts. -/
theorem read_product_eq_ok_iff (hd : d.validate = .ok ()) {w : Product α β} :
    (Textual.read d input : Traced (Except ReadError (Product α β))).value = .ok w ↔
      ∃ first second, (d.IsTuple [first] second input ∨ d.ClosedEarly [first] second input) ∧
        (Textual.read d first).value = .ok w.first ∧
        (Textual.read d second).value = .ok w.second := by
  have hdistinct := Delimiters.distinct_of_validate hd
  refine (runOn_eq_ok_iff hd).trans (yields_product_iff.trans ?_)
  refine (yields_opening_component_iff hd fun body => yields_component_iff hd
    Delimiters.base_of_none (by simp) fun ahead depth hdepth =>
      yields_last_component_iff hd hdepth).trans ?_
  constructor
  · rintro ⟨_, ⟨first, _, rfl, hfirst, second, rfl, hsecond⟩, hbody⟩
    exact ⟨first, second, (Delimiters.components_text_iff hdistinct).mp hbody, hfirst, hsecond⟩
  · rintro ⟨first, second, hform, hfirst, hsecond⟩
    exact ⟨_, ⟨first, _, rfl, hfirst, second, rfl, hsecond⟩,
      (Delimiters.components_text_iff hdistinct).mpr hform⟩

/-- A text is read as an entry exactly if it has the form of one or was closed early, and its
components are read from their texts. -/
theorem read_entry_eq_ok_iff (hd : d.validate = .ok ()) {e : Entry α} :
    (Textual.read d input : Traced (Except ReadError (Entry α))).value = .ok e ↔
      ∃ first second third, (d.IsTuple [first, second] third input ∨
          d.ClosedEarly [first, second] third input) ∧
        (Textual.read d first).value = .ok e.input ∧
        (Textual.read d second).value = .ok e.output ∧
        (Textual.read d third).value = .ok e.weight := by
  have hdistinct := Delimiters.distinct_of_validate hd
  refine (runOn_eq_ok_iff hd).trans (yields_entry_iff.trans ?_)
  refine (yields_opening_component_iff hd fun body => yields_component_iff hd
    Delimiters.base_of_none (by simp) fun ahead depth hdepth => yields_component_iff hd hdepth
      (by simp) fun ahead depth hdepth => yields_last_component_iff hd hdepth).trans ?_
  constructor
  · rintro ⟨_, ⟨first, _, rfl, hfirst, second, _, rfl, hsecond, third, rfl, hthird⟩, hbody⟩
    exact ⟨first, second, third, (Delimiters.components_text_iff hdistinct).mp hbody, hfirst,
      hsecond, hthird⟩
  · rintro ⟨first, second, third, hform, hfirst, hsecond, hthird⟩
    exact ⟨_, ⟨first, _, rfl, hfirst, second, _, rfl, hsecond, third, rfl, hthird⟩,
      (Delimiters.components_text_iff hdistinct).mpr hform⟩

/-- **The languages of pairs and entries.**  They are read from the texts of their form and from
those that were closed early, and no text is of both kinds. -/
theorem components_eq_ok_iff (hd : d.validate = .ok ()) (text : List Char) :
    (∀ w : Product α β, (Textual.read d text).value = .ok w ↔
      ∃ first second, (d.IsTuple [first] second text ∨ d.ClosedEarly [first] second text) ∧
        (Textual.read d first).value = .ok w.first ∧
        (Textual.read d second).value = .ok w.second) ∧
      (∀ e : Entry α, (Textual.read d text).value = .ok e ↔
        ∃ first second third, (d.IsTuple [first, second] third text ∨
            d.ClosedEarly [first, second] third text) ∧
          (Textual.read d first).value = .ok e.input ∧
          (Textual.read d second).value = .ok e.output ∧
          (Textual.read d third).value = .ok e.weight) ∧
      ∀ firsts firsts' last last', firsts'.length = firsts.length →
        d.IsTuple firsts last text → ¬ d.ClosedEarly firsts' last' text := by
  refine ⟨fun w => read_product_eq_ok_iff hd, fun e => read_entry_eq_ok_iff hd, ?_⟩
  intro firsts firsts' last last' hlength htuple
  exact htuple.not_closedEarly (Delimiters.distinct_of_validate hd) hlength.le

/-- An entry that was closed after its first component, so that the two others were taken from
behind, with words after them. -/
theorem components_eq_ok_of_entry :
    let d : Delimiters := ⟨',', some ('(', ')')⟩
    let text := " (1)2,ab x".toList
    d.validate = .ok () ∧
      (Textual.read d text : Traced (Except ReadError (Entry String))).value =
        .ok ⟨1, 2, "ab"⟩ ∧
      ∀ first second third, ¬ d.IsTuple [first, second] third text := by
  intro d text
  have hbehind : d.Components 0 ["2".toList, "ab".toList] "2,ab x".toList := by
    have hlast : d.Components 0 ["ab".toList] "ab x".toList :=
      .last nofun ⟨by decide, nofun, by decide, nofun, trivial⟩
        (by decide : Text.StartsBlank " x".toList)
    exact .separated nofun ⟨by decide, nofun, trivial⟩ (Nat.zero_le 1) hlast
  have hclosed : d.ClosedEarly ["1".toList, "2".toList] "ab".toList text :=
    ⟨["1".toList], ["2".toList], rfl, nofun, by decide, " ".toList, ')', _, rfl, by decide, rfl,
      hbehind⟩
  obtain ⟨-, hentry, hdiffer⟩ :=
    components_eq_ok_iff (α := String) (β := String) (rfl : d.validate = .ok ()) text
  refine ⟨rfl, (hentry ⟨1, 2, "ab"⟩).mpr ⟨_, _, _, Or.inr hclosed, rfl, rfl, rfl⟩, ?_⟩
  intro first second third htuple
  exact hdiffer [first, second] ["1".toList, "2".toList] third _ rfl htuple hclosed

/-- A pair with one component in its parentheses is read, with the other from behind them. -/
theorem read_product_of_closedEarly :
    let d : Delimiters := ⟨',', some ('(', ')')⟩
    let read : Except ReadError (Product Tropical Tropical) := (Textual.read d "(1)2".toList).value
    d.validate = .ok () ∧ read.map (Textual.text d) = .ok "(1,2)".toList ∧
      ∀ first second, ¬ d.IsTuple [first] second "(1)2".toList := by
  intro d read
  refine ⟨rfl, by decide +kernel, ?_⟩
  rintro first second ⟨-, -, front, gap, tail, htext, -⟩
  have hmem : ',' ∈ "(1)2".toList := by
    rw [htext]
    simp [List.intercalate_cons_cons, d]
  revert hmem
  decide

end Reading
end WeightedTransducer
