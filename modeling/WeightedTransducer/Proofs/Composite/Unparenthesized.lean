import WeightedTransducer.Proofs.Composite.RoundTrip
import WeightedTransducer.Proofs.Weight.KindText

/-!
# Pairs without parentheses

Without parentheses a pair is its two components with a separator between them, and the text of a
pair of pairs does not say how they were nested.  It is read as if they were nested last: the second
component takes all that is left, separators included, so that pairs nested in last places read back
however deep.  A pair in a first place is never taken for something else.  Only the text of its
leftmost leaf reaches its reader, which then finds no second component
(`Composed.read_firstText`), and the error is handed on from wherever the pair stands
(`Composed.read_text_of_pairs`).
-/

namespace WeightedTransducer
variable {d : Delimiters}

namespace Reading
variable {α β : Type}

/-! ## Steps that fail -/

/-- A step that fails, with its error. -/
def Fails (step : Reading α) (r : CompositeReader) (e : ReadError) : Prop :=
  (step r).value.1 = .error e

theorem fails_bind_of_fails {step : Reading α} {next : α → Reading β} {r : CompositeReader}
    {e : ReadError} (h : step.Fails r e) : (step >>= next).Fails r e := by
  obtain ⟨result, mid, hstep⟩ : ∃ result mid, (step r).value = (result, mid) := ⟨_, _, rfl⟩
  unfold Fails at h ⊢
  dsimp only [bind]
  rw [hstep] at h ⊢
  cases h
  rfl

theorem fails_bind_of_yields {step : Reading α} {next : α → Reading β} {r mid : CompositeReader}
    {a : α} {e : ReadError} (hstep : step.Yields r a mid) (h : (next a).Fails mid e) :
    (step >>= next).Fails r e := by
  unfold Fails at h ⊢
  dsimp only [bind]
  rw [hstep]
  exact h

theorem fails_guarded_iff (hd : d.validate = .ok ()) {step : Reading α} {ahead : List Char}
    {depth : Nat} {e : ReadError} :
    (guarded step).Fails { delimiters := d, ahead, depth } e ↔
      (step { delimiters := d, ahead, depth }).value.1 = .error e := by
  rw [Fails, guarded_apply hd]

variable [Textual α] [Textual β]

/-- There is no element where nothing can be taken. -/
theorem fails_element_of_stopsAt (hd : d.validate = .ok ()) {last : Bool} {ahead : List Char}
    (hstops : d.StopsAt last d.base ahead) :
    (element last : Reading (α × Bool)).Fails (.inside d ahead) .emptyElement := by
  apply (fails_guarded_iff hd).mpr
  dsimp only
  rw [Delimiters.scan_of_stopsAt hstops]
  rfl

/-- An element fails with the error of its own text. -/
theorem fails_element_of_read (hd : d.validate = .ok ()) {last : Bool} {text ahead : List Char}
    {e : ReadError} (hsolid : d.IsSolid text) (helement : last = false → d.IsElement text)
    (hstops : d.StopsAt last d.base ahead)
    (hread : (Textual.read d text : Traced (Except ReadError α)).value = .error e) :
    (element last : Reading (α × Bool)).Fails (.inside d (text ++ ahead)) e := by
  obtain ⟨hscan, hne⟩ := (Delimiters.scan_base_iff (Delimiters.distinct_of_validate hd)).mpr
    ⟨rfl, hsolid, helement, hstops⟩
  have hnonempty : text.isEmpty = false := List.isEmpty_eq_false_iff.mpr hne
  apply (fails_guarded_iff hd).mpr
  dsimp only
  rw [hscan]
  dsimp only
  rw [hnonempty]
  simp only [Bool.false_eq_true, if_false, Traced.value_bind, hread]
  rfl

/-! ## Pairs that fail -/

/-- Without parentheses, a value begins with its first element. -/
theorem yields_opening_of_isSolid (hd : d.validate = .ok ()) (hp : d.parentheses = none)
    {text : List Char} (hsolid : d.IsSolid text) (ahead : List Char) :
    opening.Yields { delimiters := d, ahead := text ++ ahead } () (.inside d (text ++ ahead)) := by
  refine (yields_opening_iff hd).mpr ⟨[], text ++ ahead, ?_, nofun, fun _ => ?_, rfl⟩
  · rw [Delimiters.opening_of_none hp]
    rfl
  · exact hsolid.isWord.startsSolid ahead

/-- A pair fails with the error of its first component, whatever follows. -/
theorem read_product_of_first (hd : d.validate = .ok ()) (hp : d.parentheses = none)
    {text ahead : List Char} {e : ReadError} (htext : d.IsElement text)
    (hstops : d.StopsAt false d.base ahead)
    (hread : (Textual.read d text : Traced (Except ReadError α)).value = .error e) :
    (Textual.read d (text ++ ahead) : Traced (Except ReadError (Product α β))).value =
      .error e := by
  have hfirst := fails_element_of_read hd htext.toIsSolid (fun _ => htext) hstops hread
  refine (value_runOn hd _ _).trans ?_
  apply fails_bind_of_yields (yields_opening_of_isSolid hd hp htext.toIsSolid ahead)
  exact fails_bind_of_fails hfirst

/-- A pair fails with the error of its second component. -/
theorem read_product_of_second (hd : d.validate = .ok ()) (hp : d.parentheses = none)
    {first second : List Char} {a : α} {e : ReadError} (hfirst : d.IsElement first)
    (hsecond : d.IsSolid second) (hreadFirst : (Textual.read d first).value = .ok a)
    (hreadSecond : (Textual.read d second : Traced (Except ReadError β)).value = .error e) :
    (Textual.read d (first ++ d.separator :: second) :
      Traced (Except ReadError (Product α β))).value = .error e := by
  have hstep := yields_element_of_separator hd hfirst hreadFirst second
  have hlast : (element true : Reading (β × Bool)).Fails (.inside d (second ++ [])) e :=
    fails_element_of_read hd hsecond nofun nofun hreadSecond
  rw [List.append_nil] at hlast
  refine (value_runOn hd _ _).trans ?_
  apply fails_bind_of_yields (yields_opening_of_isSolid hd hp hfirst.toIsSolid _)
  apply fails_bind_of_yields hstep
  exact fails_bind_of_fails hlast

/-- A pair with one component only misses the other. -/
theorem read_product_of_alone (hd : d.validate = .ok ()) (hp : d.parentheses = none)
    {text : List Char} {a : α} (htext : d.IsElement text)
    (hread : (Textual.read d text).value = .ok a) :
    (Textual.read d text : Traced (Except ReadError (Product α β))).value =
      .error .emptyElement := by
  obtain ⟨hscan, hne⟩ := (Delimiters.scan_base_iff (Delimiters.distinct_of_validate hd)).mpr
    ⟨(List.append_nil text).symm, htext.toIsSolid, fun _ => htext, nofun⟩
  have hstep : (element false).Yields (.inside d text) (a, false) (.inside d []) :=
    (yields_element_iff hd).mpr
      ⟨text, [], d.base, hscan, hne, hread, rfl⟩
  have hmissing : (element true : Reading (β × Bool)).Fails (.inside d []) .emptyElement :=
    fails_element_of_stopsAt hd nofun
  have hopening := yields_opening_of_isSolid hd hp htext.toIsSolid []
  rw [List.append_nil] at hopening
  refine (value_runOn hd _ _).trans ?_
  apply fails_bind_of_yields hopening
  apply fails_bind_of_yields hstep
  exact fails_bind_of_fails hmissing

end Reading

namespace Composed

/-! ## Pairs of pairs -/

/-- The types built from leaves by pairs alone. -/
def OfPairs : Composed → Prop
  | simple _ => True
  | product first second => first.OfPairs ∧ second.OfPairs
  | list _ => False
  | entry _ => False

/-- The types of pairs. -/
def IsProduct : Composed → Prop
  | product _ _ => True
  | _ => False

/-- The types in which no first component of a pair is itself a pair. -/
def NestsLast : Composed → Prop
  | simple _ => True
  | product first second => ¬ first.IsProduct ∧ first.NestsLast ∧ second.NestsLast
  | list element => element.NestsLast
  | entry weight => weight.NestsLast

/-- The text of the leftmost leaf of a value. -/
def firstText (d : Delimiters) : (t : Composed) → t.Carrier → List Char
  | product first _, w => first.firstText d w.first
  | _, v => Textual.text d v

variable {t : Composed}

theorem isLeaf_of_not_isProduct (ht : t.OfPairs) (hproduct : ¬ t.IsProduct) {v : t.Carrier}
    (hv : t.Legible d v) : IsLeaf d v ∧ t.firstText d v = Textual.text d v := by
  cases t with
  | simple α => exact ⟨hv, rfl⟩
  | product first second => exact absurd trivial hproduct
  | list element => exact ht.elim
  | entry weight => exact ht.elim

/-- Without parentheses, the text of a pair is its components and a separator. -/
theorem text_product_of_none (hp : d.parentheses = none) {first second : Composed}
    (w : (product first second).Carrier) :
    Textual.text d w =
      Textual.text d w.first ++ d.separator :: Textual.text d w.second := by
  have htext : Textual.text d w =
    d.compose [Textual.text d w.first, Textual.text d w.second] := text_product d w
  rw [htext, Delimiters.compose, Delimiters.opening_of_none hp, Delimiters.closing_of_none hp]
  simp [List.intercalate_cons_cons]

/-- The text of a value is solid even if it cannot be read back. -/
theorem isSolid_text (hd : d.validate = .ok ()) (ht : t.OfPairs) (v : t.Carrier)
    (hv : t.Legible d v) : d.IsSolid (Textual.text d v) := by
  induction t with
  | simple α => exact hv.isElement.toIsSolid
  | product first second ihf ihs =>
    have hfirst := ihf ht.1 v.first hv.1
    have hsecond := ihs ht.2 v.second hv.2
    have htext : Textual.text d v =
      d.compose [Textual.text d v.first, Textual.text d v.second] := text_product d v
    rw [htext]
    apply Delimiters.isSolid_compose (Delimiters.distinct_of_validate hd) (List.cons_ne_nil _ _)
    simp [hfirst, hsecond]
  | list element => exact ht.elim
  | entry weight => exact ht.elim

theorem isElement_firstText (ht : t.OfPairs) (v : t.Carrier) (hv : t.Legible d v) :
    d.IsElement (t.firstText d v) := by
  induction t with
  | simple α => exact hv.isElement
  | product first second ihf => exact ihf ht.1 v.first hv.1
  | list element => exact ht.elim
  | entry weight => exact ht.elim

/-- The text of a pair goes on with a separator after its leftmost leaf. -/
theorem exists_text_eq_firstText_append (hp : d.parentheses = none) (ht : t.OfPairs)
    (hproduct : t.IsProduct) (v : t.Carrier) (hv : t.Legible d v) :
    ∃ rest, Textual.text d v = t.firstText d v ++ d.separator :: rest := by
  induction t with
  | simple α => exact hproduct.elim
  | product first second ihf =>
    rw [text_product_of_none hp]
    by_cases hfirst : first.IsProduct
    · obtain ⟨rest, hrest⟩ := ihf ht.1 hfirst v.first hv.1
      rw [hrest, List.append_assoc, List.cons_append]
      exact ⟨_, rfl⟩
    · obtain ⟨-, heq⟩ := isLeaf_of_not_isProduct ht.1 hfirst hv.1
      rw [← heq]
      exact ⟨_, rfl⟩
  | list element => exact ht.elim
  | entry weight => exact ht.elim

/-- A pair is not read from the text of its leftmost leaf: the components that would have to follow
it are missing, first of all the second one of the innermost pair. -/
theorem read_firstText (hd : d.validate = .ok ()) (hp : d.parentheses = none) (ht : t.OfPairs)
    (hproduct : t.IsProduct) (v : t.Carrier) (hv : t.Legible d v) :
    (Textual.read d (t.firstText d v) : Traced (Except ReadError t.Carrier)).value =
      .error .emptyElement := by
  induction t with
  | simple α => exact hproduct.elim
  | product first second ihf =>
    -- the text is that of the first component, or of its own leftmost leaf
    by_cases hfirst : first.IsProduct
    · have htext := isElement_firstText ht.1 v.first hv.1
      have hread := ihf ht.1 hfirst v.first hv.1
      have hstops : d.StopsAt false d.base [] := nofun
      have herror := Reading.read_product_of_first (β := second.Carrier) hd hp htext hstops hread
      rw [List.append_nil] at herror
      exact herror
    · obtain ⟨hleaf, heq⟩ := isLeaf_of_not_isProduct ht.1 hfirst hv.1
      obtain ⟨a, hread, -⟩ := hleaf.reads_back
      rw [← heq] at hread
      exact Reading.read_product_of_alone hd hp (isElement_firstText ht.1 v.first hv.1) hread
  | list element => exact ht.elim
  | entry weight => exact ht.elim

/-- Pairs that are nested in last places read back. -/
theorem read_text_of_nestsLast (hd : d.validate = .ok ()) (ht : t.OfPairs) (hlast : t.NestsLast)
    (v : t.Carrier) (hv : t.Legible d v) :
    ∃ w, (Textual.read d (Textual.text d v)).value = .ok w ∧ (w == v) = true := by
  induction t with
  | simple α => exact hv.reads_back
  | product first second _ ihs =>
    obtain ⟨hleaf, -⟩ := isLeaf_of_not_isProduct ht.1 hlast.1 hv.1
    obtain ⟨a, ha, hav⟩ := hleaf.reads_back
    obtain ⟨b, hb, hbv⟩ := ihs ht.2 hlast.2.2 v.second hv.2
    have htext : Textual.text d v =
      d.compose [Textual.text d v.first, Textual.text d v.second] := text_product d v
    refine ⟨⟨a, b⟩, ?_, ?_⟩
    · rw [htext]
      exact read_product_compose hd hleaf.isElement (isSolid_text hd ht.2 v.second hv.2) ha hb
    · show (a == v.first && b == v.second) = true
      rw [hav, hbv]
      rfl
  | list element => exact ht.elim
  | entry weight => exact ht.elim

/-- A pair in a first place, however deep, is missed and never taken for another value. -/
theorem read_text_of_not_nestsLast (hd : d.validate = .ok ()) (hp : d.parentheses = none)
    (ht : t.OfPairs) (hlast : ¬ t.NestsLast) (v : t.Carrier) (hv : t.Legible d v) :
    (Textual.read d (Textual.text d v) : Traced (Except ReadError t.Carrier)).value =
      .error .emptyElement := by
  induction t with
  | simple α => exact absurd trivial hlast
  | product first second _ ihs =>
    rw [text_product_of_none hp]
    by_cases hfirst : first.IsProduct
    · -- the first separator of the text stands inside the first component, and cuts it there
      obtain ⟨rest, hrest⟩ := exists_text_eq_firstText_append hp ht.1 hfirst v.first hv.1
      rw [hrest, List.append_assoc, List.cons_append]
      exact Reading.read_product_of_first hd hp (isElement_firstText ht.1 v.first hv.1)
        (Reading.stopsAt_separator Delimiters.base_le_one _)
        (read_firstText hd hp ht.1 hfirst v.first hv.1)
    · obtain ⟨hleaf, -⟩ := isLeaf_of_not_isProduct ht.1 hfirst hv.1
      obtain ⟨a, hread, -⟩ := hleaf.reads_back
      have hsecond : ¬ second.NestsLast := by
        intro h
        apply hlast
        refine ⟨hfirst, ?_, h⟩
        cases first with
        | simple α => trivial
        | product first second => exact absurd trivial hfirst
        | list element => exact ht.1.elim
        | entry weight => exact ht.1.elim
      exact Reading.read_product_of_second hd hp hleaf.isElement
        (isSolid_text hd ht.2 v.second hv.2) hread (ihs ht.2 hsecond v.second hv.2)
  | list element => exact ht.elim
  | entry weight => exact ht.elim

/-- **Without parentheses, pairs are read back or refused, never misread.**  All values of a type
read back if no first component in it is a pair, and none of them does otherwise. -/
theorem read_text_of_pairs (hd : d.validate = .ok ()) (hp : d.parentheses = none)
    (ht : t.OfPairs) (v : t.Carrier) (hv : t.Legible d v) :
    (t.NestsLast →
      ∃ w, (Textual.read d (Textual.text d v)).value = .ok w ∧ (w == v) = true) ∧
    (¬ t.NestsLast →
      (Textual.read d (Textual.text d v) : Traced (Except ReadError t.Carrier)).value =
        .error .emptyElement) :=
  ⟨fun hlast => read_text_of_nestsLast hd ht hlast v hv,
    fun hlast => read_text_of_not_nestsLast hd hp ht hlast v hv⟩

/-- Three costs nested last, and the same costs with a pair in a first place inside the second
component. -/
theorem read_text_of_pairs_of_costs :
    let d : Delimiters := ⟨',', none⟩
    let last : Composed := .product (.simple Tropical) (.product (.simple Log) (.simple Tropical))
    let first : Composed := .product (.simple Log) (.product last (.simple Tropical))
    let v : last.Carrier :=
      (⟨⟨.zero true⟩, ⟨⟨.quiet true⟩, ⟨.infinity false⟩⟩⟩ : Product Tropical (Product Log Tropical))
    let w : first.Carrier :=
      (⟨⟨.quiet true⟩, ⟨v, ⟨.zero false⟩⟩⟩ : Product Log (Product _ Tropical))
    d.validate = .ok () ∧ d.parentheses = none ∧
      (last.OfPairs ∧ last.NestsLast ∧ last.Legible d v ∧
        ∃ u, (Textual.read d (Textual.text d v)).value = .ok u ∧ (u == v) = true) ∧
      (first.OfPairs ∧ ¬ first.NestsLast ∧ first.Legible d w ∧
        (Textual.read d (Textual.text d w) : Traced (Except ReadError first.Carrier)).value =
          .error .emptyElement) := by
  intro d last first v w
  have hcosts : d.AvoidsCosts := Delimiters.avoidsCosts_of_characters (by decide)
  have hpairs : last.OfPairs := ⟨trivial, trivial, trivial⟩
  have hnests : last.NestsLast := ⟨id, trivial, id, trivial, trivial⟩
  have hpairs' : first.OfPairs := ⟨trivial, hpairs, trivial⟩
  have hmisses : ¬ first.NestsLast := fun h => h.2.2.1 trivial
  have hv : last.Legible d v :=
    ⟨Tropical.isLeaf hcosts _, Log.isLeaf hcosts _, Tropical.isLeaf hcosts _⟩
  have hw : first.Legible d w := ⟨Log.isLeaf hcosts _, hv, Tropical.isLeaf hcosts _⟩
  exact ⟨rfl, rfl, ⟨hpairs, hnests, hv, (read_text_of_pairs rfl rfl hpairs v hv).1 hnests⟩,
    hpairs', hmisses, hw, (read_text_of_pairs rfl rfl hpairs' w hw).2 hmisses⟩

end Composed
end WeightedTransducer
