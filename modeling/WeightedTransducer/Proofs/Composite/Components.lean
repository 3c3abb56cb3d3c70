import WeightedTransducer.Proofs.Composite.Steps

/-!
# Values with a fixed number of components

The reader of a pair or an entry takes a fixed number of elements and does not look whether another
was announced.  A closing parenthesis that comes too early therefore does not end the value: the
components that are missing are taken from behind it.  `Delimiters.Components` is what such a reader
takes, component by component.  `Delimiters.components_text_iff` tells the two kinds of text apart
in which it finds a whole value, those of the form of a tuple (`Delimiters.IsTuple`) and those that
were closed early (`Delimiters.ClosedEarly`), and no text is of both kinds
(`Delimiters.IsTuple.not_closedEarly`).
-/

namespace WeightedTransducer

namespace Delimiters
variable {d : Delimiters}

/-- How a text goes on after the last component of a value: where the value is closed already, by
white space; where it is open, by its closing parenthesis, which may have white space in front. -/
def EndsAt (d : Delimiters) : (depth : Nat) → List Char → Prop
  | 0, ahead => Text.StartsBlank ahead
  | 1, ahead => ∃ gap tail, ahead = gap ++ d.closing.toList ++ tail ∧ Text.AllBlank gap ∧
      Text.StartsBlank tail
  | _ + 2, _ => False

/-- The texts of components and the text from which a reader at some depth takes them, with the end
of the value behind. -/
inductive Components (d : Delimiters) : Nat → List (List Char) → List Char → Prop
  /-- The last component. -/
  | last {depth : Nat} {text ahead : List Char} (hne : text ≠ [])
    (htaken : d.Taken true depth text) (hends : d.EndsAt (d.depthAfter depth text) ahead) :
    Components d depth [text] (text ++ ahead)
  /-- A component up to a separator. -/
  | separated {depth : Nat} {text next : List Char} {rest : List (List Char)} (hne : text ≠ [])
    (htaken : d.Taken false depth text) (hdepth : d.depthAfter depth text ≤ 1)
    (hrest : Components d (d.depthAfter depth text) rest next) :
    Components d depth (text :: rest) (text ++ d.separator :: next)
  /-- A component up to the parenthesis that closes the value.  Those that are still to come are
  taken from behind it. -/
  | closed {depth : Nat} {text next : List Char} {rest : List (List Char)} {c : Char}
    (hc : d.closing = some c) (hne : text ≠ []) (htaken : d.Taken false depth text)
    (hdepth : d.depthAfter depth text = 1) (hrest : Components d 0 rest next) :
    Components d depth (text :: rest) (text ++ c :: next)

/-- The form of a value with a fixed number of components: white space in front, the components with
separators between, in parentheses if there are any, and anything at all after white space behind
it. -/
def IsTuple (d : Delimiters) (firsts : List (List Char)) (last text : List Char) : Prop :=
  (∀ t ∈ firsts, d.IsElement t) ∧ d.IsSolid last ∧
    ∃ front gap tail, text = front ++ d.opening.toList ++ ([d.separator].intercalate (firsts ++ [last])
        ++ gap ++ d.closing.toList ++ tail) ∧
      Text.AllBlank front ∧ d.IsGap true gap ∧ Text.StartsBlank tail

/-- The text of a composite value is a tuple of its elements. -/
theorem isTuple_compose {firsts : List (List Char)} {last : List Char}
    (hfirsts : ∀ t ∈ firsts, d.IsElement t) (hlast : d.IsSolid last) :
    d.IsTuple firsts last (d.compose (firsts ++ [last])) :=
  ⟨hfirsts, hlast, [], [], [], by simp [compose], nofun, d.isGap_nil true, nofun⟩

/-- A value whose closing parenthesis comes before the last component: what is missing of the
components in front of it, is taken from behind. -/
def ClosedEarly (d : Delimiters) (firsts : List (List Char)) (last text : List Char) : Prop :=
  ∃ inner outer, firsts = inner ++ outer ∧ inner ≠ [] ∧ (∀ t ∈ inner, d.IsElement t) ∧
    ∃ front c behind, text = front ++ d.opening.toList ++ ([d.separator].intercalate inner
        ++ c :: behind) ∧
      Text.AllBlank front ∧ d.closing = some c ∧ d.Components 0 (outer ++ [last]) behind

theorem EndsAt.depth_le_one {depth : Nat} {ahead : List Char} (h : d.EndsAt depth ahead) :
    depth ≤ 1 := by
  match depth, h with
  | 0, _ => exact Nat.zero_le 1
  | 1, _ => exact Nat.le_refl 1

theorem not_components_nil {depth : Nat} {input : List Char} : ¬ d.Components depth [] input := by
  rintro ⟨⟩

/-- No component begins with white space. -/
theorem Components.not_startsBlank {depth : Nat} {texts : List (List Char)} {input : List Char}
    (h : d.Components depth texts input) : ¬ Text.StartsBlank input := by
  have hword {last : Bool} {depth : Nat} {text : List Char} (hne : text ≠ [])
      (htaken : d.Taken last depth text) (ahead : List Char) :
      ¬ Text.StartsBlank (text ++ ahead) := by
    obtain ⟨x, text, rfl⟩ := List.exists_cons_of_ne_nil hne
    intro hblank
    have hsolid := (endsElement_eq_false_iff.mp htaken.1).1
    rw [hblank x rfl] at hsolid
    cases hsolid
  cases h with
  | last hne htaken => exact hword hne htaken _
  | separated hne htaken => exact hword hne htaken _
  | closed _ hne htaken => exact hword hne htaken _

/-! ## Components inside a value -/

theorem base_of_closing {c : Char} (hc : d.closing = some c) : d.base = 1 := by
  cases hp : d.parentheses with
  | none =>
    rw [closing_of_none hp] at hc
    cases hc
  | some both => exact base_of_some hp

theorem endsAt_base_iff {ahead : List Char} : d.EndsAt d.base ahead ↔
    ∃ gap tail, ahead = gap ++ d.closing.toList ++ tail ∧ d.IsGap true gap ∧
      Text.StartsBlank tail := by
  unfold IsGap
  cases hp : d.parentheses with
  | none => simp [base_of_none hp, closing_of_none hp, EndsAt]
  | some both => simp [base_of_some hp, EndsAt]

/-- What a scan takes between the elements of a value and leaves at most the value open, closes all
that it opens. -/
theorem depthAfter_base (hd : d.Distinct) {last : Bool} {text : List Char}
    (htaken : d.Taken last d.base text)
    (hdepth : d.parentheses.isSome → d.depthAfter d.base text ≤ 1) :
    d.depthAfter d.base text = d.base := by
  have hscan : d.scan last d.base (text ++ []) = ⟨text, [], d.depthAfter d.base text, none⟩ :=
    scan_append_of_taken htaken nofun
  exact depth_eq_base hd hscan hdepth

/-- A whole text that a scan takes is an element, or a solid text where it may be the last. -/
theorem taken_iff_isSolid (hd : d.Distinct) {last : Bool} {text : List Char} :
    text ≠ [] ∧ d.Taken last d.base text ∧ d.depthAfter d.base text = d.base ↔
      d.IsSolid text ∧ (last = false → d.IsElement text) := by
  have hwhole := @scan_base_iff d hd last text text []
  have hstops (depth : Nat) : d.StopsAt last depth [] := nofun
  rw [scan_eq_iff hd] at hwhole
  simp only [List.append_nil, true_and, hstops, and_true] at hwhole
  rw [← hwhole]
  constructor
  · rintro ⟨hne, htaken, hdepth⟩
    exact ⟨⟨htaken, hdepth.symm⟩, hne⟩
  · rintro ⟨⟨htaken, hdepth⟩, hne⟩
    exact ⟨hne, htaken, hdepth.symm⟩

theorem components_base_singleton_iff (hd : d.Distinct) {last input : List Char} :
    d.Components d.base [last] input ↔ d.IsSolid last ∧
      ∃ gap tail, input = last ++ gap ++ d.closing.toList ++ tail ∧ d.IsGap true gap ∧
        Text.StartsBlank tail := by
  constructor
  · intro h
    cases h with
    | separated _ _ _ hrest => exact absurd hrest not_components_nil
    | closed _ _ _ _ hrest => exact absurd hrest not_components_nil
    | @last _ _ ahead hne htaken hends =>
      have hdepth := depthAfter_base hd htaken fun _ => hends.depth_le_one
      rw [hdepth] at hends
      obtain ⟨gap, tail, rfl, hgap, htail⟩ := endsAt_base_iff.mp hends
      exact ⟨((taken_iff_isSolid hd).mp ⟨hne, htaken, hdepth⟩).1, gap, tail, by simp, hgap, htail⟩
  · rintro ⟨hsolid, gap, tail, rfl, hgap, htail⟩
    obtain ⟨hne, htaken, hdepth⟩ :
        last ≠ [] ∧ d.Taken true d.base last ∧ d.depthAfter d.base last = d.base :=
      (taken_iff_isSolid hd).mpr ⟨hsolid, nofun⟩
    rw [List.append_assoc last, List.append_assoc last]
    refine .last hne htaken ?_
    rw [hdepth]
    exact endsAt_base_iff.mpr ⟨gap, tail, rfl, hgap, htail⟩

/-- A component before the last, and those after it: inside the value behind a separator, and
outside behind the closing parenthesis. -/
theorem components_base_cons_iff (hd : d.Distinct) {text : List Char} {rest : List (List Char)}
    {input : List Char} (hrest : rest ≠ []) :
    d.Components d.base (text :: rest) input ↔ d.IsElement text ∧
      ((∃ next, input = text ++ d.separator :: next ∧ d.Components d.base rest next) ∨
        ∃ c next, d.closing = some c ∧ input = text ++ c :: next ∧ d.Components 0 rest next) := by
  constructor
  · intro h
    cases h with
    | last => exact absurd rfl hrest
    | @separated _ _ next _ hne htaken hdepth hcomponents =>
      have hbase := depthAfter_base hd htaken fun _ => hdepth
      rw [hbase] at hcomponents
      exact ⟨((taken_iff_isSolid hd).mp ⟨hne, htaken, hbase⟩).2 rfl,
        Or.inl ⟨next, rfl, hcomponents⟩⟩
    | @closed _ _ next _ c hc hne htaken hdepth hcomponents =>
      have hbase := depthAfter_base hd htaken fun _ => hdepth.le
      exact ⟨((taken_iff_isSolid hd).mp ⟨hne, htaken, hbase⟩).2 rfl,
        Or.inr ⟨c, next, hc, rfl, hcomponents⟩⟩
  · rintro ⟨helement, h⟩
    obtain ⟨hne, htaken, hdepth⟩ :=
      (taken_iff_isSolid hd).mpr ⟨helement.toIsSolid, fun _ : false = false => helement⟩
    rcases h with ⟨next, rfl, hcomponents⟩ | ⟨c, next, hc, rfl, hcomponents⟩
    · refine .separated hne htaken (hdepth.trans_le base_le_one) ?_
      rwa [hdepth]
    · exact .closed hc hne htaken (hdepth.trans (base_of_closing hc)) hcomponents

/-- **The components of a value stand with separators between in its parentheses, or the
parentheses are closed before some of them.** -/
theorem components_base_iff (hd : d.Distinct) {firsts : List (List Char)} {last input : List Char} :
    d.Components d.base (firsts ++ [last]) input ↔
      ((∀ t ∈ firsts, d.IsElement t) ∧ d.IsSolid last ∧ ∃ gap tail,
        input = [d.separator].intercalate (firsts ++ [last]) ++ gap ++ d.closing.toList ++ tail ∧
          d.IsGap true gap ∧ Text.StartsBlank tail) ∨
      ∃ inner outer, firsts = inner ++ outer ∧ inner ≠ [] ∧ (∀ t ∈ inner, d.IsElement t) ∧
        ∃ c behind, input = [d.separator].intercalate inner ++ c :: behind ∧ d.closing = some c ∧
          d.Components 0 (outer ++ [last]) behind := by
  -- inside the value one component after another, until a separator is missing
  induction firsts generalizing input with
  | nil =>
    rw [List.nil_append, components_base_singleton_iff hd, List.intercalate_singleton]
    constructor
    · intro h
      exact Or.inl ⟨nofun, h⟩
    · rintro (⟨-, h⟩ | ⟨inner, outer, hsplit, hne, -⟩)
      · exact h
      · exact absurd (List.append_eq_nil_iff.mp hsplit.symm).1 hne
  | cons text firsts ih =>
    have hrest : firsts ++ [last] ≠ [] := by simp
    rw [List.cons_append, components_base_cons_iff hd hrest, List.intercalate_cons_of_ne_nil hrest]
    constructor
    · rintro ⟨helement, ⟨next, rfl, hnext⟩ | ⟨c, next, hc, rfl, hnext⟩⟩
      · rcases ih.mp hnext with ⟨hfirsts, hlast, gap, tail, rfl, hgap, htail⟩ |
          ⟨inner, outer, rfl, hne, hinner, c, behind, rfl, hc, hbehind⟩
        · exact Or.inl ⟨List.forall_mem_cons.mpr ⟨helement, hfirsts⟩, hlast, gap, tail, by simp,
            hgap, htail⟩
        · refine Or.inr ⟨text :: inner, outer, rfl, List.cons_ne_nil _ _,
            List.forall_mem_cons.mpr ⟨helement, hinner⟩, c, behind, ?_, hc, hbehind⟩
          rw [List.intercalate_cons_of_ne_nil hne]
          simp
      · refine Or.inr ⟨[text], firsts, rfl, List.cons_ne_nil _ _, by simpa using helement, c, next,
          ?_, hc, hnext⟩
        rw [List.intercalate_singleton]
    · rintro (⟨hall, hlast, gap, tail, rfl, hgap, htail⟩ |
        ⟨inner, outer, hsplit, hne, hinner, c, behind, rfl, hc, hbehind⟩)
      · obtain ⟨helement, hfirsts⟩ := List.forall_mem_cons.mp hall
        have hnext := ih.mpr (Or.inl ⟨hfirsts, hlast, gap, tail, rfl, hgap, htail⟩)
        exact ⟨helement, Or.inl ⟨_, by simp, hnext⟩⟩
      · obtain ⟨first, inner, rfl⟩ := List.exists_cons_of_ne_nil hne
        obtain ⟨rfl, rfl⟩ := List.cons.inj hsplit
        obtain ⟨helement, hinner⟩ := List.forall_mem_cons.mp hinner
        refine ⟨helement, ?_⟩
        by_cases hmore : inner = []
        · subst hmore
          rw [List.intercalate_singleton]
          exact Or.inr ⟨c, behind, hc, rfl, hbehind⟩
        · rw [List.intercalate_cons_of_ne_nil hmore]
          have hnext := ih.mpr
            (Or.inr ⟨inner, outer, rfl, hmore, hinner, c, behind, rfl, hc, hbehind⟩)
          exact Or.inl ⟨_, by simp, hnext⟩

/-! ## The two kinds of text differ -/

/-- An element is cut off in one way. -/
theorem IsElement.eq_of_append_eq (hd : d.Distinct) {s t ahead ahead' : List Char}
    (hs : d.IsElement s) (ht : d.IsElement t) (hstops : d.StopsAt false d.base ahead)
    (hstops' : d.StopsAt false d.base ahead') (h : s ++ ahead = t ++ ahead') :
    s = t ∧ ahead = ahead' := by
  have hscan := ((scan_base_iff hd).mpr ⟨rfl, hs.toIsSolid, fun _ => hs, hstops⟩).1
  have hscan' := ((scan_base_iff hd).mpr ⟨rfl, ht.toIsSolid, fun _ => ht, hstops'⟩).1
  rw [h, hscan'] at hscan
  obtain ⟨htext, hahead, -, -⟩ := Scan.mk.inj hscan
  exact ⟨htext.symm, hahead.symm⟩

/-- Where elements are followed by the closing parenthesis, there are not more of them with
separators between. -/
theorem intercalate_closing_ne (hd : d.Distinct) {c : Char} (hc : d.closing = some c)
    {inner firsts : List (List Char)} (hne : inner ≠ []) (hinner : ∀ t ∈ inner, d.IsElement t)
    (hfirsts : ∀ t ∈ firsts, d.IsElement t) (hlength : inner.length ≤ firsts.length)
    (last behind more : List Char) :
    [d.separator].intercalate inner ++ c :: behind ≠
      [d.separator].intercalate (firsts ++ [last]) ++ more := by
  have hseparator (next : List Char) : d.StopsAt false d.base (d.separator :: next) :=
    Reading.stopsAt_separator base_le_one next
  induction inner generalizing firsts with
  | nil => exact absurd rfl hne
  | cons text inner ih =>
    obtain ⟨first, firsts, rfl⟩ := List.exists_cons_of_length_pos (hlength.trans_lt' (by simp))
    obtain ⟨htext, hinner⟩ := List.forall_mem_cons.mp hinner
    obtain ⟨hfirst, hfirsts⟩ := List.forall_mem_cons.mp hfirsts
    rw [List.cons_append, List.intercalate_cons_of_ne_nil (by simp : firsts ++ [last] ≠ [])]
    by_cases hmore : inner = []
    · -- the closing parenthesis would be the separator
      intro h
      have hclosing : d.StopsAt false d.base (c :: behind) := by
        rw [base_of_closing hc]
        exact Reading.stopsAt_closing hc behind
      subst hmore
      rw [List.intercalate_singleton, List.append_assoc, List.append_assoc] at h
      have hahead := (htext.eq_of_append_eq hd hfirst hclosing (hseparator _) h).2
      exact hd.closing_ne_separator (hc.trans (congrArg some (List.cons.inj hahead).1))
    · intro h
      rw [List.intercalate_cons_of_ne_nil hmore] at h
      simp only [List.append_assoc, List.singleton_append] at h
      have hahead := (htext.eq_of_append_eq hd hfirst (hseparator _) (hseparator _) h).2
      exact ih hmore hinner hfirsts (by simpa using hlength) (List.cons.inj hahead).2

/-- A text of the form of a tuple was not closed early. -/
theorem IsTuple.not_closedEarly (hd : d.Distinct) {firsts firsts' : List (List Char)}
    {last last' text : List Char} (h : d.IsTuple firsts last text)
    (hlength : firsts'.length ≤ firsts.length) : ¬ d.ClosedEarly firsts' last' text := by
  rintro ⟨inner, outer, rfl, hne, hinner, front, c, behind, htext, hfront, hc, -⟩
  obtain ⟨hfirsts, -, front', gap, tail, htext', hfront', -, -⟩ := h
  obtain ⟨⟨o, c'⟩, hp, rfl⟩ := Option.map_eq_some_iff.mp hc
  have ho := opening_of_some hp
  have hbegin {front body : List Char} (hblank : Text.AllBlank front)
      (h : text = front ++ d.opening.toList ++ body) : Text.trimStart text = o :: body := by
    refine Text.trimStart_eq_iff.mpr ⟨front, by simpa [ho] using h, hblank, ?_⟩
    exact fun x hx => Option.some.inj hx ▸ hd.opening_not_blank o ho
  have hbody := (hbegin hfront htext).symm.trans (hbegin hfront' htext')
  have hle : inner.length ≤ firsts.length := by
    rw [List.length_append] at hlength
    omega
  rw [List.append_assoc, List.append_assoc] at hbody
  exact intercalate_closing_ne hd hc hne hinner hfirsts hle last behind _ (List.cons.inj hbody).2

/-- The components of a value, with what stands in front of them. -/
theorem components_text_iff (hd : d.Distinct) {firsts : List (List Char)} {last text : List Char} :
    (∃ front body, text = front ++ d.opening.toList ++ body ∧ Text.AllBlank front ∧
        d.Components d.base (firsts ++ [last]) body) ↔
      d.IsTuple firsts last text ∨ d.ClosedEarly firsts last text := by
  constructor
  · rintro ⟨front, body, rfl, hfront, hbody⟩
    rcases (components_base_iff hd).mp hbody with ⟨hfirsts, hlast, gap, tail, rfl, hgap, htail⟩ |
      ⟨inner, outer, hsplit, hne, hinner, c, behind, rfl, hc, hbehind⟩
    · exact Or.inl ⟨hfirsts, hlast, front, gap, tail, rfl, hfront, hgap, htail⟩
    · exact Or.inr ⟨inner, outer, hsplit, hne, hinner, front, c, behind, rfl, hfront, hc, hbehind⟩
  · rintro (⟨hfirsts, hlast, front, gap, tail, rfl, hfront, hgap, htail⟩ |
      ⟨inner, outer, hsplit, hne, hinner, front, c, behind, rfl, hfront, hc, hbehind⟩)
    · have hbody := (components_base_iff hd).mpr
        (Or.inl ⟨hfirsts, hlast, gap, tail, rfl, hgap, htail⟩)
      exact ⟨front, _, rfl, hfront, hbody⟩
    · have hbody := (components_base_iff hd).mpr
        (Or.inr ⟨inner, outer, hsplit, hne, hinner, c, behind, rfl, hc, hbehind⟩)
      exact ⟨front, _, rfl, hfront, hbody⟩

/-! ## The depth without parentheses -/

theorem depthAfter_of_none (hp : d.parentheses = none) (depth : Nat) (text : List Char) :
    d.depthAfter depth text = depth := by
  have hafter (depth : Nat) (c : Char) : d.after depth c = depth := by
    simp [after, opening_of_none hp, closing_of_none hp]
  induction text generalizing depth with
  | nil => rfl
  | cons c rest ih => exact (ih _).trans (hafter depth c)

theorem depthAfter_eq_zero {depth : Nat} (hdepth : d.parentheses = none → depth = 0)
    (text : List Char) : d.parentheses = none → d.depthAfter depth text = 0 := by
  intro hp
  rw [depthAfter_of_none hp, hdepth hp]

/-- What is open must have been opened by a parenthesis. -/
theorem exists_closing {depth : Nat} (hdepth : d.parentheses = none → depth + 1 = 0) :
    ∃ c, d.closing = some c := by
  cases hp : d.parentheses with
  | none => cases hdepth hp
  | some both => exact ⟨both.2, closing_of_some hp⟩

end Delimiters

end WeightedTransducer
