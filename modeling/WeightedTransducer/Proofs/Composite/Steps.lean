import WeightedTransducer.Composite.Sequence
import WeightedTransducer.Proofs.Composite.Nesting
import WeightedTransducer.Proofs.Text.Blank

/-!
# The steps of reading a composite value

What each step of reading takes, and from which texts: the opening parenthesis
(`Reading.yields_opening_iff`), an element and the separator after it
(`Reading.yields_next_element_iff`), an element that is the last, with the end of the value
(`Reading.yields_element_closing_iff`).  A reader between two elements is `CompositeReader.inside`:
nothing is known of it but the text ahead, so a whole value is followed step by step without its
state.
-/

namespace WeightedTransducer

/-- A reader inside a value, in front of an element. -/
def CompositeReader.inside (d : Delimiters) (ahead : List Char) : CompositeReader :=
  { delimiters := d, ahead, depth := d.base }

theorem CompositeReader.value_start {d : Delimiters} (hd : d.validate = .ok ())
    (input : List Char) : (start d input).value = { delimiters := d, ahead := input } := by
  unfold start
  rw [Delimiters.conflict?_eq_none_of_validate hd]
  rfl

theorem CompositeReader.value_start_of_conflict {d : Delimiters} {c : Delimiters.Conflict}
    (hd : d.conflict? = some c) (input : List Char) :
    (start d input).value = { delimiters := d, ahead := input, valid := false } := by
  unfold start
  rw [hd]
  rfl

namespace Delimiters

theorem IsSolid.isWord {d : Delimiters} {text : List Char} (h : d.IsSolid text) :
    Text.IsWord text :=
  ⟨h.ne_nil, h.not_blank⟩

/-- What may stand between the last element and the end of a value: white space before the closing
parenthesis, or nothing without parentheses.  Where separators end an element, one may be left over
here, but not directly before the closing parenthesis. -/
def IsGap (d : Delimiters) (last : Bool) (gap : List Char) : Prop :=
  match d.parentheses with
  | some _ => Text.AllBlank gap ∨
      last = false ∧ ∃ blanks, blanks ≠ [] ∧ Text.AllBlank blanks ∧ gap = d.separator :: blanks
  | none => gap = [] ∨ last = false ∧ gap = [d.separator]

theorem isGap_nil (d : Delimiters) (last : Bool) : d.IsGap last [] := by
  unfold IsGap
  split
  · exact Or.inl nofun
  · exact Or.inl rfl

/-- What may stand at the end is what may stand there without a separator, or a separator left over
and then that; in parentheses it is not left over directly before the closing one. -/
theorem isGap_iff {d : Delimiters} {last : Bool} {gap : List Char} :
    d.IsGap last gap ↔ d.IsGap true gap ∨ last = false ∧ ∃ rest, gap = d.separator :: rest ∧
      d.IsGap true rest ∧ (d.parentheses.isSome → rest ≠ []) := by
  unfold IsGap
  cases d.parentheses with
  | none => simp
  | some both =>
    simp only [Bool.true_eq_false, false_and, or_false, Option.isSome_some, true_implies]
    refine or_congr_right (and_congr_right fun _ => exists_congr fun rest => ?_)
    constructor
    · rintro ⟨hne, hrest, hgap⟩
      exact ⟨hgap, hrest, hne⟩
    · rintro ⟨hgap, hrest, hne⟩
      exact ⟨hne, hrest, hgap⟩

/-- What stands at the end begins with a blank, unless the closing parenthesis comes first. -/
theorem IsGap.startsBlank {d : Delimiters} {gap tail : List Char} (hgap : d.IsGap true gap)
    (hne : d.parentheses.isSome → gap ≠ []) (htail : Text.StartsBlank tail) :
    Text.StartsBlank (gap ++ d.closing.toList ++ tail) := by
  unfold IsGap at hgap
  cases hp : d.parentheses with
  | none =>
    rw [hp] at hgap
    rcases hgap with rfl | ⟨hlast, -⟩
    · rw [closing_of_none hp]
      exact htail
    · cases hlast
  | some both =>
    rw [hp] at hgap hne
    rcases hgap with hgap | ⟨hlast, -⟩
    · rw [List.append_assoc]
      exact hgap.startsBlank (hne rfl) _
    · cases hlast

end Delimiters

namespace Reading
variable {α β : Type}

/-- A step that succeeds: its result, and the reader afterwards. -/
def Yields (step : Reading α) (r : CompositeReader) (a : α) (r' : CompositeReader) : Prop :=
  (step r).value = (.ok a, r')

/-! ## Steps in general -/

theorem yields_pure_iff {a b : α} {r r' : CompositeReader} :
    (pure a : Reading α).Yields r b r' ↔ b = a ∧ r' = r := by
  show ((Except.ok a, r) : Except ReadError α × _) = (.ok b, r') ↔ _
  simp only [Prod.mk.injEq, Except.ok.injEq]
  exact and_congr eq_comm eq_comm

/-- Steps one after the other. -/
theorem yields_bind_iff {step : Reading α} {next : α → Reading β} {r r' : CompositeReader} {b : β} :
    (step >>= next).Yields r b r' ↔ ∃ a mid, step.Yields r a mid ∧ (next a).Yields mid b r' := by
  obtain ⟨result, mid, hstep⟩ : ∃ result mid, (step r).value = (result, mid) := ⟨_, _, rfl⟩
  unfold Yields
  dsimp only [bind]
  rw [hstep]
  cases result with
  | error e =>
    constructor
    · intro h
      cases h
    · rintro ⟨a, mid', heq, -⟩
      cases heq
  | ok a =>
    constructor
    · intro h
      exact ⟨a, mid, rfl, h⟩
    · rintro ⟨a', mid', heq, h⟩
      cases heq
      exact h

theorem not_yields_fail (e : ReadError) (r : CompositeReader) (a : α) (r' : CompositeReader) :
    ¬ (fail e : Reading α).Yields r a r' := by
  rintro ⟨⟩

variable {d : Delimiters}

theorem guarded_apply (hd : d.validate = .ok ()) (step : Reading α) (ahead : List Char)
    (depth : Nat) :
    guarded step { delimiters := d, ahead, depth } = step { delimiters := d, ahead, depth } := by
  unfold guarded
  rw [Delimiters.conflict?_eq_none_of_validate hd]
  rfl

theorem yields_guarded_iff (hd : d.validate = .ok ()) {step : Reading α} {ahead : List Char}
    {depth : Nat} {a : α} {r' : CompositeReader} :
    (guarded step).Yields { delimiters := d, ahead, depth } a r' ↔
      (step { delimiters := d, ahead, depth }).value = (.ok a, r') := by
  rw [Yields, guarded_apply hd]

theorem value_runOn (hd : d.validate = .ok ()) (text : List Char) (reading : Reading α) :
    (runOn d text reading).value = (reading { delimiters := d, ahead := text }).value.1 := by
  unfold runOn
  rw [Traced.value_bind, CompositeReader.value_start hd]
  rfl

/-- A complete text is read if a reader at its start succeeds. -/
theorem runOn_eq_ok_iff (hd : d.validate = .ok ()) {text : List Char} {reading : Reading α}
    {a : α} : (runOn d text reading).value = .ok a ↔
      ∃ r', reading.Yields { delimiters := d, ahead := text } a r' := by
  rw [value_runOn hd]
  exact ⟨fun h => ⟨_, Prod.ext h rfl⟩, fun ⟨r', h⟩ => congrArg Prod.fst h⟩

/-! ## The opening parenthesis -/

theorem value_opening (hd : d.validate = .ok ()) (input : List Char) :
    (opening { delimiters := d, ahead := input }).value =
      match d.opening with
      | none => (.ok (), { delimiters := d, ahead := Text.trimStart input })
      | some o =>
        if (Text.trimStart input).head? = some o then
          (.ok (), { delimiters := d, ahead := (Text.trimStart input).tail, depth := 1 })
        else (.error (.missingOpening o (Text.trimStart input).head?),
          { delimiters := d, ahead := Text.trimStart input, valid := false }) := by
  refine (congrArg Traced.value (guarded_apply hd _ _ _)).trans ?_
  dsimp only
  cases d.opening with
  | none => rfl
  | some o => exact apply_ite Traced.value _ _ _

/-- A value may begin with white space, before the opening parenthesis if there is one. -/
theorem yields_opening_iff (hd : d.validate = .ok ()) {input : List Char} {r' : CompositeReader} :
    opening.Yields { delimiters := d, ahead := input } () r' ↔
      ∃ front body, input = front ++ d.opening.toList ++ body ∧ Text.AllBlank front ∧
        (d.opening = none → Text.StartsSolid body) ∧ r' = .inside d body := by
  unfold Yields
  rw [value_opening hd]
  cases hp : d.parentheses with
  | none =>
    have hinside (body : List Char) :
        CompositeReader.inside d body = { delimiters := d, ahead := body } := by
      rw [CompositeReader.inside, Delimiters.base_of_none hp]
    rw [Delimiters.opening_of_none hp]
    simp only [Prod.mk.injEq, true_and, Option.toList_none, List.append_nil, forall_const]
    constructor
    · rintro rfl
      obtain ⟨front, hinput, hfront, hsolid⟩ := Text.trimStart_eq_iff.mp rfl
      exact ⟨front, _, hinput, hfront, hsolid, (hinside _).symm⟩
    · rintro ⟨front, body, hinput, hfront, hsolid, rfl⟩
      rw [Text.trimStart_eq_iff.mpr ⟨front, hinput, hfront, hsolid⟩, hinside]
  | some both =>
    obtain ⟨o, c⟩ := both
    have ho := Delimiters.opening_of_some hp
    have hinside (body : List Char) :
        CompositeReader.inside d body = { delimiters := d, ahead := body, depth := 1 } := by
      rw [CompositeReader.inside, Delimiters.base_of_some hp]
    have hsolid (body : List Char) : Text.StartsSolid (o :: body) := fun c hc =>
      Option.some.inj hc ▸ (Delimiters.distinct_of_validate hd).opening_not_blank o ho
    rw [ho]
    dsimp only
    constructor
    · intro h
      split at h
      · rename_i hhead
        obtain ⟨body, hbody⟩ := List.head?_eq_some_iff.mp hhead
        obtain ⟨front, hinput, hfront, -⟩ := Text.trimStart_eq_iff.mp hbody
        refine ⟨front, body, by simpa using hinput, hfront, nofun, ?_⟩
        rw [← (Prod.mk.inj h).2, hbody, hinside, List.tail_cons]
      · cases h
    · rintro ⟨front, body, hinput, hfront, -, rfl⟩
      have htrim : Text.trimStart input = o :: body :=
        Text.trimStart_eq_iff.mpr ⟨front, by simpa using hinput, hfront, hsolid body⟩
      rw [htrim, hinside, if_pos List.head?_cons, List.tail_cons]

/-! ## Elements -/

variable [Textual α]

/-- An element is taken from the text ahead at any depth of parentheses. -/
theorem yields_element_at_iff (hd : d.validate = .ok ()) {last more : Bool} {input : List Char}
    {depth : Nat} {a : α} {r' : CompositeReader} :
    (element last).Yields { delimiters := d, ahead := input, depth } (a, more) r' ↔
      ∃ text ahead depth', d.scan last depth input = { text, ahead, depth := depth' } ∧ text ≠ [] ∧
        (Textual.read d text).value = .ok a ∧
        afterElement { delimiters := d, ahead, depth := depth' } = (more, r') := by
  refine (yields_guarded_iff hd).trans ?_
  dsimp only
  generalize d.scan last depth input = s
  obtain ⟨text, ahead, depth, unmatched⟩ := s
  cases unmatched with
  | some c =>
    constructor
    · intro h
      exact absurd h (not_yields_fail _ _ _ _)
    · rintro ⟨_, _, _, h, -⟩
      cases h
  | none =>
    dsimp only
    cases text with
    | nil =>
      constructor
      · intro h
        exact absurd h (not_yields_fail _ _ _ _)
      · rintro ⟨_, _, _, h, hne, -⟩
        cases h
        exact absurd rfl hne
    | cons c rest =>
      simp only [List.isEmpty_cons, Bool.false_eq_true, if_false, Traced.value_bind]
      constructor
      · intro h
        refine ⟨_, _, _, rfl, List.cons_ne_nil _ _, ?_⟩
        split at h
        · exact absurd h (not_yields_fail _ _ _ _)
        · rename_i b hread
          simp only [Traced.value_pure, Prod.mk.injEq, Except.ok.injEq] at h
          obtain ⟨⟨rfl, hmore⟩, hr⟩ := h
          exact ⟨hread, Prod.ext hmore hr⟩
      · rintro ⟨_, _, _, h, -, hread, hafter⟩
        cases h
        rw [hread]
        simp only [Traced.value_pure, hafter]

theorem yields_element_iff (hd : d.validate = .ok ()) {last more : Bool} {input : List Char} {a : α}
    {r' : CompositeReader} :
    (element last).Yields (.inside d input) (a, more) r' ↔ ∃ text ahead depth,
      d.scan last d.base input = { text, ahead, depth } ∧ text ≠ [] ∧
        (Textual.read d text).value = .ok a ∧
        afterElement { delimiters := d, ahead, depth } = (more, r') :=
  yields_element_at_iff hd

/-- Where a scan stops, it stops at the end or a blank, at a separator, or at the closing
parenthesis of the value. -/
theorem stopsAt_iff {last : Bool} {depth : Nat} {ahead : List Char} :
    d.StopsAt last depth ahead ↔ Text.StartsBlank ahead ∨
      (∃ next, ahead = d.separator :: next ∧ depth ≤ 1 ∧ last = false) ∨
      ∃ c tail, d.closing = some c ∧ ahead = c :: tail ∧ depth = 1 := by
  cases ahead with
  | nil => exact ⟨fun _ => .inl nofun, fun _ => nofun⟩
  | cons x rest =>
    simp only [Delimiters.StopsAt, Text.StartsBlank, Delimiters.endsElement, List.head?_cons,
      Option.mem_def, Option.some.injEq, forall_eq', List.cons.injEq]
    cases last <;> simp
    grind

theorem stopsAt_separator {depth : Nat} (hdepth : depth ≤ 1) (next : List Char) :
    d.StopsAt false depth (d.separator :: next) :=
  stopsAt_iff.mpr (.inr (.inl ⟨next, rfl, hdepth, rfl⟩))

theorem stopsAt_closing {last : Bool} {c : Char} (hc : d.closing = some c) (tail : List Char) :
    d.StopsAt last 1 (c :: tail) :=
  stopsAt_iff.mpr (.inr (.inr ⟨c, tail, hc, rfl, rfl⟩))

theorem afterElement_of_startsBlank {ahead : List Char} (h : Text.StartsBlank ahead) (depth : Nat) :
    afterElement { delimiters := d, ahead, depth } =
      (false, { delimiters := d, ahead, depth }) := by
  cases ahead with
  | nil => rfl
  | cons c rest => exact if_pos (h c rfl)

theorem afterElement_separator (hd : d.Distinct) (next : List Char) (depth : Nat) :
    afterElement { delimiters := d, ahead := d.separator :: next, depth } =
      (next.head?.any (!Text.isBlank ·), { delimiters := d, ahead := next, depth }) := by
  simp [afterElement, hd.separator_not_blank, hd.closing_ne_separator]

theorem afterElement_closing (hd : d.Distinct) {c : Char} (hc : d.closing = some c)
    (tail : List Char) :
    afterElement { delimiters := d, ahead := c :: tail, depth := 1 } =
      (false, { delimiters := d, ahead := tail }) := by
  simp [afterElement, hd.closing_not_blank c hc, hc]

/-- An element is taken up to the separator after it. -/
theorem yields_element_of_separator (hd : d.validate = .ok ()) {text : List Char} {a : α}
    (htext : d.IsElement text) (hread : (Textual.read d text).value = .ok a) (next : List Char) :
    (element false).Yields (.inside d (text ++ d.separator :: next))
      (a, next.head?.any (!Text.isBlank ·)) (.inside d next) := by
  have hdistinct := Delimiters.distinct_of_validate hd
  obtain ⟨hscan, hne⟩ := (Delimiters.scan_base_iff hdistinct).mpr
    ⟨rfl, htext.toIsSolid, fun _ => htext, stopsAt_separator Delimiters.base_le_one next⟩
  exact (yields_element_iff hd).mpr
    ⟨_, _, _, hscan, hne, hread, afterElement_separator hdistinct next d.base⟩

/-- More elements are announced by a separator in front of something that is not blank, and by
nothing else. -/
theorem yields_next_element_iff (hd : d.validate = .ok ()) {input : List Char} {a : α}
    {r' : CompositeReader} :
    (element false).Yields (.inside d input) (a, true) r' ↔ ∃ text next,
      input = text ++ d.separator :: next ∧ d.IsElement text ∧
        next.head?.any (!Text.isBlank ·) = true ∧ (Textual.read d text).value = .ok a ∧
        r' = .inside d next := by
  have hdistinct := Delimiters.distinct_of_validate hd
  constructor
  · intro h
    obtain ⟨text, ahead, depth, hscan, hne, hread, hafter⟩ := (yields_element_iff hd).mp h
    obtain ⟨-, -, -, hstops⟩ := (Delimiters.scan_eq_iff hdistinct).mp hscan
    rcases stopsAt_iff.mp hstops with hblank | ⟨next, rfl, hdepth, -⟩ | ⟨c, tail, hc, rfl, rfl⟩
    · rw [afterElement_of_startsBlank hblank] at hafter
      cases hafter
    · obtain rfl := Delimiters.depth_eq_base hdistinct hscan fun _ => hdepth
      obtain ⟨rfl, -, helement, -⟩ := (Delimiters.scan_base_iff hdistinct).mp ⟨hscan, hne⟩
      rw [afterElement_separator hdistinct, Prod.mk.injEq] at hafter
      exact ⟨text, next, rfl, helement rfl, hafter.1, hread, hafter.2.symm⟩
    · rw [afterElement_closing hdistinct hc] at hafter
      cases hafter
  · rintro ⟨text, next, rfl, htext, hmore, hread, rfl⟩
    have h := yields_element_of_separator hd htext hread next
    rw [hmore] at h
    exact h

/-! ## The end of a value -/

/-- Closing a value succeeds at some text ahead and depth. -/
def Closes (d : Delimiters) (ahead : List Char) (depth : Nat) : Prop :=
  ∃ r', closing.Yields { delimiters := d, ahead, depth } () r'

theorem nothingFollows_iff {r : CompositeReader} :
    (nothingFollows r).value.1 = .ok () ↔ Text.StartsBlank r.ahead := by
  obtain ⟨d, ahead, depth, valid⟩ := r
  cases ahead with
  | nil => exact ⟨fun _ => nofun, fun _ => rfl⟩
  | cons c rest =>
    have hvalue : (nothingFollows ⟨d, c :: rest, depth, valid⟩).value.1 =
        if Text.isBlank c then .ok () else .error (.excess c) := by
      cases hblank : Text.isBlank c <;> simp [nothingFollows, CompositeReader.current, hblank]
    rw [hvalue]
    cases hblank : Text.isBlank c <;> simp [Text.StartsBlank, hblank]

theorem closes_iff {ahead : List Char} {depth : Nat} :
    Closes d ahead depth ↔ (closing { delimiters := d, ahead, depth }).value.1 = .ok () :=
  ⟨fun ⟨_, h⟩ => congrArg Prod.fst h, fun h => ⟨_, Prod.ext h rfl⟩⟩

theorem value_closing_zero (hd : d.validate = .ok ()) (ahead : List Char) :
    (closing { delimiters := d, ahead }).value =
      (nothingFollows { delimiters := d, ahead }).value := by
  refine (congrArg Traced.value (guarded_apply hd _ _ _)).trans ?_
  dsimp only
  cases d.closing <;> rfl

/-- With nothing left open, a value may be followed by white space only. -/
theorem closes_zero_iff (hd : d.validate = .ok ()) {ahead : List Char} :
    Closes d ahead 0 ↔ Text.StartsBlank ahead := by
  rw [closes_iff, value_closing_zero hd, nothingFollows_iff]

theorem value_closing_one (hd : d.validate = .ok ()) {c : Char} (hc : d.closing = some c)
    (ahead : List Char) :
    (closing { delimiters := d, ahead, depth := 1 }).value =
      if (Text.trimStart ahead).head? = some c then
        (nothingFollows { delimiters := d, ahead := (Text.trimStart ahead).tail }).value
      else (.error (.missingClosing c),
        { delimiters := d, ahead := Text.trimStart ahead, depth := 1, valid := false }) := by
  refine (congrArg Traced.value (guarded_apply hd _ _ _)).trans ?_
  dsimp only
  rw [hc]
  generalize Text.trimStart ahead = trimmed
  by_cases hhead : trimmed.head? = some c
  · have htake : closing.takeClosing c { delimiters := d, ahead := trimmed, depth := 1 } =
        { delimiters := d, ahead := trimmed.tail } := if_pos hhead
    rw [if_pos hhead]
    simp only [if_true, htake]
  · have htake : closing.takeClosing c { delimiters := d, ahead := trimmed, depth := 1 } =
        { delimiters := d, ahead := trimmed, depth := 1 } := if_neg hhead
    rw [if_neg hhead]
    simp only [if_true, htake]
    rfl

/-- With one parenthesis open, it is the one that closes the value. -/
theorem closes_one_iff (hd : d.validate = .ok ()) {c : Char} (hc : d.closing = some c)
    {ahead : List Char} :
    Closes d ahead 1 ↔
      ∃ gap tail, ahead = gap ++ c :: tail ∧ Text.AllBlank gap ∧ Text.StartsBlank tail := by
  have hsolid (tail : List Char) : Text.StartsSolid (c :: tail) := fun x hx =>
    Option.some.inj hx ▸ (Delimiters.distinct_of_validate hd).closing_not_blank c hc
  rw [closes_iff, value_closing_one hd hc]
  constructor
  · intro h
    split at h
    · rename_i hhead
      obtain ⟨tail, htail⟩ := List.head?_eq_some_iff.mp hhead
      obtain ⟨gap, hahead, hgap, -⟩ := Text.trimStart_eq_iff.mp htail
      rw [htail, nothingFollows_iff] at h
      exact ⟨gap, tail, hahead, hgap, h⟩
    · cases h
  · rintro ⟨gap, tail, hahead, hgap, htail⟩
    rw [Text.trimStart_eq_iff.mpr ⟨gap, hahead, hgap, hsolid tail⟩, if_pos List.head?_cons]
    exact nothingFollows_iff.mpr htail

/-- With more than one parenthesis open, a value cannot be closed. -/
theorem depth_le_one_of_closes (hd : d.validate = .ok ()) {c : Char} (hc : d.closing = some c)
    {ahead : List Char} {depth : Nat} (h : Closes d ahead depth) : depth ≤ 1 := by
  by_contra hdepth
  obtain ⟨k, rfl⟩ : ∃ k, depth = k + 2 := ⟨depth - 2, by omega⟩
  have hvalue : (closing { delimiters := d, ahead, depth := k + 2 }).value =
      (.error (.missingClosing c), { delimiters := d, ahead, depth := k + 2, valid := false }) := by
    refine (congrArg Traced.value (guarded_apply hd _ _ _)).trans ?_
    dsimp only
    rw [hc]
    rfl
  rw [closes_iff, hvalue] at h
  cases h

/-- In front of the end of a value, nothing else is open but the value itself. -/
theorem closes_base_iff (hd : d.validate = .ok ()) {ahead : List Char} :
    Closes d ahead d.base ↔ ∃ gap tail, ahead = gap ++ d.closing.toList ++ tail ∧
      d.IsGap true gap ∧ Text.StartsBlank tail := by
  unfold Delimiters.IsGap
  cases hp : d.parentheses with
  | none =>
    rw [Delimiters.base_of_none hp, Delimiters.closing_of_none hp, closes_zero_iff hd]
    simp
  | some both =>
    obtain ⟨o, c⟩ := both
    have hc := Delimiters.closing_of_some hp
    rw [Delimiters.base_of_some hp, closes_one_iff hd hc, hc]
    simp

theorem any_head?_eq_false_iff {text : List Char} :
    text.head?.any (!Text.isBlank ·) = false ↔ Text.StartsBlank text := by
  cases text <;> simp [Text.StartsBlank]

theorem stopsAt_end {last : Bool} {gap tail : List Char} (hgap : d.IsGap last gap)
    (htail : Text.StartsBlank tail) :
    d.StopsAt last d.base (gap ++ d.closing.toList ++ tail) := by
  rw [stopsAt_iff]
  rcases Delimiters.isGap_iff.mp hgap with hgap | ⟨hlast, rest, rfl, -, -⟩
  · by_cases hne : d.parentheses.isSome → gap ≠ []
    · exact Or.inl (hgap.startsBlank hne htail)
    · obtain ⟨hp, hnil⟩ := Classical.not_imp.mp hne
      obtain ⟨⟨o, c⟩, hboth⟩ := Option.isSome_iff_exists.mp hp
      have hc := Delimiters.closing_of_some hboth
      refine Or.inr (Or.inr ⟨c, tail, hc, ?_, Delimiters.base_of_some hboth⟩)
      simp [hc, not_not.mp hnil]
  · exact Or.inr (Or.inl ⟨_, rfl, Delimiters.base_le_one, hlast⟩)

/-- How the text goes on at the end of a value, after the last element. -/
theorem afterElement_closes_iff (hd : d.validate = .ok ()) {last : Bool} {ahead : List Char}
    (hstops : d.StopsAt last d.base ahead) :
    (∃ mid r', afterElement { delimiters := d, ahead, depth := d.base } = (false, mid) ∧
        closing.Yields mid () r') ↔
      ∃ gap tail, ahead = gap ++ d.closing.toList ++ tail ∧ d.IsGap last gap ∧
        Text.StartsBlank tail := by
  have hdistinct := Delimiters.distinct_of_validate hd
  constructor
  · rintro ⟨mid, r', hafter, hyields⟩
    rcases stopsAt_iff.mp hstops with hblank | ⟨rest, rfl, -, hlast⟩ | ⟨c, tail, hc, rfl, hbase⟩
    · rw [afterElement_of_startsBlank hblank] at hafter
      cases hafter
      obtain ⟨gap, tail, hahead, hgap, htail⟩ := (closes_base_iff hd).mp ⟨r', hyields⟩
      exact ⟨gap, tail, hahead, Delimiters.isGap_iff.mpr (.inl hgap), htail⟩
    · rw [afterElement_separator hdistinct, Prod.mk.injEq, any_head?_eq_false_iff] at hafter
      obtain ⟨hrest, hmid⟩ := hafter
      cases hmid
      obtain ⟨gap, tail, rfl, hgap, htail⟩ := (closes_base_iff hd).mp ⟨r', hyields⟩
      have hne : d.parentheses.isSome → gap ≠ [] := by
        -- directly before the closing parenthesis the separator would have announced an element
        rintro hp rfl
        obtain ⟨⟨o, c⟩, hboth⟩ := Option.isSome_iff_exists.mp hp
        have hc := Delimiters.closing_of_some hboth
        have hsolid := hdistinct.closing_not_blank c hc
        rw [hrest c (by simp [hc])] at hsolid
        cases hsolid
      exact ⟨d.separator :: gap, tail, by simp,
        Delimiters.isGap_iff.mpr (.inr ⟨hlast, gap, rfl, hgap, hne⟩), htail⟩
    · rw [hbase, afterElement_closing hdistinct hc] at hafter
      cases hafter
      exact ⟨[], tail, by simp [hc], d.isGap_nil last, (closes_zero_iff hd).mp ⟨r', hyields⟩⟩
  · rintro ⟨gap, tail, rfl, hgap, htail⟩
    rcases Delimiters.isGap_iff.mp hgap with hgap | ⟨-, rest, rfl, hrest, hne⟩
    · by_cases hne : d.parentheses.isSome → gap ≠ []
      · obtain ⟨r', hyields⟩ := (closes_base_iff hd).mpr ⟨gap, tail, rfl, hgap, htail⟩
        exact ⟨_, r', afterElement_of_startsBlank (hgap.startsBlank hne htail) _, hyields⟩
      · obtain ⟨hp, hnil⟩ := Classical.not_imp.mp hne
        obtain ⟨⟨o, c⟩, hboth⟩ := Option.isSome_iff_exists.mp hp
        have hc := Delimiters.closing_of_some hboth
        obtain ⟨r', hyields⟩ := (closes_zero_iff hd).mpr htail
        rw [not_not.mp hnil, hc, Delimiters.base_of_some hboth]
        exact ⟨_, r', afterElement_closing hdistinct hc tail, hyields⟩
    · obtain ⟨r', hyields⟩ := (closes_base_iff hd).mpr ⟨rest, tail, rfl, hrest, htail⟩
      refine ⟨_, r', ?_, hyields⟩
      rw [← any_head?_eq_false_iff.mpr (hrest.startsBlank hne htail)]
      exact afterElement_separator hdistinct _ _

/-- The last element of a value and the end of the value. -/
theorem yields_element_closing_iff (hd : d.validate = .ok ()) {last : Bool} {input : List Char}
    {a : α} :
    (∃ mid r', (element last).Yields (.inside d input) (a, false) mid ∧ closing.Yields mid () r') ↔
      ∃ text gap tail, input = text ++ gap ++ d.closing.toList ++ tail ∧ d.IsSolid text ∧
        (last = false → d.IsElement text) ∧ d.IsGap last gap ∧ Text.StartsBlank tail ∧
        (Textual.read d text).value = .ok a := by
  have hdistinct := Delimiters.distinct_of_validate hd
  constructor
  · rintro ⟨mid, r', helement, hclosing⟩
    obtain ⟨text, ahead, depth, hscan, hne, hread, hafter⟩ := (yields_element_iff hd).mp helement
    have hstops := ((Delimiters.scan_eq_iff hdistinct).mp hscan).2.2.2
    have hdepth : d.parentheses.isSome → depth ≤ 1 := by
      intro hp
      obtain ⟨⟨o, c⟩, hboth⟩ := Option.isSome_iff_exists.mp hp
      rcases stopsAt_iff.mp hstops with hblank | ⟨-, -, hle, -⟩ | ⟨-, -, -, -, hone⟩
      · rw [afterElement_of_startsBlank hblank] at hafter
        cases hafter
        exact depth_le_one_of_closes hd (Delimiters.closing_of_some hboth) ⟨r', hclosing⟩
      · exact hle
      · exact hone.le
    obtain rfl := Delimiters.depth_eq_base hdistinct hscan hdepth
    obtain ⟨rfl, hsolid, htext, -⟩ := (Delimiters.scan_base_iff hdistinct).mp ⟨hscan, hne⟩
    obtain ⟨gap, tail, rfl, hgap, htail⟩ :=
      (afterElement_closes_iff hd hstops).mp ⟨mid, r', hafter, hclosing⟩
    exact ⟨text, gap, tail, by simp, hsolid, htext, hgap, htail, hread⟩
  · rintro ⟨text, gap, tail, rfl, hsolid, htext, hgap, htail, hread⟩
    have hstops : d.StopsAt last d.base (gap ++ d.closing.toList ++ tail) :=
      stopsAt_end hgap htail
    obtain ⟨mid, r', hafter, hclosing⟩ :=
      (afterElement_closes_iff hd hstops).mpr ⟨gap, tail, rfl, hgap, htail⟩
    obtain ⟨hscan, hne⟩ := (Delimiters.scan_base_iff hdistinct).mpr ⟨rfl, hsolid, htext, hstops⟩
    rw [List.append_assoc text, List.append_assoc text]
    exact ⟨mid, r', (yields_element_iff hd).mpr ⟨_, _, _, hscan, hne, hread, hafter⟩, hclosing⟩

end Reading
end WeightedTransducer
