import WeightedTransducer.Proofs.Composite.Steps

/-!
# The depth of a reader

A reader knows its depth of parentheses without looking back.  What it knows is right: whichever
steps were taken, in whichever order and with whichever results, the depth is what the characters
used so far have opened and not closed (`CompositeReader.Reached.depth_add_closed`).  Each step uses
some characters, none of which closes what is not open, and moves the depth by what they open and
close (`CompositeReader.Uses`); the few places where a step sets the depth back to zero are those
where exactly one parenthesis is open.
-/

namespace WeightedTransducer

theorem Delimiters.Taken.of_append {d : Delimiters} {last : Bool} {depth : Nat} {s t : List Char}
    (h : d.Taken last depth (s ++ t)) : d.Taken last depth s := by
  induction s generalizing depth with
  | nil => trivial
  | cons c s ih => exact ⟨h.1, h.2.1, ih h.2.2⟩

namespace CompositeReader
variable {r mid r' : CompositeReader} {text more input : List Char} {d : Delimiters}

/-- A reader that has used a text and become another: no front of the text closes more than was
open, and the depth has changed by what the text opens and closes. -/
structure Uses (r : CompositeReader) (text : List Char) (r' : CompositeReader) : Prop where
  delimiters_eq : r'.delimiters = r.delimiters
  ahead_eq : r.ahead = text ++ r'.ahead
  closed_le : ∀ front, front <+: text →
    r.delimiters.closed front ≤ r.depth + r.delimiters.opened front
  depth_add_closed : r'.depth + r.delimiters.closed text = r.depth + r.delimiters.opened text

/-- A reader that has used some text and become another. -/
def Advances (r r' : CompositeReader) : Prop :=
  ∃ text, r.Uses text r'

/-! ## Using characters -/

theorem Uses.append (h : r.Uses text mid) (h' : mid.Uses more r') : r.Uses (text ++ more) r' where
  delimiters_eq := h'.delimiters_eq.trans h.delimiters_eq
  ahead_eq := by rw [h.ahead_eq, h'.ahead_eq, List.append_assoc]
  closed_le := by
    rintro front ⟨back, hfront⟩
    rcases List.append_eq_append_iff.mp hfront with ⟨rest, rfl, -⟩ | ⟨rest, rfl, rfl⟩
    · exact h.closed_le front (List.prefix_append _ _)
    · have htext := h.depth_add_closed
      have hrest := h'.closed_le rest (List.prefix_append _ _)
      rw [h.delimiters_eq] at hrest
      rw [Delimiters.opened_append, Delimiters.closed_append]
      omega
  depth_add_closed := by
    have htext := h.depth_add_closed
    have hmore := h'.depth_add_closed
    rw [h.delimiters_eq] at hmore
    rw [Delimiters.opened_append, Delimiters.closed_append]
    omega

theorem Advances.trans (h : r.Advances mid) (h' : mid.Advances r') : r.Advances r' := by
  obtain ⟨text, htext⟩ := h
  obtain ⟨more, hmore⟩ := h'
  exact ⟨text ++ more, htext.append hmore⟩

/-- Nothing is used where at most the validity changes. -/
theorem uses_nil (hd : r'.delimiters = r.delimiters) (ha : r'.ahead = r.ahead)
    (hn : r'.depth = r.depth) : r.Uses [] r' where
  delimiters_eq := hd
  ahead_eq := ha.symm
  closed_le := by
    intro front hfront
    rw [List.prefix_nil.mp hfront]
    exact Nat.zero_le _
  depth_add_closed := by rw [hn]; rfl

theorem Advances.refl (r : CompositeReader) : r.Advances r :=
  ⟨[], uses_nil rfl rfl rfl⟩

/-- A step that fails without using anything. -/
theorem advances_fail {α : Type} (e : ReadError) (r : CompositeReader) :
    r.Advances (Reading.fail e r : Traced (Except ReadError α × _)).value.2 :=
  ⟨[], uses_nil rfl rfl rfl⟩

/-- One character that does not close what is not open. -/
theorem uses_cons (hd : r.delimiters.Distinct) {c : Char} {ahead : List Char}
    (hc : r.delimiters.closing = some c → r.depth ≠ 0) (ha : r.ahead = c :: ahead) :
    r.Uses [c] { r with ahead, depth := r.delimiters.after r.depth c } where
  delimiters_eq := rfl
  ahead_eq := ha
  closed_le := by
    rw [Delimiters.forall_prefix_cons_iff]
    refine ⟨Nat.zero_le _, fun front hfront => ?_⟩
    rw [List.prefix_nil.mp hfront, Delimiters.closed_cons, Delimiters.closed_nil]
    split
    · have := hc ‹_›
      omega
    · exact Nat.zero_le _
  depth_add_closed := by
    rw [Delimiters.closed_cons, Delimiters.opened_cons, Delimiters.closed_nil,
      Delimiters.opened_nil]
    dsimp only
    by_cases ho : r.delimiters.opening = some c
    · rw [Delimiters.after_of_opening ho, if_pos ho, if_neg (hd.opening_ne_closing c ho)]
    · by_cases hclose : r.delimiters.closing = some c
      · have := hc hclose
        rw [Delimiters.after_of_closing hd hclose, if_neg ho, if_pos hclose]
        omega
      · rw [Delimiters.after_of_ne ho hclose, if_neg ho, if_neg hclose]

/-- Whatever a scan takes at some depth can be used there. -/
theorem uses_of_taken (hd : r.delimiters.Distinct) {last : Bool} {ahead : List Char}
    (htext : r.delimiters.Taken last r.depth text) (ha : r.ahead = text ++ ahead) :
    r.Uses text { r with ahead, depth := r.delimiters.depthAfter r.depth text } where
  delimiters_eq := rfl
  ahead_eq := ha
  closed_le := by
    rintro front ⟨back, rfl⟩
    have := Delimiters.depthAfter_add_closed hd htext.of_append
    omega
  depth_add_closed := Delimiters.depthAfter_add_closed hd htext

/-- White space is used without a change of depth. -/
theorem advances_trimStart (hd : r.delimiters.Distinct) :
    r.Advances { r with ahead := Text.trimStart r.ahead } := by
  obtain ⟨blanks, hahead, hblanks, -⟩ := Text.trimStart_eq_iff.mp (rfl : Text.trimStart r.ahead = _)
  have hplain : ∀ c ∈ blanks, r.delimiters.opening ≠ some c ∧ r.delimiters.closing ≠ some c := by
    intro c hc
    have hblank := hblanks c hc
    constructor
    · intro ho
      rw [hd.opening_not_blank c ho] at hblank
      cases hblank
    · intro hclose
      rw [hd.closing_not_blank c hclose] at hblank
      cases hblank
  have hbalanced := Delimiters.balanced_of_plain hplain
  refine ⟨blanks, rfl, hahead, fun front hfront => ?_, ?_⟩
  · exact (hbalanced.prefixes front hfront).trans (Nat.le_add_left _ _)
  · rw [hbalanced.total]

/-! ## The steps -/

/-- A step that is not taken uses nothing. -/
theorem advances_guarded {α : Type} {step : Reading α} (h : r.Advances (step r).value.2) :
    r.Advances (Reading.guarded step r).value.2 := by
  unfold Reading.guarded
  split
  · exact Advances.refl r
  · split
    · exact h
    · exact Advances.refl r

theorem advances_opening (hd : r.delimiters.Distinct) :
    r.Advances (Reading.opening r).value.2 := by
  refine advances_guarded ((advances_trimStart hd).trans ?_)
  dsimp only
  generalize Text.trimStart r.ahead = trimmed
  cases ho : r.delimiters.opening with
  | none => exact Advances.refl _
  | some o =>
    dsimp only
    by_cases hhead : ({ r with ahead := trimmed } : CompositeReader).current = some o
    · obtain ⟨rest, rfl⟩ := List.head?_eq_some_iff.mp hhead
      have huses := uses_cons (r := { r with ahead := o :: rest }) hd
        (fun hclose => absurd hclose (hd.opening_ne_closing o ho)) rfl
      dsimp only at huses
      rw [Delimiters.after_of_opening ho] at huses
      rw [if_pos hhead]
      exact ⟨[o], huses⟩
    · rw [if_neg hhead]
      exact advances_fail _ _

/-- Where a scan has stopped, what ended the element is used: a separator, or the closing
parenthesis of the value. -/
theorem advances_afterElement (hd : r.delimiters.Distinct) {last : Bool}
    (hstops : r.delimiters.StopsAt last r.depth r.ahead) :
    r.Advances (Reading.afterElement r).2 := by
  obtain ⟨d, ahead, depth, valid⟩ := r
  dsimp only at hd hstops
  rcases Reading.stopsAt_iff.mp hstops with hblank | ⟨next, rfl, -, -⟩ | ⟨c, tail, hc, rfl, rfl⟩
  · cases ahead with
    | nil => exact Advances.refl _
    | cons c rest =>
      unfold Reading.afterElement
      dsimp only
      rw [if_pos (hblank c rfl)]
      exact Advances.refl _
  · have huses := uses_cons (r := ⟨d, d.separator :: next, depth, valid⟩) hd
      (fun hclose => absurd hclose hd.closing_ne_separator) rfl
    rw [Delimiters.after_of_ne hd.opening_ne_separator hd.closing_ne_separator] at huses
    unfold Reading.afterElement
    simp only [hd.separator_not_blank, hd.closing_ne_separator]
    exact ⟨_, huses⟩
  · have huses := uses_cons (r := ⟨d, c :: tail, 1, valid⟩) hd (fun _ => Nat.one_ne_zero) rfl
    rw [Delimiters.after_of_closing hd hc] at huses
    unfold Reading.afterElement
    simp only [hd.closing_not_blank c hc, hc]
    exact ⟨_, huses⟩

theorem advances_element {α : Type} [Textual α] (hd : r.delimiters.Distinct) (last : Bool) :
    r.Advances ((Reading.element last : Reading (α × Bool)) r).value.2 := by
  refine advances_guarded ?_
  dsimp only
  obtain ⟨htaken, hdepth, hstops⟩ := Delimiters.taken_scan hd last r.depth r.ahead
  have happend := r.delimiters.scan_append last r.depth r.ahead
  generalize r.delimiters.scan last r.depth r.ahead = s at htaken hdepth hstops happend
  obtain ⟨text, ahead, depth, unmatched⟩ := s
  dsimp only at htaken hdepth hstops happend ⊢
  have hscan : r.Advances { r with ahead, depth } := by
    rw [hdepth]
    exact ⟨text, uses_of_taken hd htaken happend.symm⟩
  refine hscan.trans ?_
  cases unmatched with
  | some c => exact advances_fail _ _
  | none =>
    dsimp only
    split
    · exact advances_fail _ _
    · rw [Traced.value_bind]
      split
      · exact advances_fail _ _
      · exact advances_afterElement hd (hstops rfl)

theorem advances_nothingFollows (r : CompositeReader) :
    r.Advances (Reading.nothingFollows r).value.2 := by
  unfold Reading.nothingFollows
  split
  · split
    · exact Advances.refl r
    · exact advances_fail _ r
  · exact Advances.refl r

/-- The closing parenthesis of a value is used where it is the only one that is due. -/
theorem advances_takeClosing (hd : r.delimiters.Distinct) {c : Char}
    (hc : r.delimiters.closing = some c) (hdepth : r.depth = 1) :
    r.Advances (Reading.closing.takeClosing c r) := by
  unfold Reading.closing.takeClosing
  by_cases hhead : r.current = some c
  · obtain ⟨rest, hahead⟩ := List.head?_eq_some_iff.mp hhead
    have huses := uses_cons hd (fun _ => by omega) hahead
    rw [Delimiters.after_of_closing hd hc, hdepth] at huses
    rw [if_pos hhead, CompositeReader.rest, hahead]
    exact ⟨[c], huses⟩
  · rw [if_neg hhead]
    exact Advances.refl r

theorem advances_closing (hd : r.delimiters.Distinct) :
    r.Advances (Reading.closing r).value.2 := by
  refine advances_guarded ?_
  cases hc : r.delimiters.closing with
  | none => exact advances_nothingFollows r
  | some c =>
    dsimp only
    have hclosing : r.Advances (if r.depth = 1 then
        Reading.closing.takeClosing c { r with ahead := Text.trimStart r.ahead } else r) := by
      split
      · rename_i hdepth
        exact (advances_trimStart hd).trans
          (advances_takeClosing (r := { r with ahead := Text.trimStart r.ahead }) hd hc hdepth)
      · exact Advances.refl r
    refine hclosing.trans ?_
    generalize (if r.depth = 1 then
      Reading.closing.takeClosing c { r with ahead := Text.trimStart r.ahead } else r) = mid
    split
    · exact advances_nothingFollows _
    · exact advances_fail _ _

/-! ## Every order of steps -/

/-- The readers that steps lead to from the start of a text, in any order, with elements of any
types, and whatever the steps return. -/
inductive Reached (d : Delimiters) (input : List Char) : CompositeReader → Prop
  | start : Reached d input (CompositeReader.start d input).value
  | opening {r : CompositeReader} (h : Reached d input r) :
    Reached d input (Reading.opening r).value.2
  | element {α : Type} [Textual α] {r : CompositeReader} (h : Reached d input r) (last : Bool) :
    Reached d input ((Reading.element last : Reading (α × Bool)) r).value.2
  | closing {r : CompositeReader} (h : Reached d input r) :
    Reached d input (Reading.closing r).value.2

/-- Every step goes on from where the one before it stopped. -/
theorem Reached.advances (hd : d.validate = .ok ()) (h : Reached d input r) :
    ({ delimiters := d, ahead := input } : CompositeReader).Advances r := by
  have hdistinct {r : CompositeReader}
      (hr : ({ delimiters := d, ahead := input } : CompositeReader).Advances r) :
      r.delimiters.Distinct := by
    obtain ⟨_, huses⟩ := hr
    rw [huses.delimiters_eq]
    exact Delimiters.distinct_of_validate hd
  induction h with
  | start =>
    rw [value_start hd]
    exact Advances.refl _
  | opening _ ih => exact ih.trans (advances_opening (hdistinct ih))
  | element _ last ih => exact ih.trans (advances_element (hdistinct ih) last)
  | closing _ ih => exact ih.trans (advances_closing (hdistinct ih))

/-- A step that succeeds leads to the reader that it yields. -/
theorem Reached.of_yields {α : Type} {step : Reading α} {a : α}
    (h : Reached d input (step r).value.2) (hstep : step.Yields r a r') : Reached d input r' := by
  unfold Reading.Yields at hstep
  rw [hstep] at h
  exact h

/-- A step that succeeds was taken. -/
theorem yields_of_guarded {α : Type} {step : Reading α} {a : α}
    (h : (Reading.guarded step).Yields r a r') : step.Yields r a r' := by
  unfold Reading.Yields Reading.guarded at h
  split at h
  · cases h
  · split at h
    · exact h
    · cases h

theorem eq_of_yields_nothingFollows (h : Reading.nothingFollows.Yields r () r') : r' = r := by
  unfold Reading.Yields Reading.nothingFollows at h
  split at h
  · split at h
    · exact (Prod.mk.inj h).2.symm
    · cases h
  · exact (Prod.mk.inj h).2.symm

/-- Closing a value leaves no parenthesis open, and white space or nothing ahead. -/
theorem ends_of_yields_closing {c : Char} (hc : r.delimiters.closing = some c)
    (h : Reading.closing.Yields r () r') : r'.depth = 0 ∧ Text.StartsBlank r'.ahead := by
  have hstep := yields_of_guarded h
  unfold Reading.Yields at hstep
  dsimp only at hstep
  rw [hc] at hstep
  dsimp only at hstep
  generalize (if r.depth = 1 then
    Reading.closing.takeClosing c { r with ahead := Text.trimStart r.ahead } else r) = mid at hstep
  by_cases hdepth : mid.depth = 0
  · rw [if_pos hdepth] at hstep
    obtain rfl := eq_of_yields_nothingFollows hstep
    exact ⟨hdepth, Reading.nothingFollows_iff.mp (congrArg Prod.fst hstep)⟩
  · rw [if_neg hdepth] at hstep
    cases hstep

/-- Closing a value leaves no parenthesis open. -/
theorem depth_eq_zero_of_yields_closing {c : Char} (hc : r.delimiters.closing = some c)
    (h : Reading.closing.Yields r () r') : r'.depth = 0 :=
  (ends_of_yields_closing hc h).1

/-- What was used of a text when a value in parentheses is closed closes as much as it opens, and
white space or nothing follows. -/
theorem Reached.exists_used_of_yields_closing (hd : d.validate = .ok ())
    (hp : d.parentheses.isSome) (h : Reached d input r)
    (hclosing : Reading.closing.Yields r () r') :
    ∃ used, input = used ++ r'.ahead ∧ d.closed used = d.opened used ∧
      Text.StartsBlank r'.ahead := by
  obtain ⟨⟨o, c⟩, hboth⟩ := Option.isSome_iff_exists.mp hp
  obtain ⟨used, huses⟩ := (h.closing.of_yields hclosing).advances hd
  have hdelimiters : r.delimiters = d := (h.advances hd).choose_spec.delimiters_eq
  have hc : r.delimiters.closing = some c := by
    rw [hdelimiters]
    exact Delimiters.closing_of_some hboth
  obtain ⟨hdepth, hends⟩ := ends_of_yields_closing hc hclosing
  have haccount : r'.depth + d.closed used = 0 + d.opened used := huses.depth_add_closed
  exact ⟨used, huses.ahead_eq, by omega, hends⟩

/-- **The depth of a reader is what it has opened and not closed**, after any steps whatever they
returned.  Nothing was closed before it was opened, without parentheses the depth is zero, and where
a value could be closed, all that was used is balanced. -/
theorem Reached.depth_add_closed (hd : d.validate = .ok ()) (h : Reached d input r) :
    (∃ used, input = used ++ r.ahead ∧ r.depth + d.closed used = d.opened used ∧
        (∀ front, front <+: used → d.closed front ≤ d.opened front) ∧
        (d.parentheses = none → r.depth = 0)) ∧
      ∀ r', Reading.closing.Yields r () r' →
        ∃ used, input = used ++ r'.ahead ∧ d.Balanced used := by
  have haccount {r : CompositeReader} (h : Reached d input r) :
      r.delimiters = d ∧ ∃ used, input = used ++ r.ahead ∧
        r.depth + d.closed used = d.opened used ∧
        ∀ front, front <+: used → d.closed front ≤ d.opened front := by
    obtain ⟨used, huses⟩ := h.advances hd
    have hdepth := huses.depth_add_closed
    have hclosed := huses.closed_le
    dsimp only at hdepth hclosed
    refine ⟨huses.delimiters_eq, used, huses.ahead_eq, by omega, fun front hfront => ?_⟩
    have := hclosed front hfront
    omega
  obtain ⟨hdelimiters, used, hinput, hdepth, hfronts⟩ := haccount h
  refine ⟨⟨used, hinput, hdepth, hfronts, fun hp => ?_⟩, fun r' hyields => ?_⟩
  · rw [Delimiters.opened_of_none hp] at hdepth
    omega
  · have hvalue : (Reading.closing r).value.2 = r' := congrArg Prod.snd hyields
    obtain ⟨-, used, hinput, hdepth, hfronts⟩ := haccount (hvalue ▸ h.closing)
    refine ⟨used, hinput, hfronts, ?_⟩
    cases hp : d.parentheses with
    | none => rw [Delimiters.opened_of_none hp, Delimiters.closed_of_none hp]
    | some both =>
      have hzero := depth_eq_zero_of_yields_closing (c := both.2)
        (by rw [hdelimiters, Delimiters.closing_of_some hp]) hyields
      omega

/-- An element taken before any opening parenthesis was, and two steps that fail after it. -/
theorem Reached.depth_add_closed_of_unclosed :
    let d : Delimiters := ⟨',', some ('(', ')')⟩
    let input := "((a)b(c,d x)".toList
    let first := (CompositeReader.start d input).value
    let taken := ((Reading.element false : Reading (String × Bool)) first).value.2
    let r := (Reading.opening (Reading.closing taken).value.2).value.2
    d.validate = .ok () ∧ Reached d input r ∧ r.valid = false ∧ r.depth = 2 ∧
      ∃ used, input = used ++ r.ahead ∧ r.depth + d.closed used = d.opened used := by
  intro d input first taken r
  have hreached : Reached d input r := .opening (.closing (.element (α := String) .start false))
  obtain ⟨⟨used, hinput, hdepth, -, -⟩, -⟩ := Reached.depth_add_closed (r := r) rfl hreached
  exact ⟨rfl, hreached, by decide, by decide, used, hinput, hdepth⟩

end CompositeReader
end WeightedTransducer
