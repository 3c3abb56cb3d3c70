import Mathlib.Data.List.Infix
import WeightedTransducer.Composite.Reader
import WeightedTransducer.Proofs.Composite.Written
import WeightedTransducer.Proofs.Text.Blank

/-!
# Texts that a reader keeps together

A reader takes the characters of an element while it counts parentheses.  Which texts it takes as
one element is said here without it: no white space, parentheses that match (`Delimiters.Balanced`)
and separators between parentheses only (`Delimiters.IsElement`); the last element of a value may
have separators anywhere (`Delimiters.IsSolid`).  `Delimiters.scan_base_iff` says that these are the
texts that `Delimiters.scan` takes inside a value; it follows the depth character by character
(`Delimiters.Taken`) and counts parentheses only at the end.

Composite values are elements again: parentheses around solid texts make an element
(`Delimiters.isElement_compose`), which is why values nest to any depth.
-/

namespace WeightedTransducer
namespace Delimiters
variable {d : Delimiters}

/-! ## Delimiters that can be told apart -/

/-- The delimiting characters. -/
def characters (d : Delimiters) : List Char :=
  d.separator :: (d.opening.toList ++ d.closing.toList)

/-- No delimiter is white space, and no two are the same. -/
structure Distinct (d : Delimiters) : Prop where
  separator_not_blank : Text.isBlank d.separator = false
  opening_not_blank : ∀ c, d.opening = some c → Text.isBlank c = false
  closing_not_blank : ∀ c, d.closing = some c → Text.isBlank c = false
  opening_ne_closing : ∀ c, d.opening = some c → d.closing ≠ some c
  opening_ne_separator : d.opening ≠ some d.separator
  closing_ne_separator : d.closing ≠ some d.separator

theorem opening_of_none (hp : d.parentheses = none) : d.opening = none := by
  rw [opening, hp]
  rfl

theorem closing_of_none (hp : d.parentheses = none) : d.closing = none := by
  rw [closing, hp]
  rfl

theorem opening_of_some {o c : Char} (hp : d.parentheses = some (o, c)) : d.opening = some o := by
  rw [opening, hp]
  rfl

theorem closing_of_some {o c : Char} (hp : d.parentheses = some (o, c)) : d.closing = some c := by
  rw [closing, hp]
  rfl

theorem distinct_of_conflict?_eq_none (h : d.conflict? = none) : d.Distinct := by
  obtain ⟨separator, parentheses⟩ := d
  unfold conflict? at h
  rcases parentheses with _ | ⟨left, right⟩
  · refine ⟨?_, ?_, ?_, ?_, ?_, ?_⟩ <;> simp_all [opening, closing]
  · simp only at h
    refine ⟨?_, ?_, ?_, ?_, ?_, ?_⟩ <;> simp only [opening, closing, Option.map_some] <;> grind

theorem conflict?_eq_none_of_validate (h : d.validate = .ok ()) : d.conflict? = none := by
  unfold validate at h
  split at h
  · cases h
  · assumption

theorem conflict?_eq_some_of_validate {c : Conflict} (h : d.validate = .error c) :
    d.conflict? = some c := by
  unfold validate at h
  split at h
  · rename_i hc
    cases h
    exact hc
  · cases h

theorem distinct_of_validate (h : d.validate = .ok ()) : d.Distinct :=
  distinct_of_conflict?_eq_none (conflict?_eq_none_of_validate h)

/-! ## Texts whose parentheses match -/

/-- How many opening parentheses a text has. -/
def opened (d : Delimiters) (text : List Char) : Nat :=
  text.countP (d.opening == some ·)

/-- How many closing parentheses a text has. -/
def closed (d : Delimiters) (text : List Char) : Nat :=
  text.countP (d.closing == some ·)

@[simp] theorem opened_nil : d.opened [] = 0 := rfl

@[simp] theorem closed_nil : d.closed [] = 0 := rfl

theorem opened_cons (c : Char) (text : List Char) :
    d.opened (c :: text) = d.opened text + if d.opening = some c then 1 else 0 := by
  simp [opened, List.countP_cons]

theorem closed_cons (c : Char) (text : List Char) :
    d.closed (c :: text) = d.closed text + if d.closing = some c then 1 else 0 := by
  simp [closed, List.countP_cons]

theorem opened_append (s t : List Char) : d.opened (s ++ t) = d.opened s + d.opened t :=
  List.countP_append

theorem closed_append (s t : List Char) : d.closed (s ++ t) = d.closed s + d.closed t :=
  List.countP_append

/-- A text whose parentheses match: no front of it closes more than it opens, and all of it closes
as much as it opens. -/
structure Balanced (d : Delimiters) (text : List Char) : Prop where
  prefixes : ∀ front, front <+: text → d.closed front ≤ d.opened front
  total : d.closed text = d.opened text

/-- The text of the last element of a value: it is not empty, has no white space, and its
parentheses match. -/
structure IsSolid (d : Delimiters) (text : List Char) : Prop where
  ne_nil : text ≠ []
  not_blank : ∀ c ∈ text, Text.isBlank c = false
  balanced : d.Balanced text

/-- The text of an element of a value: it is solid, and a separator in it stands inside
parentheses. -/
structure IsElement (d : Delimiters) (text : List Char) : Prop extends d.IsSolid text where
  separator_inside : ∀ front, front ++ [d.separator] <+: text → d.closed front < d.opened front

instance : DecidablePred d.Balanced := fun text =>
  decidable_of_iff
    ((∀ front ∈ text.inits, d.closed front ≤ d.opened front) ∧ d.closed text = d.opened text)
    ⟨fun h => ⟨fun front hf => h.1 front ((List.mem_inits front text).mpr hf), h.2⟩,
      fun h => ⟨fun front hf => h.prefixes front ((List.mem_inits front text).mp hf), h.total⟩⟩

instance : DecidablePred d.IsSolid := fun text =>
  decidable_of_iff (text ≠ [] ∧ (∀ c ∈ text, Text.isBlank c = false) ∧ d.Balanced text)
    ⟨fun h => ⟨h.1, h.2.1, h.2.2⟩, fun h => ⟨h.ne_nil, h.not_blank, h.balanced⟩⟩

instance : DecidablePred d.IsElement := fun text =>
  decidable_of_iff
    (d.IsSolid text ∧
      ∀ front ∈ text.inits, front ++ [d.separator] <+: text → d.closed front < d.opened front)
    ⟨fun h => ⟨h.1, fun front hf => h.2 front
        ((List.mem_inits front text).mpr ((List.prefix_append _ _).trans hf)) hf⟩,
      fun h => ⟨h.toIsSolid, fun front _ hf => h.separator_inside front hf⟩⟩

/-! ## Depth, character by character -/

/-- The depth of parentheses after a character. -/
def after (d : Delimiters) (depth : Nat) (c : Char) : Nat :=
  if d.opening = some c then depth + 1 else if d.closing = some c then depth - 1 else depth

/-- The depth of parentheses after a text. -/
def depthAfter (d : Delimiters) (depth : Nat) (text : List Char) : Nat :=
  text.foldl d.after depth

/-- A text of which a scan from some depth takes every character. -/
def Taken (d : Delimiters) (last : Bool) : (depth : Nat) → List Char → Prop
  | _, [] => True
  | depth, c :: rest =>
    d.endsElement last depth c = false ∧ (d.closing = some c → depth ≠ 0) ∧
      d.Taken last (d.after depth c) rest

/-- A text at whose beginning a scan at some depth stops: it is empty, or begins with a character
that ends an element there. -/
def StopsAt (d : Delimiters) (last : Bool) (depth : Nat) (ahead : List Char) : Prop :=
  ∀ c ∈ ahead.head?, d.endsElement last depth c = true

/-- A scan takes a character and goes on from the depth after it. -/
theorem scan_cons {last : Bool} {depth : Nat} {c : Char}
    (hends : d.endsElement last depth c = false) (hclose : d.closing = some c → depth ≠ 0)
    (rest : List Char) :
    d.scan last depth (c :: rest) = (d.scan last (d.after depth c) rest).cons c := by
  conv_lhs => unfold scan
  rw [hends, if_neg (by simp)]
  unfold after
  by_cases ho : d.opening = some c
  · rw [if_pos ho, if_pos ho]
  · rw [if_neg ho, if_neg ho]
    by_cases hc : d.closing = some c
    · rw [if_pos hc, if_pos hc]
      obtain ⟨k, rfl⟩ := Nat.exists_eq_succ_of_ne_zero (hclose hc)
      rfl
    · rw [if_neg hc, if_neg hc]

theorem scan_of_stopsAt {last : Bool} {depth : Nat} {ahead : List Char}
    (h : d.StopsAt last depth ahead) :
    d.scan last depth ahead = { text := [], ahead, depth } := by
  cases ahead with
  | nil => rfl
  | cons c rest =>
    unfold scan
    rw [if_pos (h c rfl)]

theorem scan_append_of_taken {last : Bool} {depth : Nat} {text ahead : List Char}
    (htaken : d.Taken last depth text) (hstops : d.StopsAt last (d.depthAfter depth text) ahead) :
    d.scan last depth (text ++ ahead) = { text, ahead, depth := d.depthAfter depth text } := by
  induction text generalizing depth with
  | nil => exact scan_of_stopsAt hstops
  | cons c rest ih =>
    rw [List.cons_append, scan_cons htaken.1 htaken.2.1, ih htaken.2.2 hstops]
    rfl

/-- What a scan took, it took character by character. -/
theorem taken_scan (hd : d.Distinct) (last : Bool) (depth : Nat) (input : List Char) :
    d.Taken last depth (d.scan last depth input).text ∧
      (d.scan last depth input).depth = d.depthAfter depth (d.scan last depth input).text ∧
      ((d.scan last depth input).unmatched = none →
        d.StopsAt last (d.scan last depth input).depth (d.scan last depth input).ahead) := by
  induction input generalizing depth with
  | nil => exact ⟨trivial, rfl, fun _ c hc => by cases hc⟩
  | cons c rest ih =>
    by_cases hends : d.endsElement last depth c = true
    · have hstop : d.StopsAt last depth (c :: rest) := fun x hx => Option.some.inj hx ▸ hends
      rw [scan_of_stopsAt hstop]
      exact ⟨trivial, rfl, fun _ => hstop⟩
    · rw [Bool.not_eq_true] at hends
      by_cases hclose : d.closing = some c → depth ≠ 0
      · obtain ⟨htaken, hdepth, hstops⟩ := ih (d.after depth c)
        rw [scan_cons hends hclose]
        exact ⟨⟨hends, hclose, htaken⟩, hdepth, hstops⟩
      · -- a closing parenthesis that closes nothing is not taken
        rw [Classical.not_imp, Decidable.not_not] at hclose
        obtain ⟨hc, rfl⟩ := hclose
        have ho : ¬ d.opening = some c := fun ho => hd.opening_ne_closing c ho hc
        unfold scan
        rw [hends, if_neg (by simp), if_neg ho, if_pos hc]
        exact ⟨trivial, rfl, fun h => by cases h⟩

/-- The texts that a scan takes. -/
theorem scan_eq_iff (hd : d.Distinct) {last : Bool} {depth depth' : Nat}
    {input text ahead : List Char} :
    d.scan last depth input = { text, ahead, depth := depth' } ↔
      input = text ++ ahead ∧ d.Taken last depth text ∧ depth' = d.depthAfter depth text ∧
        d.StopsAt last depth' ahead := by
  constructor
  · intro h
    obtain ⟨htaken, hdepth, hstops⟩ := taken_scan hd last depth input
    have happend := d.scan_append last depth input
    rw [h] at htaken hdepth hstops happend
    exact ⟨happend.symm, htaken, hdepth, hstops rfl⟩
  · rintro ⟨rfl, htaken, rfl, hstops⟩
    exact scan_append_of_taken htaken hstops

/-! ## The depth inside a value -/

/-- The depth of parentheses between the elements of a value. -/
def base (d : Delimiters) : Nat :=
  if d.parentheses.isSome then 1 else 0

theorem base_of_none (hp : d.parentheses = none) : d.base = 0 := by
  rw [base, hp]
  rfl

theorem base_of_some {o c : Char} (hp : d.parentheses = some (o, c)) : d.base = 1 := by
  rw [base, hp]
  rfl

theorem base_le_one : d.base ≤ 1 := by
  unfold base
  split <;> decide

theorem endsElement_eq_false_iff {last : Bool} {depth : Nat} {c : Char} :
    d.endsElement last depth c = false ↔
      Text.isBlank c = false ∧ (last = false → c = d.separator → 1 < depth) ∧
        (d.closing = some c → depth ≠ 1) := by
  unfold endsElement
  cases last <;> simp
  grind

theorem after_of_opening {depth : Nat} {c : Char} (ho : d.opening = some c) :
    d.after depth c = depth + 1 := by
  rw [after, if_pos ho]

theorem after_of_closing (hd : d.Distinct) {depth : Nat} {c : Char} (hc : d.closing = some c) :
    d.after depth c = depth - 1 := by
  rw [after, if_neg fun ho => hd.opening_ne_closing c ho hc, if_pos hc]

theorem after_of_ne {depth : Nat} {c : Char} (ho : d.opening ≠ some c) (hc : d.closing ≠ some c) :
    d.after depth c = depth := by
  rw [after, if_neg ho, if_neg hc]

theorem forall_prefix_cons_iff {P : List Char → Prop} {c : Char} {rest : List Char} :
    (∀ front, front <+: c :: rest → P front) ↔ P [] ∧ ∀ front, front <+: rest → P (c :: front) := by
  simp only [List.prefix_cons_iff]
  grind

theorem forall_before_cons_iff {P : List Char → Prop} {s c : Char} {rest : List Char} :
    (∀ front, front ++ [s] <+: c :: rest → P front) ↔
      (c = s → P []) ∧ ∀ front, front ++ [s] <+: rest → P (c :: front) := by
  constructor
  · intro h
    refine ⟨fun hc => h [] (by simp [hc]), fun front hf => h (c :: front) (by simpa using hf)⟩
  · rintro ⟨hnil, hcons⟩ front hf
    cases front with
    | nil => exact hnil (by simpa using (List.cons_prefix_cons.mp hf).1.symm)
    | cons x front =>
      rw [List.cons_append] at hf
      obtain ⟨rfl, hrest⟩ := List.cons_prefix_cons.mp hf
      exact hcons front hrest

/-- What a scan takes from inside some parentheses, told by counting them. -/
theorem taken_succ_iff (hd : d.Distinct) {last : Bool} {k : Nat} {text : List Char} :
    d.Taken last (k + 1) text ↔ (∀ c ∈ text, Text.isBlank c = false) ∧
      (∀ front, front <+: text → d.closed front ≤ d.opened front + k) ∧
      (last = false → ∀ front, front ++ [d.separator] <+: text →
        d.closed front < d.opened front + k) := by
  induction text generalizing k with
  | nil => simp [Taken]
  | cons c rest ih =>
    rw [forall_prefix_cons_iff, forall_before_cons_iff, List.forall_mem_cons]
    simp only [Taken, endsElement_eq_false_iff, opened_cons, closed_cons, opened_nil, closed_nil]
    by_cases ho : d.opening = some c
    · have hc : d.closing ≠ some c := hd.opening_ne_closing c ho
      rw [after_of_opening ho, ih]
      simp only [ho, hc]
      grind
    · by_cases hc : d.closing = some c
      · rw [after_of_closing hd hc]
        cases k with
        | zero =>
          -- the parenthesis closes the value, and as a front of the text it closes too much
          constructor
          · intro h
            exact absurd rfl (h.1.2.2 hc)
          · intro h
            have := h.2.1.2 [] List.nil_prefix
            simp [ho, hc] at this
        | succ k =>
          rw [Nat.add_sub_cancel, ih]
          simp only [ho, hc]
          grind
      · rw [after_of_ne ho hc, ih]
        simp only [ho, hc]
        grind

/-- What a scan takes where there are no parentheses. -/
theorem taken_iff_of_none (hp : d.parentheses = none) {last : Bool} {depth : Nat}
    {text : List Char} (hdepth : depth ≤ 1) :
    d.Taken last depth text ↔
      (∀ c ∈ text, Text.isBlank c = false) ∧ (last = false → d.separator ∉ text) := by
  have ho := opening_of_none hp
  have hc := closing_of_none hp
  induction text with
  | nil => simp [Taken]
  | cons c rest ih =>
    have hafter : d.after depth c = depth :=
      after_of_ne (by rw [ho]; exact nofun) (by rw [hc]; exact nofun)
    simp only [Taken, hafter, ih, endsElement_eq_false_iff, hc, List.mem_cons]
    grind

theorem opened_of_none (hp : d.parentheses = none) (text : List Char) : d.opened text = 0 := by
  simp [opened, opening_of_none hp]

theorem closed_of_none (hp : d.parentheses = none) (text : List Char) : d.closed text = 0 := by
  simp [closed, closing_of_none hp]

/-- Without parentheses there is nothing to match. -/
theorem balanced_of_none (hp : d.parentheses = none) (text : List Char) : d.Balanced text where
  prefixes front _ := by
    rw [closed_of_none hp]
    exact Nat.zero_le _
  total := by rw [opened_of_none hp, closed_of_none hp]

/-- A character that is not in a text is the last one of no front of it. -/
theorem not_mem_iff_forall_front {c : Char} {text : List Char} :
    c ∉ text ↔ ∀ front, ¬ front ++ [c] <+: text := by
  constructor
  · intro hmem front hfront
    exact hmem (hfront.subset (by simp))
  · intro h hmem
    obtain ⟨front, back, rfl⟩ := List.append_of_mem hmem
    exact h front ⟨back, by simp⟩

/-- What a scan takes between the elements of a value. -/
theorem taken_base_iff (hd : d.Distinct) {last : Bool} {text : List Char} :
    d.Taken last d.base text ↔ (∀ c ∈ text, Text.isBlank c = false) ∧
      (∀ front, front <+: text → d.closed front ≤ d.opened front) ∧
      (last = false → ∀ front, front ++ [d.separator] <+: text →
        d.closed front < d.opened front) := by
  cases hp : d.parentheses with
  | some both =>
    rw [base_of_some hp]
    exact taken_succ_iff hd (k := 0)
  | none =>
    rw [taken_iff_of_none hp base_le_one, not_mem_iff_forall_front]
    simp only [opened_of_none hp, closed_of_none hp, Nat.lt_irrefl, Nat.le_refl, implies_true,
      true_and, imp_false]

/-- The depth is what was opened without what was closed. -/
theorem depthAfter_add_closed (hd : d.Distinct) {last : Bool} {depth : Nat} {text : List Char}
    (h : d.Taken last depth text) :
    d.depthAfter depth text + d.closed text = depth + d.opened text := by
  induction text generalizing depth with
  | nil => rfl
  | cons c rest ih =>
    have hrest := ih h.2.2
    rw [opened_cons, closed_cons]
    show d.depthAfter (d.after depth c) rest + _ = _
    by_cases ho : d.opening = some c
    · rw [after_of_opening ho] at hrest ⊢
      rw [if_pos ho, if_neg (hd.opening_ne_closing c ho)]
      omega
    · by_cases hc : d.closing = some c
      · have := h.2.1 hc
        rw [after_of_closing hd hc] at hrest ⊢
        rw [if_neg ho, if_pos hc]
        omega
      · rw [after_of_ne ho hc] at hrest ⊢
        rw [if_neg ho, if_neg hc]
        omega

/-! ## The texts that a scan takes inside a value -/

/-- Inside a value the depth never falls below the one between the elements. -/
theorem depth_eq_base (hd : d.Distinct) {last : Bool} {depth : Nat} {input text ahead : List Char}
    (h : d.scan last d.base input = { text, ahead, depth })
    (hdepth : d.parentheses.isSome → depth ≤ 1) : depth = d.base := by
  obtain ⟨-, htaken, rfl, -⟩ := (scan_eq_iff hd).mp h
  have hcount := depthAfter_add_closed hd htaken
  have hfront := ((taken_base_iff hd).mp htaken).2.1 text (List.prefix_refl text)
  cases hp : d.parentheses with
  | none =>
    rw [opened_of_none hp, closed_of_none hp] at hcount
    exact hcount
  | some both =>
    have hbase := base_of_some hp
    have hle := hdepth (by rw [hp]; rfl)
    omega

/-- **An element is what a scan takes that ends at the depth at which it began.**  The last one is
not ended by separators, so it may have them anywhere. -/
theorem scan_base_iff (hd : d.Distinct) {last : Bool} {input text ahead : List Char} :
    (d.scan last d.base input = { text, ahead, depth := d.base } ∧ text ≠ []) ↔
      input = text ++ ahead ∧ d.IsSolid text ∧ (last = false → d.IsElement text) ∧
        d.StopsAt last d.base ahead := by
  rw [scan_eq_iff hd]
  constructor
  · rintro ⟨⟨rfl, htaken, hdepth, hstops⟩, hne⟩
    have hcount := depthAfter_add_closed hd htaken
    obtain ⟨hblank, hfront, hsep⟩ := (taken_base_iff hd).mp htaken
    have hsolid : d.IsSolid text := ⟨hne, hblank, hfront, by omega⟩
    exact ⟨rfl, hsolid, fun hlast => ⟨hsolid, hsep hlast⟩, hstops⟩
  · rintro ⟨rfl, hsolid, helement, hstops⟩
    have htaken : d.Taken last d.base text := (taken_base_iff hd).mpr
      ⟨hsolid.not_blank, hsolid.balanced.prefixes, fun hlast => (helement hlast).separator_inside⟩
    have hcount := depthAfter_add_closed hd htaken
    have htotal := hsolid.balanced.total
    exact ⟨⟨rfl, htaken, by omega, hstops⟩, hsolid.ne_nil⟩

/-! ## Composite texts are elements again -/

theorem balanced_of_plain {text : List Char}
    (h : ∀ c ∈ text, d.opening ≠ some c ∧ d.closing ≠ some c) : d.Balanced text := by
  have hopened : ∀ front, front <+: text → d.opened front = 0 := fun front hf =>
    List.countP_eq_zero.mpr fun c hc => by simpa using (h c (hf.subset hc)).1
  have hclosed : ∀ front, front <+: text → d.closed front = 0 := fun front hf =>
    List.countP_eq_zero.mpr fun c hc => by simpa using (h c (hf.subset hc)).2
  refine ⟨fun front hf => ?_, ?_⟩
  · rw [hclosed front hf]
    exact Nat.zero_le _
  · rw [hclosed text (List.prefix_refl _), hopened text (List.prefix_refl _)]

theorem Balanced.append {s t : List Char} (hs : d.Balanced s) (ht : d.Balanced t) :
    d.Balanced (s ++ t) := by
  refine ⟨?_, by rw [opened_append, closed_append, hs.total, ht.total]⟩
  rintro front ⟨back, h⟩
  rcases List.append_eq_append_iff.mp h with ⟨more, rfl, -⟩ | ⟨more, rfl, rfl⟩
  · exact hs.prefixes front (List.prefix_append _ _)
  · have := ht.prefixes more (List.prefix_append _ _)
    rw [opened_append, closed_append, hs.total]
    omega

/-- Parentheses around a text with matching parentheses match too, and inside them every front of
the text has one that is open. -/
theorem Balanced.enclose (hd : d.Distinct) {o c : Char} {body : List Char} (h : d.Balanced body)
    (ho : d.opening = some o) (hc : d.closing = some c) : d.Balanced (o :: body ++ [c]) := by
  have hoc : d.closing ≠ some o := hd.opening_ne_closing o ho
  have hco : d.opening ≠ some c := fun h => hd.opening_ne_closing c h hc
  have hall : d.closed (body ++ [c]) = d.opened (body ++ [c]) + 1 := by
    rw [opened_append, closed_append, opened_cons, closed_cons, if_neg hco, if_pos hc, h.total]
    rfl
  refine ⟨?_, by rw [List.cons_append, opened_cons, closed_cons, if_pos ho, if_neg hoc, hall]⟩
  rw [List.cons_append, forall_prefix_cons_iff]
  refine ⟨Nat.le_refl _, fun front hfront => ?_⟩
  rw [opened_cons, closed_cons, if_pos ho, if_neg hoc]
  rcases List.prefix_concat_iff.mp hfront with rfl | hfront
  · omega
  · have := h.prefixes front hfront
    omega

/-- Where parentheses around a text were cut short, more of them are open than closed. -/
theorem Balanced.closed_lt_opened_of_prefix (hd : d.Distinct) {o c : Char}
    {body front : List Char} (h : d.Balanced body) (ho : d.opening = some o)
    (hfront : front <+: o :: body ++ [c]) (hne : front ≠ []) (hproper : front ≠ o :: body ++ [c]) :
    d.closed front < d.opened front := by
  obtain ⟨x, rest, rfl⟩ := List.exists_cons_of_ne_nil hne
  obtain ⟨rfl, hrest⟩ := List.cons_prefix_cons.mp hfront
  rcases List.prefix_concat_iff.mp hrest with rfl | hrest
  · exact absurd rfl hproper
  · have hbody := h.prefixes rest hrest
    rw [opened_cons, closed_cons, if_pos ho, if_neg (hd.opening_ne_closing x ho)]
    omega

theorem IsSolid.append {s t : List Char} (hs : d.IsSolid s) (ht : d.IsSolid t) :
    d.IsSolid (s ++ t) where
  ne_nil := by simp [hs.ne_nil]
  not_blank c hc := (List.mem_append.mp hc).elim (hs.not_blank c) (ht.not_blank c)
  balanced := hs.balanced.append ht.balanced

/-- A text without delimiters and white space is an element. -/
theorem isElement_of_plain {text : List Char} (hne : text ≠ [])
    (hblank : ∀ c ∈ text, Text.isBlank c = false) (h : ∀ c ∈ text, c ∉ d.characters) :
    d.IsElement text where
  ne_nil := hne
  not_blank := hblank
  balanced := balanced_of_plain fun c hc => by
    have := h c hc
    simp only [characters, List.mem_cons, List.mem_append, Option.mem_toList] at this
    grind
  separator_inside front hfront := by
    refine absurd ?_ (h d.separator (hfront.subset (by simp)))
    simp [characters]

theorem isSolid_separator (hd : d.Distinct) : d.IsSolid [d.separator] where
  ne_nil := List.cons_ne_nil _ _
  not_blank c hc := List.mem_singleton.mp hc ▸ hd.separator_not_blank
  balanced := balanced_of_plain fun c hc => by
    rw [List.mem_singleton.mp hc]
    exact ⟨hd.opening_ne_separator, hd.closing_ne_separator⟩

theorem isSolid_intercalate (hd : d.Distinct) {texts : List (List Char)} (hne : texts ≠ [])
    (h : ∀ t ∈ texts, d.IsSolid t) : d.IsSolid ([d.separator].intercalate texts) := by
  induction texts with
  | nil => exact absurd rfl hne
  | cons text texts ih =>
    rw [List.forall_mem_cons] at h
    cases texts with
    | nil =>
      rw [List.intercalate_singleton]
      exact h.1
    | cons next texts =>
      rw [List.intercalate_cons_cons]
      exact (h.1.append (isSolid_separator hd)).append (ih (List.cons_ne_nil _ _) h.2)

/-- **Solid texts make an element of a value when parentheses are put around them**: their
separators then stand inside parentheses. -/
theorem isElement_compose (hd : d.Distinct) (hp : d.parentheses.isSome)
    {texts : List (List Char)} (hne : texts ≠ []) (h : ∀ t ∈ texts, d.IsSolid t) :
    d.IsElement (d.compose texts) := by
  obtain ⟨⟨o, c⟩, hboth⟩ := Option.isSome_iff_exists.mp hp
  have ho := opening_of_some hboth
  have hc := closing_of_some hboth
  have hbody := isSolid_intercalate hd hne h
  have htext : d.compose texts = o :: [d.separator].intercalate texts ++ [c] := by
    rw [compose, ho, hc]
    rfl
  rw [htext]
  refine ⟨⟨List.cons_ne_nil _ _, ?_, hbody.balanced.enclose hd ho hc⟩, ?_⟩
  · intro x hx
    rcases List.mem_cons.mp hx with rfl | hx
    · exact hd.opening_not_blank x ho
    · rcases List.mem_append.mp hx with hx | hx
      · exact hbody.not_blank x hx
      · rw [List.mem_singleton.mp hx]
        exact hd.closing_not_blank c hc
  · rw [List.cons_append, forall_before_cons_iff]
    refine ⟨fun hsep => absurd (hsep ▸ ho) hd.opening_ne_separator, fun front hfront => ?_⟩
    -- the separator is not the closing parenthesis, so it stands before it
    have hinside : front <+: [d.separator].intercalate texts := by
      rcases List.prefix_concat_iff.mp hfront with heq | hinside
      · have := (List.append_inj' heq rfl).2
        exact absurd (List.cons.inj this).1 fun hsep => hd.closing_ne_separator (hsep ▸ hc)
      · exact (List.prefix_append _ _).trans hinside
    have := hbody.balanced.prefixes front hinside
    rw [opened_cons, closed_cons, if_pos ho, if_neg (hd.opening_ne_closing o ho)]
    omega

/-- A composite value of solid texts is solid, with and without parentheses. -/
theorem isSolid_compose (hd : d.Distinct) {texts : List (List Char)} (hne : texts ≠ [])
    (h : ∀ t ∈ texts, d.IsSolid t) : d.IsSolid (d.compose texts) := by
  cases hp : d.parentheses with
  | some both => exact (isElement_compose hd (by rw [hp]; rfl) hne h).toIsSolid
  | none =>
    have hcompose : d.compose texts = [d.separator].intercalate texts := by
      rw [compose, opening_of_none hp, closing_of_none hp]
      simp
    rw [hcompose]
    exact isSolid_intercalate hd hne h

end Delimiters
end WeightedTransducer
