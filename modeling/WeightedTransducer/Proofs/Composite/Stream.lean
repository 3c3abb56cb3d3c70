import WeightedTransducer.Proofs.Composite.RoundTrip

/-!
# Values read one after another from a stream

A reader takes one character more from its stream than it uses, and this character is lost to the
next reader.  Values in parentheses can nevertheless be read one after another from one stream, as
long as there is white space between them: the closing parenthesis ends a value, so the character
that is lost belongs to the white space (`Reading.value_turn`), and of a run of white space it does
not matter how much is left.  By induction over the values every reader gets its own value and the
stream is used up (`Reading.turns_of_separated`).  Where there is no white space, the character lost
is the opening parenthesis of the next value, and the reader before it says so.
-/

namespace WeightedTransducer

/-- What the steps of one reader have answered. -/
structure Turn (α : Type) where
  /-- Whether the value was opened. -/
  opened : Except ReadError Unit
  /-- The elements, each with the answer whether more elements follow. -/
  answers : Except ReadError (List (α × Bool))
  /-- Whether the value was closed. -/
  closed : Except ReadError Unit

/-- Values with the answer whether more of them follow. -/
def announce {α : Type} : List α → List (α × Bool)
  | [] => []
  | v :: rest => (v, !rest.isEmpty) :: announce rest

/-- What a reader answers that takes a whole sequence and fails at most at its end. -/
def Turn.of {α : Type} (values : List α) (closed : Except ReadError Unit) : Turn α :=
  { opened := .ok (), answers := .ok (announce values), closed }

/-- What a reader answers that takes a whole sequence. -/
def Turn.whole {α : Type} (values : List α) : Turn α :=
  .of values (.ok ())

/-- A stream of texts with white space between each two of them. -/
inductive Separated : List (List Char) → List Char → Prop where
  /-- No text. -/
  | nil : Separated [] []
  /-- The last text. -/
  | last (text : List Char) : Separated [text] text
  /-- One text in front of another. -/
  | cons (text : List Char) {gap next stream : List Char} {texts : List (List Char)} :
      gap ≠ [] → Text.AllBlank gap → Separated (next :: texts) stream →
      Separated (text :: next :: texts) (text ++ gap ++ stream)

namespace Reading
variable {α : Type} [Textual α] {d : Delimiters}

/-- Takes elements for as long as another is announced, and keeps the announcements. -/
def announced (α : Type) [Textual α] (r : CompositeReader) :
    Traced (Except ReadError (List (α × Bool)) × CompositeReader) :=
  let first := (element false r : Traced (Except ReadError (α × Bool) × _))
  match _h : first.value with
  | (.error e, r') => { value := (.error e, r'), events := first.events }
  | (.ok (a, false), r') => { value := (.ok [(a, false)], r'), events := first.events }
  | (.ok (a, true), r') =>
    let others := announced α r'
    { value := (others.value.1.map ((a, true) :: ·), others.value.2),
      events := first.events ++ others.events }
  termination_by r.ahead.length
  decreasing_by exact element_consumes _h

/-- Takes one value from a stream with a reader of its own; the stream afterwards lacks what the
reader has used and the character after it. -/
def turn (d : Delimiters) (stream : List Char) : Traced (Turn α × List Char) := do
  let r ← CompositeReader.start d stream
  let (opened, r) ← opening r
  let (answers, r) ← announced α r
  let (closed, r) ← closing r
  pure (⟨opened, answers, closed⟩, r.rest)

/-- Takes a number of values from a stream, each with a reader of its own. -/
def turns (d : Delimiters) : Nat → List Char → Traced (List (Turn α) × List Char)
  | 0, stream => pure ([], stream)
  | n + 1, stream => do
    let (first, stream) ← turn d stream
    let (others, stream) ← turns d n stream
    pure (first :: others, stream)

/-! ## Elements and their announcements -/

/-- The cases of taking elements: the first fails, it announces no other, or it announces others
that are taken in the same way. -/
theorem value_announced (r : CompositeReader) :
    (announced α r).value =
      match (element false r : Traced (Except ReadError (α × Bool) × _)).value with
      | (.error e, r') => (.error e, r')
      | (.ok (a, false), r') => (.ok [(a, false)], r')
      | (.ok (a, true), r') =>
        ((announced α r').value.1.map ((a, true) :: ·), (announced α r').value.2) := by
  conv_lhs => unfold announced
  dsimp only
  split <;> rename_i h <;> rw [h]

theorem yields_announced_of_last {r r' : CompositeReader} {a : α}
    (h : (element false).Yields r (a, false) r') : Yields (announced α) r [(a, false)] r' := by
  unfold Yields at h ⊢
  rw [value_announced, h]

theorem yields_announced_of_more {r mid r' : CompositeReader} {a : α} {answers : List (α × Bool)}
    (h : (element false).Yields r (a, true) mid) (hrest : Yields (announced α) mid answers r') :
    Yields (announced α) r ((a, true) :: answers) r' := by
  unfold Yields at h hrest ⊢
  rw [value_announced, h]
  dsimp only
  rw [hrest]
  rfl

/-- The elements of a value in parentheses are taken with the closing parenthesis. -/
theorem yields_announced (hd : d.validate = .ok ()) {o c : Char}
    (hp : d.parentheses = some (o, c)) {texts : List (List Char)} {values : List α}
    (hne : texts ≠ []) (htexts : ∀ t ∈ texts, d.IsElement t)
    (hreads : List.Forall₂ (fun t v => (Textual.read d t).value = .ok v) texts values)
    (after : List Char) :
    Yields (announced α) (.inside d ([d.separator].intercalate texts ++ c :: after))
      (announce values) { delimiters := d, ahead := after } := by
  have hdistinct := Delimiters.distinct_of_validate hd
  have hc := Delimiters.closing_of_some hp
  have hbase := Delimiters.base_of_some hp
  -- the last element is ended by the closing parenthesis, each other one by a separator
  induction hreads with
  | nil => exact absurd rfl hne
  | @cons text v texts values hread hothers ih =>
    obtain ⟨htext, htexts⟩ := List.forall_mem_cons.mp htexts
    cases hothers with
    | nil =>
      have hstops : d.StopsAt false d.base (c :: after) := by
        rw [hbase]
        exact stopsAt_closing hc after
      obtain ⟨hscan, hsome⟩ := (Delimiters.scan_base_iff hdistinct).mpr
        ⟨rfl, htext.toIsSolid, fun _ => htext, hstops⟩
      have hafter : afterElement { delimiters := d, ahead := c :: after, depth := d.base } =
          (false, { delimiters := d, ahead := after }) := by
        rw [hbase]
        exact afterElement_closing hdistinct hc after
      rw [List.intercalate_singleton]
      apply yields_announced_of_last
      exact (yields_element_iff hd).mpr ⟨text, _, _, hscan, hsome, hread, hafter⟩
    | @cons next _ others _ hnext hothers =>
      have hsolid := Delimiters.isSolid_intercalate hdistinct (List.cons_ne_nil next others)
        fun t ht => (htexts t ht).toIsSolid
      have hmore := any_head?_append hsolid.isWord (c :: after)
      have hfirst := yields_element_of_separator hd htext hread
        ([d.separator].intercalate (next :: others) ++ c :: after)
      rw [hmore] at hfirst
      rw [List.intercalate_cons_cons]
      simp only [List.append_assoc, List.singleton_append] at hfirst ⊢
      exact yields_announced_of_more hfirst (ih (List.cons_ne_nil _ _) htexts)

/-! ## One value -/

/-- What a reader says to the text that follows its value. -/
def atEnd (after : List Char) : Except ReadError Unit :=
  match after.head? with
  | some c => if Text.isBlank c then .ok () else .error (.excess c)
  | none => .ok ()

theorem atEnd_of_startsBlank {after : List Char} (h : Text.StartsBlank after) :
    atEnd after = .ok () := by
  cases after with
  | nil => rfl
  | cons c rest => exact if_pos (h c rfl)

theorem closing_atEnd (hd : d.validate = .ok ()) (after : List Char) :
    (closing { delimiters := d, ahead := after }).value.1 = atEnd after ∧
      (closing { delimiters := d, ahead := after }).value.2.rest = after.tail := by
  rw [value_closing_zero hd]
  cases after with
  | nil => exact ⟨rfl, rfl⟩
  | cons c rest =>
    cases hblank : Text.isBlank c with
    | true => simp [nothingFollows, atEnd, CompositeReader.current, CompositeReader.rest, hblank]
    | false => simp [nothingFollows, atEnd, CompositeReader.current, CompositeReader.rest, hblank]

/-- A reader takes one value with the white space in front of it, and loses the character behind it,
which decides about its end. -/
theorem value_turn (hd : d.validate = .ok ()) {o c : Char} (hp : d.parentheses = some (o, c))
    {texts : List (List Char)} {values : List α} (hne : texts ≠ [])
    (htexts : ∀ t ∈ texts, d.IsElement t)
    (hreads : List.Forall₂ (fun t v => (Textual.read d t).value = .ok v) texts values)
    {front : List Char} (hfront : Text.AllBlank front) (after : List Char) :
    (turn d (front ++ d.compose texts ++ after)).value =
      (Turn.of values (atEnd after), after.tail) := by
  have ho := Delimiters.opening_of_some hp
  have hinput : front ++ d.compose texts ++ after =
      front ++ d.opening.toList ++ ([d.separator].intercalate texts ++ c :: after) := by
    simp [Delimiters.compose, Delimiters.closing_of_some hp]
  have hopening : opening.Yields { delimiters := d, ahead := front ++ d.compose texts ++ after } ()
      (.inside d ([d.separator].intercalate texts ++ c :: after)) :=
    (yields_opening_iff hd).mpr ⟨front, _, hinput, hfront, fun h => absurd h (by simp [ho]), rfl⟩
  have hanswers := yields_announced hd hp hne htexts hreads after
  obtain ⟨hclosed, hrest⟩ := closing_atEnd hd after
  unfold Yields at hopening hanswers
  unfold turn
  simp only [Traced.value_bind, CompositeReader.value_start hd, hopening, hanswers,
    Traced.value_pure, hclosed, hrest]
  rfl

/-! ## One value after another -/

/-- A sequence with elements, each of which can stand anywhere in a value and reads back. -/
structure IsReadable (d : Delimiters) [BEq α] (values : List α) : Prop where
  ne_nil : values ≠ []
  isElement : ∀ v ∈ values, d.IsElement (Textual.text d v)
  reads_back : ∀ v ∈ values, ∃ w,
    (Textual.read d (Textual.text d v)).value = .ok w ∧ (w == v) = true

variable [LawfulTextual α] [BEq α]

theorem IsReadable.value_turn (hd : d.validate = .ok ()) {o c : Char}
    (hp : d.parentheses = some (o, c)) {values : List α} (h : IsReadable d values)
    {front : List Char} (hfront : Text.AllBlank front) (after : List Char) :
    ∃ taken, (taken == values) = true ∧ (turn d (front ++ Textual.text d values ++ after)).value =
      (Turn.of taken (atEnd after), after.tail) := by
  obtain ⟨taken, hreads, htaken⟩ := Composed.exists_reads h.reads_back
  have hne : values.map (Textual.text d) ≠ [] := by
    intro hnil
    exact h.ne_nil (List.map_eq_nil_iff.mp hnil)
  have htexts : ∀ t ∈ values.map (Textual.text d), d.IsElement t := by
    intro t ht
    obtain ⟨v, hv, rfl⟩ := List.mem_map.mp ht
    exact h.isElement v hv
  refine ⟨taken, htaken, ?_⟩
  rw [text_list]
  exact Reading.value_turn hd hp hne htexts hreads hfront after

omit [LawfulTextual α] [BEq α] in
theorem value_turns_succ {n : Nat} {stream mid rest : List Char} {first : Turn α}
    {others : List (Turn α)} (h : (turn d stream).value = (first, mid))
    (hothers : (turns d n mid).value = (others, rest)) :
    (turns d (n + 1) stream).value = (first :: others, rest) := by
  unfold turns
  simp only [Traced.value_bind, h, hothers, Traced.value_pure]

/-- All readers but the last take their values and say that nothing follows; the last takes its
value and says what the text behind it deserves. -/
theorem value_turns (hd : d.validate = .ok ()) {o c : Char} (hp : d.parentheses = some (o, c))
    {sequences : List (List α)} (hne : sequences ≠ [])
    (hreadable : ∀ values ∈ sequences, IsReadable d values) {stream : List Char}
    (hstream : Separated (sequences.map (Textual.text d)) stream) {front : List Char}
    (hfront : Text.AllBlank front) (after : List Char) :
    ∃ before last, (before ++ [last] == sequences) = true ∧
      (turns d sequences.length (front ++ stream ++ after)).value =
        (before.map Turn.whole ++ [Turn.of last (atEnd after)], after.tail) := by
  induction sequences generalizing stream front with
  | nil => exact absurd rfl hne
  | cons values sequences ih =>
    obtain ⟨hvalues, hothers⟩ := List.forall_mem_cons.mp hreadable
    cases sequences with
    | nil =>
      cases hstream with
      | last =>
        obtain ⟨taken, htaken, hturn⟩ := hvalues.value_turn hd hp hfront after
        refine ⟨[], taken, ?_, ?_⟩
        · show (taken == values && true) = true
          rw [htaken, Bool.and_true]
        · exact value_turns_succ hturn rfl
    | cons next sequences =>
      cases hstream with
      | @cons _ gap _ rest _ hgap hblank hrest =>
        -- the first reader loses the first character of the gap; the rest of it is skipped
        have hstarts : Text.StartsBlank (gap ++ (rest ++ after)) := hblank.startsBlank hgap _
        obtain ⟨taken, htaken, hturn⟩ := hvalues.value_turn hd hp hfront (gap ++ (rest ++ after))
        rw [atEnd_of_startsBlank hstarts, List.tail_append_of_ne_nil hgap] at hturn
        have htail : Text.AllBlank gap.tail := fun x hx => hblank x (List.mem_of_mem_tail hx)
        obtain ⟨before, last, hbefore, hturns⟩ :=
          ih (List.cons_ne_nil _ _) hothers hrest htail
        refine ⟨taken :: before, last, ?_, ?_⟩
        · show (taken == values && before ++ [last] == next :: sequences) = true
          rw [htaken, hbefore]
          rfl
        · rw [List.append_assoc gap.tail] at hturns
          have hinput : front ++ (Textual.text d values ++ gap ++ rest) ++ after =
              front ++ Textual.text d values ++ (gap ++ (rest ++ after)) := by simp
          rw [hinput]
          exact value_turns_succ hturn hturns

/-- **Values in parentheses are read one after another from one stream**, each by a reader of its
own, if there is white space between them: every reader answers as it should, and nothing is left of
the stream.  Where the next value follows directly, the reader in front of it finds its opening
parenthesis in excess. -/
theorem turns_of_separated (hd : d.validate = .ok ()) {o c : Char}
    (hp : d.parentheses = some (o, c)) {sequences : List (List α)}
    (hreadable : ∀ values ∈ sequences, IsReadable d values) {stream : List Char}
    (hstream : Separated (sequences.map (Textual.text d)) stream) :
    (∃ taken, (taken == sequences) = true ∧
      (turns d sequences.length stream).value = (taken.map Turn.whole, [])) ∧
    ∀ (next : List α) (more : List Char), sequences ≠ [] →
      ∃ before last, (before ++ [last] == sequences) = true ∧
        (turns d sequences.length (stream ++ Textual.text d next ++ more)).value.1 =
          before.map Turn.whole ++ [Turn.of last (.error (.excess o))] := by
  have hnothing : Text.AllBlank [] := nofun
  constructor
  · by_cases hne : sequences = []
    · subst hne
      cases hstream
      exact ⟨[], rfl, rfl⟩
    · obtain ⟨before, last, hbefore, hturns⟩ :=
        value_turns hd hp hne hreadable hstream hnothing []
      refine ⟨before ++ [last], hbefore, ?_⟩
      rw [List.nil_append, List.append_nil] at hturns
      rw [hturns, List.map_append]
      rfl
  · intro next more hne
    have ho := Delimiters.opening_of_some hp
    have hsolid := (Delimiters.distinct_of_validate hd).opening_not_blank o ho
    obtain ⟨before, last, hbefore, hturns⟩ :=
      value_turns hd hp hne hreadable hstream hnothing (Textual.text d next ++ more)
    have hexcess : atEnd (Textual.text d next ++ more) = .error (.excess o) := by
      rw [text_list, Delimiters.compose, ho]
      simp [atEnd, hsolid]
    rw [List.nil_append, ← List.append_assoc, hexcess] at hturns
    exact ⟨before, last, hbefore, congrArg Prod.fst hturns⟩

/-- Two lists of lists of words, with a blank and a tabulator between them, and then a third one
without white space in front of it. -/
theorem turns_of_separated_of_lists :
    let d : Delimiters := ⟨',', some ('(', ')')⟩
    let sequences : List (List (List String)) := [[["ab"], ["c", "d"]], [["e"]]]
    let stream := "((ab),(c,d)) \t((e))".toList
    d.validate = .ok () ∧ (∀ values ∈ sequences, IsReadable d values) ∧
      Separated (sequences.map (Textual.text d)) stream ∧
      (∃ taken, (taken == sequences) = true ∧
        (turns d sequences.length stream).value = (taken.map Turn.whole, [])) ∧
      ∃ before last, (before ++ [last] == sequences) = true ∧
        (turns d sequences.length (stream ++ Textual.text d [["f"]] ++ [' '])).value.1 =
          before.map Turn.whole ++ [Turn.of last (.error (.excess '('))] := by
  intro d sequences stream
  have hlegible : ∀ values ∈ sequences, ∀ v ∈ values,
      (Composed.list (.simple String)).Legible d v := by
    have hwords : ∀ values ∈ sequences, ∀ v ∈ values, v ≠ [] ∧ ∀ word ∈ v, word.toList ≠ [] ∧
        ∀ c ∈ word.toList, Text.isBlank c = false ∧ c ∉ d.characters := by decide
    intro values hvalues v hv
    obtain ⟨hne, hall⟩ := hwords values hvalues v hv
    exact ⟨hne, fun word hw => isLeaf_word (hall word hw).1 (hall word hw).2⟩
  have hreadable : ∀ values ∈ sequences, IsReadable d values := by
    have hsome : ∀ values ∈ sequences, values ≠ [] := by decide
    intro values hvalues
    have hboth (v : List String) (hv : v ∈ values) :=
      Composed.isElement_and_reads rfl rfl (.list (.simple String)) v (hlegible values hvalues v hv)
    exact ⟨hsome values hvalues, fun v hv => (hboth v hv).1, fun v hv => (hboth v hv).2⟩
  have htexts : sequences.map (Textual.text d) =
      ["((ab),(c,d))".toList, "((e))".toList] := by decide
  have hstream : Separated (sequences.map (Textual.text d)) stream := by
    have hgap : Text.AllBlank " \t".toList := by decide
    have htail : Separated ["((e))".toList] "((e))".toList := .last _
    rw [htexts]
    exact Separated.cons "((ab),(c,d))".toList (by decide : " \t".toList ≠ []) hgap htail
  obtain ⟨hall, hnext⟩ := turns_of_separated (o := '(') (c := ')') rfl rfl hreadable hstream
  exact ⟨rfl, hreadable, hstream, hall, hnext [["f"]] [' '] nofun⟩

end Reading
end WeightedTransducer
