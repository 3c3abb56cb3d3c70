import WeightedTransducer.Proofs.Codex.ReadBack
import WeightedTransducer.Proofs.Weight.KindText

/-!
# Every codex reads back

A codex is fresh, or was read, or has grown from another (`Codex.Obtained`).  In each of these ways
its entries stay told apart (`Codex.Obtained.distinct`), because reading adds entries that are new
and nothing else (`Codex.readEntry_cases`, `Codex.exists_of_read_eq_ok`).  Nothing else is asked of
a codex for it to be read back from what it is written as.  What is read back need not be the same
codex, because weights read back up to equality only, but it cannot be told from it
(`Codex.Agrees`, `Codex.read_bytes_agrees`).
-/

namespace WeightedTransducer

/-! ## Lists whose elements are equal one by one -/

theorem findIdx?_eq_of_forall₂ {α β : Type} {p : α → Bool} {q : β → Bool} {xs : List α}
    {ys : List β} (h : List.Forall₂ (fun x y => p x = q y) xs ys) :
    xs.findIdx? p = ys.findIdx? q := by
  induction h with
  | nil => rfl
  | cons hxy _ ih => rw [List.findIdx?_cons, List.findIdx?_cons, hxy, ih]

theorem rel_getElem?_of_forall₂ {α β : Type} {R : α → β → Prop} {xs : List α} {ys : List β}
    (h : List.Forall₂ R xs ys) (position : Nat) : Option.Rel R xs[position]? ys[position]? := by
  induction h generalizing position with
  | nil => exact .none
  | cons hxy _ ih =>
    cases position with
    | zero => exact .some hxy
    | succ position => exact ih position

/-- The weights of a kind built from costs read back as equal ones. -/
theorem WeightKind.readsBack [Elementary] {d : Delimiters} (hd : d.validate = .ok ())
    (hcosts : d.AvoidsCosts) {k : WeightKind} (hk : k.OfCosts)
    (hnests : d.parentheses.isSome ∨ k.NestsLast) (w : k.Carrier) :
    ReadsBack d (fun a b => (a == b) = true) w := by
  obtain ⟨hsolid, hreads, -⟩ := isSolid_and_reads hd hcosts hk hnests w
  exact ⟨hsolid, hreads⟩

namespace Codex
variable {W : Type} [Weight W] {d : Delimiters} {codex grown : Codex W}

/-! ## The ways to a codex -/

/-- A codex that can be had: a fresh one, one that was read, or one that arcs were encoded with. -/
inductive Obtained : Codex W → Prop
  | fresh (flags : Flags) : Obtained (empty flags)
  | read {d : Delimiters} {input : Bytes} {codex : Codex W}
    (h : (Codex.read d input).value = .ok codex) : Obtained codex
  | encode {codex : Codex W} (h : Obtained codex) (input output : Label) (weight : W) :
    Obtained (codex.encode input output weight).2

/-- What reading a line can do: a blank line changes nothing, and any other holds the next label and
an entry that is new. -/
theorem readEntry_cases {number : Nat} {line : List Char}
    (h : (readEntry d number line codex).value = .ok grown) :
    (Text.trim line = [] ∧ grown = codex) ∨
      ∃ label entryText entry, Text.splitAtBlank? (Text.trim line) = some (label, entryText) ∧
        Text.natural? (2 ^ 64 - 1) label = some (codex.entries.length + 1) ∧
        (Textual.read d (Text.trimStart entryText)).value = .ok entry ∧
        codex.find? entry = none ∧ grown = codex.push entry := by
  unfold readEntry at h
  dsimp only at h
  split at h
  · rename_i hblank
    exact Or.inl ⟨List.isEmpty_iff.mp hblank, (Except.ok.inj h).symm⟩
  · split at h
    · cases h
    · rename_i label entryText hsplit
      split at h
      · cases h
      · rename_i hlabel
        rw [Traced.value_bind] at h
        split at h
        · cases h
        · rename_i entry hread
          cases hfind : codex.find? entry with
          | some label =>
            rw [hfind] at h
            cases h
          | none =>
            rw [hfind] at h
            exact Or.inr ⟨label, entryText, entry, hsplit, Decidable.not_not.mp hlabel, hread,
              hfind, (Except.ok.inj h).symm⟩

/-- A line adds one entry that is new, or nothing. -/
theorem eq_or_push_of_readEntry {number : Nat} {line : List Char}
    (h : (readEntry d number line codex).value = .ok grown) :
    grown = codex ∨ ∃ entry, codex.find? entry = none ∧ grown = codex.push entry := by
  rcases readEntry_cases h with ⟨-, heq⟩ | ⟨-, -, entry, -, -, -, hnew, heq⟩
  · exact Or.inl heq
  · exact Or.inr ⟨entry, hnew, heq⟩

/-- Lines are read one after the other. -/
theorem readEntries_cons_iff {number : Nat} {line : Bytes} {rest : List Bytes} :
    (readEntries d number (line :: rest) codex).value = .ok grown ↔
      ∃ text mid, Utf8.decode? line = some text ∧
        (readEntry d number text codex).value = .ok mid ∧
        (readEntries d (number + 1) rest mid).value = .ok grown := by
  conv_lhs => unfold readEntries
  cases hdecode : Utf8.decode? line with
  | none =>
    constructor
    · intro h
      cases h
    · rintro ⟨_, _, h, -⟩
      cases h
  | some text =>
    dsimp only
    rw [Traced.value_bind]
    cases hline : (readEntry d number text codex).value with
    | error e =>
      constructor
      · intro h
        cases h
      · rintro ⟨_, _, htext, h, -⟩
        cases htext
        rw [hline] at h
        cases h
    | ok mid =>
      constructor
      · intro h
        exact ⟨text, mid, rfl, hline, h⟩
      · rintro ⟨_, _, htext, h, hrest⟩
        cases htext
        rw [hline] at h
        cases h
        exact hrest

/-- What adding a new entry preserves, reading lines does. -/
theorem readEntries_preserves {P : Codex W → Prop}
    (hstep : ∀ codex entry, codex.find? entry = none → P codex → P (codex.push entry))
    {number : Nat} {input : List Bytes} (h : (readEntries d number input codex).value = .ok grown)
    (hcodex : P codex) : P grown := by
  induction input generalizing codex number with
  | nil => exact Except.ok.inj h ▸ hcodex
  | cons line rest ih =>
    obtain ⟨text, mid, -, hline, hrest⟩ := readEntries_cons_iff.mp h
    rcases eq_or_push_of_readEntry hline with rfl | ⟨entry, hnew, rfl⟩
    · exact ih hrest hcodex
    · exact ih hrest (hstep codex entry hnew hcodex)

/-- A codex that was read: a header, lines that are added to an empty codex with the flags of the
header, and as many entries as it says. -/
theorem exists_of_read_eq_ok {input : Bytes} (h : (read d input).value = .ok codex) :
    ∃ header rest text flags, lines input = header :: rest ∧ Utf8.decode? header = some text ∧
      readHeader W text = .ok (flags, codex.entries.length) ∧
      (readEntries d 2 rest (empty flags)).value = .ok codex := by
  unfold read at h
  split at h
  · cases h
  · rename_i header rest hlines
    split at h
    · cases h
    · rename_i text hdecode
      split at h
      · cases h
      · rename_i flags count hheader
        rw [Traced.value_bind] at h
        let grown : Traced (Except CodexError (Codex W)) := readEntries d 2 rest (empty flags)
        cases hrest : grown.value with
        | error e =>
          rw [hrest] at h
          cases h
        | ok grown =>
          rw [hrest] at h
          dsimp only at h
          split at h
          · cases h
          · rename_i hcount
            obtain rfl : grown = codex := Except.ok.inj h
            rw [ne_eq, Decidable.not_not] at hcount
            rw [← hcount] at hheader
            exact ⟨header, rest, text, flags, hlines, hdecode, hheader, hrest⟩

/-- In each of the ways to a codex its entries are told apart. -/
theorem Obtained.distinct (h : codex.Obtained) : codex.Distinct := by
  induction h with
  | fresh flags => exact .nil
  | read h =>
    obtain ⟨_, rest, _, flags, _, _, _, hrest⟩ := exists_of_read_eq_ok h
    exact readEntries_preserves (fun _ _ hnew hcodex => hcodex.push hnew) hrest .nil
  | encode _ input output weight ih => exact ih.encode input output weight

/-! ## Codices that cannot be told apart -/

/-- Codices with the same flags and as many entries, with equal entries under every label, and the
same labels for the fields of every arc. -/
structure Agrees (a b : Codex W) : Prop where
  flags_eq : a.flags = b.flags
  length_eq : a.entries.length = b.entries.length
  decode?_beq (label : Label) :
    Option.Rel (fun x y => (x == y) = true) (a.decode? label) (b.decode? label)
  lookup?_eq (input output : Label) (weight : W) :
    a.lookup? input output weight = b.lookup? input output weight

theorem agrees_of_forall₂ [EquivBEq W] {a b : Codex W} (hflags : a.flags = b.flags)
    (h : List.Forall₂ (fun x y => (x == y) = true) a.entries b.entries) : a.Agrees b where
  flags_eq := hflags
  length_eq := h.length_eq
  decode?_beq label := by
    unfold decode?
    split
    · exact .none
    · exact rel_getElem?_of_forall₂ h _
  lookup?_eq input output weight := by
    unfold lookup?
    rw [hflags, find?_eq, find?_eq,
      findIdx?_eq_of_forall₂ (h.imp fun x y hxy => BEq.congr_right hxy)]

/-- The labels of a codex keep their meaning in one that cannot be told from it. -/
theorem Agrees.keeps [EquivBEq W] {a b : Codex W} (h : a.Agrees b) : b.Keeps a where
  flags_eq := h.flags_eq
  names := by
    rintro label entry ⟨hne, found, hfound, heq⟩
    have hrel := h.decode?_beq label
    rw [hfound] at hrel
    cases hdecode : a.decode? label with
    | none =>
      rw [hdecode] at hrel
      cases hrel
    | some other =>
      rw [hdecode] at hrel
      cases hrel with
      | some hother => exact ⟨hne, other, hdecode, BEq.trans heq (BEq.symm hother)⟩

/-! ## Reading back -/

/-- **Every codex reads back as one that cannot be told from it**, whatever was encoded with it or
read into it, where weights read back as equal ones.  With parentheses, those in the text of a
weight must match; without, the text may hold the separator, because the weight is the last
element. -/
theorem read_bytes_agrees [EquivBEq W] [LawfulTextual W] (hd : d.validate = .ok ())
    (hdigits : ∀ c ∈ d.characters, c.isDigit = false)
    (htype : Text.IsWord (Weight.typeName W).toList)
    (hwords : ∀ w : W, Text.IsWord (Textual.text d w))
    (hbalanced : d.parentheses.isSome → ∀ w : W, d.Balanced (Textual.text d w))
    (hreads : ∀ w : W, ∃ read, (Textual.read d (Textual.text d w)).value = .ok read ∧
      (read == w) = true)
    (hcodex : codex.Obtained) (hlength : codex.entries.length < 2 ^ 64) :
    ∃ read, (Codex.read d (codex.bytes d)).value = .ok read ∧ read.Agrees codex := by
  have hmatch (w : W) : d.Balanced (Textual.text d w) := by
    cases hp : d.parentheses with
    | some both => exact hbalanced (by rw [hp]; rfl) w
    | none => exact Delimiters.balanced_of_none hp _
  have hweights : ∀ e ∈ codex.entries, ReadsBack d (fun a b => (a == b) = true) e.weight :=
    fun e _ => ⟨⟨(hwords e.weight).1, (hwords e.weight).2, hmatch e.weight⟩, hreads e.weight⟩
  obtain ⟨entries, hread, hall⟩ :=
    read_bytes hd hdigits htype (fun _ _ h => h) hcodex.distinct hlength hweights
  have hbeq := hall.imp fun a b h => beq_of_same (fun _ _ h => h) h
  exact ⟨_, hread, agrees_of_forall₂ rfl hbeq⟩

/-- A codex with a pair whose text holds a separator of three bytes, as no parentheses are there to
keep it inside. -/
theorem read_bytes_agrees_of_pair :
    let d : Delimiters := ⟨'→', none⟩
    let k : WeightKind := .product .tropical .log
    let w : k.Carrier := (⟨⟨.quiet true⟩, ⟨.zero true⟩⟩ : Product Tropical Log)
    let codex : Codex k.Carrier := (((empty ⟨true, true⟩ : Codex k.Carrier).encode
      1 2 w).2.encode 0 0 Weight.one).2
    d.validate = .ok () ∧ codex.Obtained ∧ codex.entries.length < 2 ^ 64 ∧
      Textual.text d w = "BadNumber→-0".toList ∧
      ∃ read, (Codex.read d (codex.bytes d)).value = .ok read ∧ read.Agrees codex := by
  intro d k w codex
  have hk : k.OfCosts := ⟨trivial, trivial⟩
  have hcosts : d.AvoidsCosts := by
    have hclear : ∀ c ∈ Cost.characters, c ∉ d.characters := by decide
    intro value c hc
    exact hclear c (Cost.mem_characters_of_mem_write hc)
  have hnests : d.parentheses.isSome ∨ k.NestsLast := Or.inr ⟨not_false, trivial⟩
  have htexts (v : k.Carrier) := WeightKind.readsBack rfl hcosts hk hnests v
  have hcodex : codex.Obtained := .encode (.encode (.fresh _) 1 2 w) 0 0 Weight.one
  have hlength : codex.entries.length < 2 ^ 64 := by decide +kernel
  refine ⟨rfl, hcodex, hlength, by decide +kernel, ?_⟩
  exact read_bytes_agrees rfl hcosts.isDigit_eq_false (WeightKind.isWord_typeName hk)
    (fun v => (htexts v).1.isWord) (fun _ v => (htexts v).1.balanced)
    (fun v => (htexts v).2) hcodex hlength

end Codex
end WeightedTransducer
