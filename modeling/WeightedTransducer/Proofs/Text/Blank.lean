import Mathlib.Data.List.TakeWhile
import WeightedTransducer.Text.Blank

/-!
# Texts cut at blanks

Two kinds of text matter wherever one is cut at blanks: those of nothing but blanks (`AllBlank`),
and those that nothing can be cut from in front (`StartsSolid`).  A text is in one way a run of
blanks followed by one that starts solid, which is what `trimStart` leaves (`trimStart_eq_iff`).
Words with blanks between are found again (`words_append`, `splitAtBlank?_append`).
-/

namespace WeightedTransducer.Text

/-- A text of nothing but blanks; it may be empty. -/
def AllBlank (text : List Char) : Prop :=
  ∀ c ∈ text, isBlank c = true

/-- A text that is empty or starts with a blank: what may follow a complete value. -/
def StartsBlank (text : List Char) : Prop :=
  ∀ c ∈ text.head?, isBlank c = true

/-- A text that is empty or starts with something other than a blank. -/
def StartsSolid (text : List Char) : Prop :=
  ∀ c ∈ text.head?, isBlank c = false

-- what holds of every character in a list is decided on the list, not on all characters
attribute [instance(2000)] List.decidableBAll Option.decidableForallMem

instance : DecidablePred AllBlank := fun text =>
  inferInstanceAs (Decidable (∀ c ∈ text, isBlank c = true))

instance : DecidablePred StartsBlank := fun text =>
  inferInstanceAs (Decidable (∀ c ∈ text.head?, isBlank c = true))

theorem AllBlank.startsBlank {text : List Char} (h : AllBlank text) (hne : text ≠ [])
    (rest : List Char) : StartsBlank (text ++ rest) := by
  obtain ⟨c, text, rfl⟩ := List.exists_cons_of_ne_nil hne
  exact fun x hx => Option.some.inj hx ▸ h c List.mem_cons_self

theorem StartsBlank.append {text tail : List Char} (h : StartsBlank text)
    (htail : StartsBlank tail) : StartsBlank (text ++ tail) := by
  cases text with
  | nil => exact htail
  | cons c text => exact fun x hx => h x hx

theorem mem_head?_of_front {front text : List Char} (h : front <+: text) {c : Char}
    (hc : c ∈ front.head?) : c ∈ text.head? := by
  obtain ⟨rest, rfl⟩ := h
  cases front with
  | nil => cases hc
  | cons x front => exact hc

theorem startsSolid_trimStart (text : List Char) : StartsSolid (trimStart text) := by
  intro c hc
  have := List.head?_dropWhile_not isBlank text
  unfold trimStart at hc
  rw [Option.mem_def] at hc
  rw [hc] at this
  exact this

theorem trimStart_of_startsSolid {text : List Char} (h : StartsSolid text) :
    trimStart text = text := by
  cases text with
  | nil => rfl
  | cons c rest => exact List.dropWhile_cons_of_neg (by simp [h c rfl])

theorem trimStart_append {front : List Char} (h : AllBlank front) (rest : List Char) :
    trimStart (front ++ rest) = trimStart rest :=
  List.dropWhile_append_of_pos h

/-- Trimming takes the run of blanks in front of a text. -/
theorem trimStart_eq_iff {text body : List Char} :
    trimStart text = body ↔ ∃ front, text = front ++ body ∧ AllBlank front ∧ StartsSolid body := by
  constructor
  · rintro rfl
    refine ⟨text.takeWhile isBlank, List.takeWhile_append_dropWhile.symm, ?_,
      startsSolid_trimStart text⟩
    exact fun c hc => List.mem_takeWhile_imp hc
  · rintro ⟨front, rfl, hfront, hbody⟩
    rw [trimStart_append hfront, trimStart_of_startsSolid hbody]

/-- A text without blanks that is not empty. -/
def IsWord (text : List Char) : Prop :=
  text ≠ [] ∧ ∀ c ∈ text, isBlank c = false

instance : DecidablePred IsWord := fun text =>
  inferInstanceAs (Decidable (text ≠ [] ∧ ∀ c ∈ text, isBlank c = false))

theorem IsWord.append {s t : List Char} (hs : IsWord s) (ht : IsWord t) : IsWord (s ++ t) :=
  ⟨by simp [hs.1], fun c hc => (List.mem_append.mp hc).elim (hs.2 c) (ht.2 c)⟩

theorem IsWord.startsSolid {word : List Char} (h : IsWord word) (rest : List Char) :
    StartsSolid (word ++ rest) := by
  obtain ⟨c, word, rfl⟩ := List.exists_cons_of_ne_nil h.1
  exact fun x hx => Option.some.inj hx ▸ h.2 c List.mem_cons_self

theorem trimStart_of_isWord {word : List Char} (h : IsWord word) : trimStart word = word := by
  have := trimStart_of_startsSolid (h.startsSolid [])
  rwa [List.append_nil] at this

theorem trimEnd_append {word : List Char} (h : IsWord word) (front : List Char) :
    trimEnd (front ++ word) = front ++ word := by
  have hreverse : StartsSolid (word.reverse ++ front.reverse) := by
    refine IsWord.startsSolid ⟨by simpa using h.1, fun c hc => h.2 c ?_⟩ _
    exact List.mem_reverse.mp hc
  have htrim := trimStart_of_startsSolid hreverse
  unfold trimEnd
  rw [List.reverse_append]
  unfold trimStart at htrim
  rw [htrim, ← List.reverse_append, List.reverse_reverse]

theorem trimEnd_of_isWord {word : List Char} (h : IsWord word) : trimEnd word = word :=
  trimEnd_append h []

theorem prefix_trimEnd (text : List Char) : trimEnd text <+: text := by
  have h := List.dropWhile_suffix isBlank (l := text.reverse)
  rw [← List.reverse_prefix, List.reverse_reverse] at h
  exact h

theorem startsSolid_trim (text : List Char) : StartsSolid (trim text) :=
  fun c hc => startsSolid_trimStart text c (mem_head?_of_front (prefix_trimEnd _) hc)

theorem trimEnd_eq_nil_iff {text : List Char} : trimEnd text = [] ↔ AllBlank text := by
  unfold trimEnd AllBlank
  rw [List.reverse_eq_nil_iff, List.dropWhile_eq_nil_iff]
  simp only [List.mem_reverse]

/-- Nothing is left of a text exactly if it is nothing but blanks. -/
theorem trim_eq_nil_iff {text : List Char} : trim text = [] ↔ AllBlank text := by
  unfold trim
  rw [trimEnd_eq_nil_iff]
  obtain ⟨front, htext, hfront, -⟩ := trimStart_eq_iff.mp (rfl : trimStart text = _)
  constructor
  · intro h c hc
    rw [htext] at hc
    exact (List.mem_append.mp hc).elim (hfront c) (h c)
  · exact fun h c hc => h c (by rw [htext]; exact List.mem_append_right front hc)

theorem trimEnd_trimEnd (text : List Char) : trimEnd (trimEnd text) = trimEnd text := by
  have h := trimStart_of_startsSolid (startsSolid_trimStart text.reverse)
  unfold trimStart at h
  unfold trimEnd
  rw [List.reverse_reverse, h]

/-- What goes on after a text that has no blanks at its end is trimmed on its own. -/
theorem trimEnd_append_eq {text : List Char} (h : trimEnd text = text) (rest : List Char) :
    trimEnd (text ++ rest) = text ++ trimEnd rest := by
  have hreverse : text.reverse.dropWhile isBlank = text.reverse := by
    rw [← List.reverse_reverse (text.reverse.dropWhile isBlank)]
    exact congrArg List.reverse h
  unfold trimEnd
  rw [List.reverse_append, List.dropWhile_append, hreverse]
  split
  · rename_i hnil
    rw [List.isEmpty_iff.mp hnil, List.reverse_reverse, List.reverse_nil, List.append_nil]
  · rw [List.reverse_append, List.reverse_reverse]

theorem trimEnd_trim (text : List Char) : trimEnd (trim text) = trim text :=
  trimEnd_trimEnd (trimStart text)

/-- A line is the blanks that are trimmed and what is left between them. -/
theorem exists_eq_append_trim (line : List Char) :
    ∃ front back, line = front ++ (trim line ++ back) ∧ AllBlank front ∧ AllBlank back := by
  obtain ⟨front, hline, hfront, -⟩ := trimStart_eq_iff.mp (rfl : trimStart line = _)
  obtain ⟨back, hback⟩ := prefix_trimEnd (trimStart line)
  refine ⟨front, back, ?_, hfront, ?_⟩
  · exact hline.trans (congrArg (front ++ ·) hback.symm)
  · have hcut := trimEnd_append_eq (trimEnd_trim line) back
    unfold trim at hcut
    rw [hback] at hcut
    exact trimEnd_eq_nil_iff.mp (List.append_right_eq_self.mp hcut.symm)

/-- A text from one word to another is not trimmed. -/
theorem trim_eq_self {first last : List Char} (hfirst : IsWord first) (hlast : IsWord last)
    (between : List Char) : trim (first ++ between ++ last) = first ++ between ++ last := by
  unfold trim
  rw [List.append_assoc, trimStart_of_startsSolid (hfirst.startsSolid _), ← List.append_assoc,
    trimEnd_append hlast]

/-- Blanks at the end of a word are trimmed. -/
theorem trim_append_of_allBlank {word blanks : List Char} (h : IsWord word)
    (hblanks : AllBlank blanks) : trim (word ++ blanks) = word := by
  unfold trim
  rw [trimStart_of_startsSolid (h.startsSolid blanks), trimEnd_append_eq (trimEnd_of_isWord h),
    trimEnd_eq_nil_iff.mpr hblanks, List.append_nil]

theorem splitAtBlank?_eq_none_iff {text : List Char} :
    splitAtBlank? text = none ↔ ∀ c ∈ text, isBlank c = false := by
  have hdrop : splitAtBlank? text = none ↔ text.dropWhile (!isBlank ·) = [] := by
    unfold splitAtBlank?
    split <;> simp_all
  rw [hdrop, List.dropWhile_eq_nil_iff]
  simp only [Bool.not_eq_true']

/-- A text is cut behind the characters before its first blank. -/
theorem splitAtBlank?_eq_some_iff {text word rest : List Char} :
    splitAtBlank? text = some (word, rest) ↔
      ∃ blank, text = word ++ blank :: rest ∧ (∀ c ∈ word, isBlank c = false) ∧
        isBlank blank = true := by
  constructor
  · intro h
    have hcut := List.takeWhile_append_dropWhile (p := (!isBlank ·)) (l := text)
    have hhead := List.head?_dropWhile_not (!isBlank ·) text
    have hword : ∀ c ∈ text.takeWhile (!isBlank ·), isBlank c = false :=
      fun c hc => by simpa using List.mem_takeWhile_imp hc
    unfold splitAtBlank? at h
    split at h
    · cases h
    · rename_i blank tail hdrop
      obtain ⟨rfl, rfl⟩ := Prod.mk.inj (Option.some.inj h)
      rw [hdrop] at hcut hhead
      exact ⟨blank, hcut.symm, hword, by simpa using hhead⟩
  · rintro ⟨blank, rfl, hword, hblank⟩
    have hall : ∀ c ∈ word, (!isBlank c) = true := fun c hc => by rw [hword c hc]; rfl
    unfold splitAtBlank?
    rw [List.dropWhile_append_of_pos hall, List.takeWhile_append_of_pos hall,
      List.dropWhile_cons_of_neg (by simp [hblank]), List.takeWhile_cons_of_neg (by simp [hblank]),
      List.append_nil]

theorem splitAtBlank?_of_isWord {word : List Char} (h : IsWord word) :
    splitAtBlank? word = none :=
  splitAtBlank?_eq_none_iff.mpr h.2

theorem splitAtBlank?_append {word : List Char} (h : IsWord word) {blank : Char}
    (hblank : isBlank blank = true) (rest : List Char) :
    splitAtBlank? (word ++ blank :: rest) = some (word, rest) :=
  splitAtBlank?_eq_some_iff.mpr ⟨blank, rfl, h.2, hblank⟩

theorem words_of_isWord {word : List Char} (h : IsWord word) : words word = [word] := by
  unfold words
  rw [pieces_eq_singleton isBlank h.2]
  simp [h.1]

theorem words_append {word : List Char} (h : IsWord word) {blank : Char}
    (hblank : isBlank blank = true) (rest : List Char) :
    words (word ++ blank :: rest) = word :: words rest := by
  unfold words
  rw [pieces_append_separator isBlank h.2 hblank, List.filter_cons_of_pos (by simp [h.1])]

theorem words_cons_blank {blank : Char} (hblank : isBlank blank = true) (rest : List Char) :
    words (blank :: rest) = words rest := by
  unfold words
  rw [pieces, if_pos hblank, List.filter_cons_of_neg (by simp)]

theorem countP_isBlank_eq_zero {text : List Char} (h : ∀ c ∈ text, isBlank c = false) :
    text.countP isBlank = 0 :=
  List.countP_eq_zero.mpr fun c hc => by simp [h c hc]

/-- Words are at most one more than blanks. -/
theorem length_words_le (text : List Char) :
    (words text).length ≤ text.countP isBlank + 1 := by
  rw [← length_pieces isBlank text]
  exact List.length_filter_le _ _

end WeightedTransducer.Text
