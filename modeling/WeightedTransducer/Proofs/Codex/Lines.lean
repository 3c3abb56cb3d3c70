import WeightedTransducer.Codex.Text
import WeightedTransducer.Proofs.Text.Utf8

/-!
# Lines of bytes

A line feed is one byte, and no other character has that byte, so lines that were written one after
another are found again as they were (`Codex.lines_encode`).  Where the bytes were cut short, all
lines before the cut are found, and then what is left of the line with the cut
(`Codex.exists_cut_of_prefix`, `Codex.exists_left_of_cut`).
-/

namespace WeightedTransducer

theorem UInt8.eq_of_ofNat_eq_ten {n : Nat} (hn : n < 256) (h : UInt8.ofNat n = 10) : n = 10 := by
  have := congrArg UInt8.toNat h
  rw [UInt8.toNat_ofNat_of_lt' hn] at this
  exact this

namespace Utf8

/-- Only the line feed has the byte of the line feed. -/
theorem eq_of_ten_mem_encodeChar {c : Char} (h : (10 : UInt8) ∈ String.utf8EncodeChar c) :
    c = '\n' := by
  have hsmall {n : Nat} (hlow : 128 ≤ n) (hn : n < 256) : (10 : UInt8) ≠ UInt8.ofNat n := by
    intro heq
    have := UInt8.eq_of_ofNat_eq_ten hn heq.symm
    omega
  unfold String.utf8EncodeChar at h
  dsimp only at h
  split at h
  · have hcode : c.val.toNat = 10 :=
      UInt8.eq_of_ofNat_eq_ten (by omega) (List.mem_singleton.mp h).symm
    exact Char.ext (UInt32.toNat_inj.mp hcode)
  · split at h
    · simp only [List.mem_cons, List.not_mem_nil, or_false] at h
      rcases h with h | h <;> exact absurd h (hsmall (by omega) (by omega))
    · split at h
      · simp only [List.mem_cons, List.not_mem_nil, or_false] at h
        rcases h with h | h | h <;> exact absurd h (hsmall (by omega) (by omega))
      · simp only [List.mem_cons, List.not_mem_nil, or_false] at h
        rcases h with h | h | h | h <;> exact absurd h (hsmall (by omega) (by omega))

theorem ten_not_mem_encode {text : List Char} (h : '\n' ∉ text) :
    ∀ byte ∈ encode text, (byte == 10) = false := by
  intro byte hbyte
  obtain ⟨c, hc, hmem⟩ := List.mem_flatMap.mp hbyte
  rw [beq_eq_false_iff_ne]
  rintro rfl
  exact h (eq_of_ten_mem_encodeChar hmem ▸ hc)

end Utf8

namespace Codex

/-- Some texts as lines, each with a line feed at its end. -/
def unlines (texts : List (List Char)) : List Char :=
  texts.flatMap (· ++ ['\n'])

theorem encode_unlines_cons (text : List Char) (texts : List (List Char)) :
    Utf8.encode (unlines (text :: texts)) =
      Utf8.encode text ++ 10 :: Utf8.encode (unlines texts) := by
  unfold unlines
  rw [List.flatMap_cons, List.append_assoc, Utf8.encode_append]
  rfl

theorem encode_unlines_concat (texts : List (List Char)) (text : List Char) :
    Utf8.encode (unlines (texts ++ [text])) =
      Utf8.encode (unlines texts) ++ Utf8.encode text ++ [10] := by
  unfold unlines
  rw [List.flatMap_append, Utf8.encode_append, List.append_assoc, List.flatMap_singleton,
    Utf8.encode_append text]
  rfl

/-- Lines that were written, and something after them that is no complete line. -/
theorem pieces_encode_unlines_append {texts : List (List Char)} (h : ∀ t ∈ texts, '\n' ∉ t)
    {part : Bytes} (hpart : ∀ byte ∈ part, (byte == 10) = false) :
    pieces (· == 10) (Utf8.encode (unlines texts) ++ part) = texts.map Utf8.encode ++ [part] := by
  induction texts with
  | nil => exact pieces_eq_singleton _ hpart
  | cons text texts ih =>
    rw [List.forall_mem_cons] at h
    rw [encode_unlines_cons, List.append_assoc, List.cons_append,
      pieces_append_separator _ (Utf8.ten_not_mem_encode h.1) rfl, ih h.2]
    rfl

/-- Lines that were written are found again. -/
theorem lines_encode {texts : List (List Char)} (h : ∀ t ∈ texts, '\n' ∉ t) :
    lines (Utf8.encode (unlines texts)) = texts.map Utf8.encode := by
  have hnothing : ∀ byte ∈ ([] : Bytes), (byte == 10) = false := nofun
  have hpieces := pieces_encode_unlines_append h hnothing
  rw [List.append_nil] at hpieces
  unfold lines
  dsimp only
  rw [hpieces, List.getLast?_concat, if_pos rfl, List.dropLast_concat]

/-- What stands after the last line feed is a line too. -/
theorem lines_encode_append {texts : List (List Char)} (h : ∀ t ∈ texts, '\n' ∉ t)
    {part : Bytes} (hpart : ∀ byte ∈ part, (byte == 10) = false) (hne : part ≠ []) :
    lines (Utf8.encode (unlines texts) ++ part) = texts.map Utf8.encode ++ [part] := by
  unfold lines
  dsimp only
  rw [pieces_encode_unlines_append h hpart, List.getLast?_concat, if_neg]
  intro hlast
  exact hne (Option.some.inj hlast)

/-- Of a line that was cut, what is left is found after all others, if anything is. -/
theorem exists_left_of_cut {texts : List (List Char)} (h : ∀ t ∈ texts, '\n' ∉ t) {part : Bytes}
    (hpart : ∀ byte ∈ part, (byte == 10) = false) :
    ∃ left, lines (Utf8.encode (unlines texts) ++ part) = texts.map Utf8.encode ++ left ∧
      (left = [] ∨ left = [part] ∧ part ≠ []) := by
  by_cases hnil : part = []
  · rw [hnil, List.append_nil, lines_encode h]
    exact ⟨[], (List.append_nil _).symm, Or.inl rfl⟩
  · exact ⟨[part], lines_encode_append h hpart hnil, Or.inr ⟨rfl, hnil⟩⟩

/-- The line feed of the last line does not matter. -/
theorem lines_of_missing_line_feed {texts : List (List Char)} (h : ∀ t ∈ texts, '\n' ∉ t)
    (hne : ∀ t ∈ texts, t ≠ []) {cut : Bytes} (hcut : Utf8.encode (unlines texts) = cut ++ [10]) :
    lines cut = texts.map Utf8.encode := by
  rcases List.eq_nil_or_concat' texts with rfl | ⟨front, last, rfl⟩
  · cases (List.append_eq_nil_iff.mp hcut.symm).2
  · rw [encode_unlines_concat] at hcut
    obtain rfl := List.append_cancel_right hcut
    have hmem : last ∈ front ++ [last] := by simp
    have hlast : Utf8.encode last ≠ [] := by
      intro hnil
      exact hne last hmem (Utf8.encode_eq_nil_iff.mp hnil)
    rw [lines_encode_append (fun t ht => h t (List.mem_append_left _ ht))
      (Utf8.ten_not_mem_encode (h last hmem)) hlast, List.map_append]
    rfl

/-- Bytes that were cut short were cut in a line, or between it and its line feed. -/
theorem exists_cut_of_prefix {texts : List (List Char)} {cut : Bytes}
    (h : cut <+: Utf8.encode (unlines texts)) (hne : cut ≠ Utf8.encode (unlines texts)) :
    ∃ front text back part, texts = front ++ text :: back ∧
      cut = Utf8.encode (unlines front) ++ part ∧ part <+: Utf8.encode text := by
  induction texts generalizing cut with
  | nil => exact absurd (List.prefix_nil.mp h) hne
  | cons text texts ih =>
    rw [encode_unlines_cons] at h hne
    -- the cut is in the first line, directly before its line feed, or behind it
    rcases prefix_append_cases h with hpart | ⟨more, rfl, hmore⟩
    · exact ⟨[], text, texts, cut, rfl, rfl, hpart⟩
    · cases more with
      | nil =>
        rw [List.append_nil]
        exact ⟨[], text, texts, Utf8.encode text, rfl, rfl, List.prefix_refl _⟩
      | cons byte more =>
        obtain ⟨rfl, hrest⟩ := List.cons_prefix_cons.mp hmore
        have hproper : more ≠ Utf8.encode (unlines texts) := by
          rintro rfl
          exact hne rfl
        obtain ⟨front, last, back, part, rfl, rfl, hpart⟩ := ih hrest hproper
        refine ⟨text :: front, last, back, part, rfl, ?_, hpart⟩
        rw [encode_unlines_cons, List.append_assoc, List.cons_append]

end Codex
end WeightedTransducer
