import Mathlib.Data.List.Infix
import WeightedTransducer.Text.Utf8

/-!
# Fronts of encoded texts

The bytes of one text stand in front of the bytes of another only if its characters do
(`Utf8.encode_prefix_iff`), because the first character is known from the first bytes.  Bytes that
were cut off inside a character have no text, so what is read of the front of an encoded text is a
front of the text (`Utf8.prefix_of_decode?_eq_some`).
-/

namespace WeightedTransducer

/-- A front of two lists one after the other ends in the first or goes into the second. -/
theorem prefix_append_cases {α : Type} {front xs ys : List α} (h : front <+: xs ++ ys) :
    front <+: xs ∨ ∃ more, front = xs ++ more ∧ more <+: ys := by
  obtain ⟨back, hback⟩ := h
  rcases List.append_eq_append_iff.mp hback with ⟨rest, hxs, -⟩ | ⟨more, hfront, hys⟩
  · exact Or.inl ⟨rest, hxs.symm⟩
  · exact Or.inr ⟨more, hfront, back, hys.symm⟩

namespace Utf8

theorem encode_cons (c : Char) (text : List Char) :
    encode (c :: text) = String.utf8EncodeChar c ++ encode text :=
  List.flatMap_cons

theorem encode_eq_nil_iff {text : List Char} : encode text = [] ↔ text = [] := by
  constructor
  · intro h
    have hdecode := decode?_encode text
    rw [h] at hdecode
    exact Option.some.inj (hdecode.symm.trans (decode?_encode []))
  · rintro rfl
    rfl

/-- Bytes that have a text are the bytes of that text. -/
theorem encode_of_decode?_eq_some {bytes : Bytes} {text : List Char}
    (h : decode? bytes = some text) : encode text = bytes := by
  unfold decode? String.fromUTF8? at h
  split at h
  · rename_i hvalid
    obtain rfl : (String.fromUTF8 bytes.toByteArray hvalid).toList = text := Option.some.inj h
    rw [← List.toByteArray_inj]
    have hencode (s : String) : (encode s.toList).toByteArray = s.toByteArray := by
      conv_rhs => rw [← String.ofList_toList (s := s), String.toByteArray_ofList]
      rfl
    exact hencode _
  · cases h

/-- The first character is known from the first bytes. -/
theorem eq_of_encodeChar_append {c x : Char} {s t : Bytes}
    (h : String.utf8EncodeChar c ++ s = String.utf8EncodeChar x ++ t) : c = x := by
  have hdecode (y : Char) (rest : Bytes) :
      (String.utf8EncodeChar y ++ rest).toByteArray.utf8DecodeChar? 0 = some y := by
    rw [List.toByteArray_append]
    exact ByteArray.utf8DecodeChar?_utf8EncodeChar_append
  exact Option.some.inj ((hdecode c s).symm.trans (h ▸ hdecode x t))

/-- One text stands in front of another if its bytes do. -/
theorem encode_prefix_iff {s t : List Char} : encode s <+: encode t ↔ s <+: t := by
  constructor
  · intro h
    induction s generalizing t with
    | nil => exact List.nil_prefix
    | cons c s ih =>
      cases t with
      | nil =>
        have hnil : encode (c :: s) = [] := List.prefix_nil.mp h
        cases encode_eq_nil_iff.mp hnil
      | cons x t =>
        rw [encode_cons, encode_cons] at h
        obtain ⟨back, hback⟩ := h
        rw [List.append_assoc] at hback
        -- the first characters are the same, so their bytes can be taken off
        obtain rfl := eq_of_encodeChar_append hback
        have hrest : encode s <+: encode t := ⟨back, List.append_cancel_left hback⟩
        exact List.cons_prefix_cons.mpr ⟨rfl, ih hrest⟩
  · rintro ⟨back, rfl⟩
    exact ⟨encode back, (encode_append s back).symm⟩

/-- What is read of the front of an encoded text is a front of the text. -/
theorem prefix_of_decode?_eq_some {front : Bytes} {text read : List Char}
    (h : decode? front = some read) (hfront : front <+: encode text) : read <+: text := by
  rw [← encode_of_decode?_eq_some h] at hfront
  exact encode_prefix_iff.mp hfront

end Utf8
end WeightedTransducer
