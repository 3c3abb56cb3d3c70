/-!
# Texts as bytes

`encode` writes the characters of a text as UTF-8 and `decode?` reads them back; bytes that are not
UTF-8 have no text.  `decode?_encode` says that nothing is lost.
-/

namespace WeightedTransducer

/-- The contents of a file or stream. -/
abbrev Bytes := List UInt8

namespace Utf8

/-- The bytes of a text. -/
def encode (text : List Char) : Bytes :=
  text.flatMap String.utf8EncodeChar

/-- The text that some bytes encode, if they are well formed. -/
def decode? (bytes : Bytes) : Option (List Char) :=
  (String.fromUTF8? bytes.toByteArray).map String.toList

theorem encode_append (s t : List Char) : encode (s ++ t) = encode s ++ encode t :=
  List.flatMap_append

/-- What was written is read back. -/
theorem decode?_encode (text : List Char) : decode? (encode text) = some text := by
  have h : (encode text).toByteArray = (String.ofList text).toByteArray := by
    simp [encode, List.utf8Encode]
  have hv : (encode text).toByteArray.IsValidUTF8 := by
    rw [h]
    exact (String.ofList text).isValidUTF8
  unfold decode? String.fromUTF8?
  rw [dif_pos hv]
  have hs : String.fromUTF8 _ hv = String.ofList text := String.toByteArray_inj.1 h
  rw [Option.map_some, hs, String.toList_ofList]

end Utf8
end WeightedTransducer
