import WeightedTransducer.Text.Unprintable

/-!
# Quoted characters and texts

How messages show a character or a text: between quotes, with a backslash before the quote and the
backslash, short names for the common controls, and the code point in braces for every other
character that shows nothing of its own.
-/

namespace WeightedTransducer.Text

/-- A character inside the given quotes. -/
def escape (quote c : Char) : List Char :=
  if c = '\x00' then ['\\', '0']
  else if c = '\t' then ['\\', 't']
  else if c = '\r' then ['\\', 'r']
  else if c = '\n' then ['\\', 'n']
  else if c = '\\' || c = quote then ['\\', c]
  else if isUnprintable c then
    ['\\', 'u', '\x7b'] ++ Nat.toDigits 16 c.toNat ++ ['\x7d']
  else [c]

/-- A text between double quotes. -/
def quoted (text : String) : String :=
  String.ofList ('"' :: (text.toList.flatMap (escape '"') ++ ['"']))

/-- A character between single quotes. -/
def quotedChar (c : Char) : String :=
  String.ofList ('\'' :: (escape '\'' c ++ ['\'']))

end WeightedTransducer.Text
