import WeightedTransducer.Composite.Delimiters

/-!
# Errors of reading a value's text

`ReadError` lists the reasons why the text of an element, or of a composite value, is refused, and
`ReadError.message` puts them into words.
-/

namespace WeightedTransducer

/-- Why a text is not the text of a value. -/
inductive ReadError where
  /-- The delimiters cannot be told apart, so nothing can be read with them. -/
  | delimiters (conflict : Delimiters.Conflict)
  /-- The value does not start with the opening parenthesis. -/
  | missingOpening (expected : Char) (found : Option Char)
  /-- The value does not end with the closing parenthesis. -/
  | missingClosing (expected : Char)
  /-- A closing parenthesis closes nothing. -/
  | unmatchedClosing (found : Char)
  /-- An element has no characters. -/
  | emptyElement
  /-- Something other than white space follows the value. -/
  | excess (found : Char)
  /-- The text of an element is not the text of a value of its type. -/
  | element (text expected : String)
  /-- An earlier step has failed. -/
  | afterFailure
  deriving DecidableEq, Repr

namespace ReadError

/-- The words for a character that may be missing. -/
def foundText : Option Char → String
  | none => "None"
  | some c => "Some(" ++ Text.quotedChar c ++ ")"

/-- The words for an error. -/
def message : ReadError → String
  | delimiters conflict => conflict.message
  | missingOpening expected found =>
    "open parenthesis " ++ Text.quotedChar expected ++ " missing, found " ++ foundText found
  | missingClosing expected => "close parenthesis " ++ Text.quotedChar expected ++ " missing"
  | unmatchedClosing found => "unmatched close parenthesis " ++ Text.quotedChar found
  | emptyElement => "empty element"
  | excess found => "excess character " ++ Text.quotedChar found ++ " after composite weight"
  | element text expected => "cannot parse " ++ Text.quoted text ++ " as " ++ expected
  | afterFailure => "input stream is invalid after an earlier parse error"

end ReadError
end WeightedTransducer
