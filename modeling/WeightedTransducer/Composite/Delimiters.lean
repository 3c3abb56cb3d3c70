import WeightedTransducer.Text.Blank
import WeightedTransducer.Text.Quoted
import WeightedTransducer.Text.Utf8

/-!
# Delimiters of composite text

The text of a composite value puts a separator between its elements and, where they are
configured, a pair of parentheses around them.  `Delimiters.validate` accepts those that a reader
can tell apart from each other and from white space; `Delimiters.ofTexts` and
`Delimiters.ofEnvironment` build them from their textual forms.
-/

namespace WeightedTransducer

/-- The characters that delimit the text of a composite value. -/
structure Delimiters where
  /-- Stands between elements. -/
  separator : Char := ','
  /-- The opening and the closing parenthesis, if there are parentheses. -/
  parentheses : Option (Char × Char) := none
  deriving DecidableEq, Repr, Inhabited

namespace Delimiters

/-- Why delimiters cannot be told apart. -/
inductive Conflict where
  /-- The separator is white space. -/
  | blankSeparator
  /-- A parenthesis is white space. -/
  | blankParenthesis
  /-- The two parentheses are the same character. -/
  | equalParentheses (both : Char)
  /-- The separator is also a parenthesis. -/
  | separatorIsParenthesis (separator : Char)
  deriving DecidableEq, Repr

/-- The words for a conflict. -/
def Conflict.message : Conflict → String
  | blankSeparator => "conflicting composite configuration: separator must not be whitespace"
  | blankParenthesis => "conflicting composite configuration: parentheses must not be whitespace"
  | equalParentheses both =>
    "conflicting composite configuration: open and close parenthesis are both "
      ++ Text.quotedChar both
  | separatorIsParenthesis separator =>
    "conflicting composite configuration: separator " ++ Text.quotedChar separator
      ++ " is also a parenthesis"

/-- Why delimiters cannot be built from texts. -/
inductive Error where
  /-- The separator is not exactly one character. -/
  | separatorLength (text : String)
  /-- The parentheses are neither none nor two characters. -/
  | parenthesesLength (text : String)
  /-- The characters cannot be told apart. -/
  | conflict (conflict : Conflict)
  deriving DecidableEq, Repr

/-- The words for an error. -/
def Error.message : Error → String
  | separatorLength text =>
    "invalid weight separator " ++ Text.quoted text ++ ": expected exactly one character"
  | parenthesesLength text =>
    "invalid weight parentheses " ++ Text.quoted text ++ ": expected zero or two characters"
  | conflict c => c.message

/-- The opening parenthesis. -/
def opening (d : Delimiters) : Option Char :=
  d.parentheses.map Prod.fst

/-- The closing parenthesis. -/
def closing (d : Delimiters) : Option Char :=
  d.parentheses.map Prod.snd

/-- The first reason why the delimiters cannot be told apart, if there is one. -/
def conflict? (d : Delimiters) : Option Conflict :=
  if Text.isBlank d.separator then some .blankSeparator
  else match d.parentheses with
    | none => none
    | some (left, right) =>
      if Text.isBlank left || Text.isBlank right then some .blankParenthesis
      else if left = right then some (.equalParentheses left)
      else if d.separator = left || d.separator = right then
        some (.separatorIsParenthesis d.separator)
      else none

/-- Accepts delimiters that can be told apart. -/
def validate (d : Delimiters) : Except Conflict Unit :=
  match d.conflict? with
  | some c => .error c
  | none => .ok ()

/-- Builds delimiters from a text of one character and a text of no or two characters. -/
def ofTexts (separator parentheses : String) : Except Error Delimiters :=
  match separator.toList with
  | [between] =>
    match parentheses.toList with
    | [] => check ⟨between, none⟩
    | [left, right] => check ⟨between, some (left, right)⟩
    | _ => .error (.parenthesesLength parentheses)
  | _ => .error (.separatorLength separator)
where
  /-- Passes delimiters on that can be told apart. -/
  check (d : Delimiters) : Except Error Delimiters :=
    match d.conflict? with
    | some c => .error (.conflict c)
    | none => .ok d

/-- The environment variable that holds the separator. -/
def separatorVariable : String := "WFST_WEIGHT_SEPARATOR"

/-- The environment variable that holds the parentheses. -/
def parenthesesVariable : String := "WFST_WEIGHT_PARENTHESES"

/-- Builds delimiters from the environment; a variable that is unset, or is not text, counts as
the default. -/
def ofEnvironment (lookup : String → Option Bytes) : Except Error Delimiters :=
  let text (name default : String) : String :=
    (((lookup name).bind Utf8.decode?).map String.ofList).getD default
  ofTexts (text separatorVariable ",") (text parenthesesVariable "")

end Delimiters
end WeightedTransducer
