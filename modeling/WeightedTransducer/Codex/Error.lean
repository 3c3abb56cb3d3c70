import WeightedTransducer.Composite.ReadError
import WeightedTransducer.Machine.Label
import WeightedTransducer.Storage.Basic

/-!
# Errors of encoding and decoding

`CodexError` lists what can go wrong when a machine is decoded or a codex is read or written:
faults of an encoded arc, of the codex text (`CodexFault`, with the number of the line), of the text
of an entry, and of the storage that holds the codex (`StorageFailure`).
-/

namespace WeightedTransducer

/-- What is wrong with a line of a codex. -/
inductive CodexFault where
  /-- There is no first line. -/
  | missingHeader
  /-- The first line does not have four words. -/
  | headerShape
  /-- The first word is not the codex mark. -/
  | badMark (found : String)
  /-- The third word is not the number of a set of flags. -/
  | badFlags (found : String)
  /-- The fourth word is not a number of entries. -/
  | badCount (found : String)
  /-- An entry is not a label and a tuple with a blank between. -/
  | entryShape
  /-- The label of an entry is not the next number. -/
  | wrongLabel (expected : Nat) (found : String)
  /-- An earlier entry has the same tuple. -/
  | duplicate
  /-- The number of entries is not the number in the header. -/
  | wrongCount (declared found : Nat)
  deriving DecidableEq, Repr

/-- The words for a fault. -/
def CodexFault.message : CodexFault → String
  | missingHeader => "missing header"
  | headerShape => "expected `wfst-codex <weight-type> <flags> <count>`"
  | badMark found => "bad magic " ++ Text.quoted found
  | badFlags found => "bad flags " ++ Text.quoted found
  | badCount found => "bad entry count " ++ Text.quoted found
  | entryShape => "expected `<label> <tuple>`"
  | wrongLabel expected found =>
    "expected label " ++ toString expected ++ ", found " ++ Text.quoted found
  | duplicate => "duplicate tuple"
  | wrongCount declared found =>
    "header declares " ++ toString declared ++ " entries, found " ++ toString found

/-- What goes wrong when a machine is encoded or decoded with a codex. -/
inductive CodexError where
  /-- The codex has no entry under a label. -/
  | unknownLabel (label : Label)
  /-- An arc encoded with its output label has two different labels. -/
  | labelMismatch (input output : Label)
  /-- An arc encoded with its weight still has a weight other than one. -/
  | nontrivialWeight (label : Label)
  /-- The codex is for another weight type. -/
  | typeMismatch (expected found : String)
  /-- A line of the codex is malformed. -/
  | malformed (line : Nat) (fault : CodexFault)
  /-- The text of an entry is refused. -/
  | entry (error : ReadError)
  /-- The codex cannot be read or written. -/
  | storage (failure : StorageFailure)
  deriving DecidableEq, Repr

/-- The words for an error. -/
def CodexError.message : CodexError → String
  | unknownLabel label => "label " ++ toString label ++ " is not in the codex"
  | labelMismatch input output =>
    "encoded arc has different labels: " ++ toString input ++ " != " ++ toString output
  | nontrivialWeight label =>
    "encoded arc with label " ++ toString label ++ " carries a non-trivial weight"
  | typeMismatch expected found =>
    "codex weight type mismatch: expected " ++ expected ++ ", found " ++ found
  | malformed line fault => "malformed codex at line " ++ toString line ++ ": " ++ fault.message
  | entry error => error.message
  | storage failure => "codex I/O error: " ++ failure.message

end WeightedTransducer
