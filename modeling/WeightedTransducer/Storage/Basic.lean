import WeightedTransducer.Text.Utf8

/-!
# Storage

A `Storage` holds files and may fail at any point; what a failed save leaves behind is its own
affair.  `StorageFailure` lists why a file cannot be read or written.
-/

namespace WeightedTransducer

/-- Why a file cannot be read or written. -/
inductive StorageFailure where
  /-- There is no such file, or no directory to put it in. -/
  | notFound
  /-- A step of the path before the last leads to a file. -/
  | notDirectory
  /-- The path leads to a directory. -/
  | isDirectory
  /-- A name of the path is too long. -/
  | nameTooLong
  /-- The path holds the null character. -/
  | nullInPath
  /-- A line of the file is not UTF-8. -/
  | notText
  /-- There is no room for more. -/
  | full
  deriving DecidableEq, Repr

/-- The words for a failure. -/
def StorageFailure.message : StorageFailure → String
  | notFound => "No such file or directory (os error 2)"
  | notDirectory => "Not a directory (os error 20)"
  | isDirectory => "Is a directory (os error 21)"
  | nameTooLong => "File name too long (os error 36)"
  | nullInPath => "file name contained an unexpected NUL byte"
  | notText => "stream did not contain valid UTF-8"
  | full => "sink full"

/-- A place for files. -/
class Storage (σ : Type) where
  /-- The contents of a file. -/
  load : σ → String → Except StorageFailure Bytes
  /-- Writes a file, replacing what it held. -/
  save : σ → String → Bytes → Except StorageFailure Unit × σ

/-- What a stream that has room for so many bytes keeps of some, and whether it keeps all. -/
def Bytes.within (room : Option Nat) (contents : Bytes) : Bytes × Except StorageFailure Unit :=
  match room with
  | none => (contents, .ok ())
  | some room =>
    (contents.take room, if contents.length ≤ room then .ok () else .error .full)

end WeightedTransducer
