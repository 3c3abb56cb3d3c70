import WeightedTransducer.Codex.Encoding
import WeightedTransducer.Codex.Text
import WeightedTransducer.Storage.Basic

/-!
# Codices in storage

`Codex.load` and `Codex.save` keep a codex in a storage.  `Machine.encodeWith` encodes a machine
with a codex kept under a path, either a stored one or a fresh one that is stored afterwards, and
`Machine.decodeWith` decodes it again.
-/

namespace WeightedTransducer

variable {W σ : Type} [Weight W] [Storage σ]

namespace Codex

/-- Reads a codex from a file. -/
def load (storage : σ) (path : String) (delimiters : Delimiters) :
    Traced (Except CodexError (Codex W)) :=
  match Storage.load storage path with
  | .error failure => pure (.error (.storage failure))
  | .ok contents => read delimiters contents

/-- Writes a codex to a file. -/
def save (storage : σ) (path : String) (delimiters : Delimiters) (codex : Codex W) :
    Except CodexError Unit × σ :=
  let (result, storage) := Storage.save storage path (codex.bytes delimiters)
  (result.mapError .storage, storage)

end Codex

namespace Machine

/-- The codex that a machine is to be encoded with: the stored one, whose own flags count, or a
fresh one. -/
def codexFor (storage : σ) (flags : Flags) (reuse : Bool) (path : String)
    (delimiters : Delimiters) : Traced (Except CodexError (Codex W)) :=
  if reuse then do
    match ← Codex.load storage path delimiters with
    | .error e => pure (.error e)
    | .ok codex =>
      if codex.flags ≠ flags then
        Traced.report (.reusingFlags flags.number codex.flags.number)
      pure (.ok codex)
  else pure (.ok (.empty flags))

/-- The state of a machine and of the storage after encoding, with the codex if all went well. -/
structure EncodeResult (W σ : Type) where
  /-- The codex that the machine was encoded with. -/
  codex : Except CodexError (Codex W)
  /-- The machine afterwards. -/
  machine : Machine W
  /-- The storage afterwards. -/
  storage : σ

/-- Encodes a machine with a codex kept under a path.  A stored codex is left as it is; a fresh one
is stored after the machine has been encoded. -/
def encodeWith (m : Machine W) (storage : σ) (flags : Flags) (reuse : Bool) (path : String)
    (delimiters : Delimiters) : Traced (EncodeResult W σ) := do
  match ← codexFor storage flags reuse path delimiters with
  | .error e => pure ⟨.error e, m, storage⟩
  | .ok codex => do
    let (encoded, grown) ← m.encode codex
    if reuse then pure ⟨.ok grown, encoded, storage⟩
    else
      let (result, storage) := grown.save storage path delimiters
      pure ⟨result.map fun _ => grown, encoded, storage⟩

/-- Decodes a machine with a codex kept under a path. -/
def decodeWith (m : Machine W) (storage : σ) (path : String) (delimiters : Delimiters) :
    Traced (Except CodexError (Machine W)) := do
  match ← Codex.load storage path delimiters with
  | .error e => pure (.error e)
  | .ok codex => m.decode codex

end Machine
end WeightedTransducer
