import WeightedTransducer.Codex.Error
import WeightedTransducer.Machine.Basic

/-!
# The codex

A `Codex` numbers the combinations of labels and weight that arcs carry: the entry under label 1 is
the first that was seen.  Its `Flags` say which fields of an arc count besides the input label; the
others are replaced by a fixed value, so that arcs that differ only there share an entry.  Entries
are told apart by the weight type's own equality.

The entry under a label is looked up in a list and the label of an entry in a hash table
(`LabelMap`).  An entry is added to both, so the table holds the entries of the list and nothing
else.
-/

namespace WeightedTransducer

/-- Which fields of an arc are encoded besides its input label. -/
structure Flags where
  /-- The output label. -/
  labels : Bool := false
  /-- The weight. -/
  weights : Bool := false
  deriving DecidableEq, Repr, Inhabited

namespace Flags

/-- The number of a set of flags. -/
def number (f : Flags) : Nat :=
  (if f.labels then 1 else 0) + if f.weights then 2 else 0

/-- The set of flags of a number, if it is one. -/
def ofNumber? : Nat → Option Flags
  | 0 => some ⟨false, false⟩
  | 1 => some ⟨true, false⟩
  | 2 => some ⟨false, true⟩
  | 3 => some ⟨true, true⟩
  | _ => none

/-- The flags that one of the sets has. -/
def union (f g : Flags) : Flags := ⟨f.labels || g.labels, f.weights || g.weights⟩

/-- Whether every flag of the second set is in the first. -/
def contains (f g : Flags) : Bool := (!g.labels || f.labels) && (!g.weights || f.weights)

/-- The number of a set of flags leads back to it. -/
theorem ofNumber?_number (f : Flags) : ofNumber? f.number = some f := by
  rcases f with ⟨_ | _, _ | _⟩ <;> rfl

end Flags

/-- The fields of an arc that share a label. -/
structure Entry (W : Type) where
  /-- The label read. -/
  input : Label
  /-- The label written. -/
  output : Label
  /-- The weight. -/
  weight : W
  deriving Repr

namespace Entry
variable {W : Type}

/-- Entries are equal if their labels and weights are. -/
instance [BEq W] : BEq (Entry W) where
  beq a b := a.input == b.input && a.output == b.output && a.weight == b.weight

/-- The words that an entry's hash is made of. -/
def hashWords [Weight W] (e : Entry W) : List UInt32 :=
  e.input :: e.output :: Weight.hashWords e.weight

end Entry

/-! ## The table of labels -/

/-- A hash table that leads from entries to labels. -/
structure LabelMap (W : Type) where
  /-- The entries that are bound, with their labels, in the order in which they were bound. -/
  bindings : List (Entry W × Label) := []
  deriving Repr

namespace LabelMap
variable {W : Type}

/-- The label of an entry.  Only entries with the words that its hash is made of are held against
it, and the first of them that is equal counts. -/
def find? [Weight W] (map : LabelMap W) (entry : Entry W) : Option Label :=
  (map.bindings.find? fun binding =>
    binding.1.hashWords == entry.hashWords && entry == binding.1).map Prod.snd

/-- Binds an entry that is not bound yet. -/
def insert (map : LabelMap W) (entry : Entry W) (label : Label) : LabelMap W where
  bindings := map.bindings ++ [(entry, label)]

end LabelMap

/-- The label of the entry at a position. -/
def Codex.labelAt (position : Nat) : Label :=
  UInt32.ofNat position + 1

/-- The table of a list of entries, which are bound to their labels one after another. -/
def LabelMap.ofEntries {W : Type} (entries : List (Entry W)) : LabelMap W :=
  entries.zipIdx.foldl (fun map numbered => map.insert numbered.1 (Codex.labelAt numbered.2)) {}

/-- One more entry is bound to the next label. -/
theorem LabelMap.ofEntries_concat {W : Type} (entries : List (Entry W)) (entry : Entry W) :
    ofEntries (entries ++ [entry]) =
      (ofEntries entries).insert entry (Codex.labelAt entries.length) := by
  simp [ofEntries, List.zipIdx_append]

/-! ## The codex -/

/-- A numbered list of entries. -/
structure Codex (W : Type) where
  /-- Which fields of an arc count. -/
  flags : Flags
  /-- The entries, the one under label 1 first. -/
  entries : List (Entry W) := []
  /-- The labels of the entries. -/
  table : LabelMap W := LabelMap.ofEntries entries
  /-- The entries of the list are bound to their labels. -/
  table_eq : table = LabelMap.ofEntries entries := by rfl
  deriving Repr

/-- Codices with the same flags and entries are the same. -/
theorem Codex.ext {W : Type} {codex other : Codex W} (hflags : codex.flags = other.flags)
    (hentries : codex.entries = other.entries) : codex = other := by
  obtain ⟨flags, entries, table, htable⟩ := codex
  obtain ⟨flags', entries', table', htable'⟩ := other
  subst htable htable' hflags hentries
  rfl

namespace Codex
variable {W : Type} [Weight W]

/-- The codex without entries. -/
abbrev empty (flags : Flags) : Codex W where
  flags := flags

/-- The entry of an arc's fields, with those that do not count replaced. -/
def key (flags : Flags) (input output : Label) (weight : W) : Entry W where
  input
  output := if flags.labels then output else 0
  weight := if flags.weights then weight else Weight.one

/-- The label of an entry that is in the codex. -/
def find? (codex : Codex W) (entry : Entry W) : Option Label :=
  codex.table.find? entry

/-- The label of an arc's fields, if they have an entry. -/
def lookup? (codex : Codex W) (input output : Label) (weight : W) : Option Label :=
  codex.find? (key codex.flags input output weight)

/-- Adds an entry that is not in the codex under the next label. -/
def push (codex : Codex W) (entry : Entry W) : Codex W where
  flags := codex.flags
  entries := codex.entries ++ [entry]
  table := codex.table.insert entry (labelAt codex.entries.length)
  table_eq := by rw [codex.table_eq, LabelMap.ofEntries_concat]

/-- The label of an arc's fields, and the codex with an entry for them. -/
def encode (codex : Codex W) (input output : Label) (weight : W) : Label × Codex W :=
  let entry := key codex.flags input output weight
  match codex.find? entry with
  | some label => (label, codex)
  | none => (labelAt codex.entries.length, codex.push entry)

/-- The entry under a label; there is none under the empty label. -/
def decode? (codex : Codex W) (label : Label) : Option (Entry W) :=
  match label.toNat with
  | 0 => none
  | position + 1 => codex.entries[position]?

/-- Encodes an arc. -/
def encodeArc (codex : Codex W) (arc : Arc W) : Arc W × Codex W :=
  let (label, codex) := codex.encode arc.input arc.output arc.weight
  ({ input := label
     output := if codex.flags.labels then label else arc.output
     weight := if codex.flags.weights then Weight.one else arc.weight
     target := arc.target },
    codex)

/-- Decodes an arc; one that reads nothing is left as it is. -/
def decodeArc (codex : Codex W) (arc : Arc W) : Except CodexError (Arc W) :=
  if arc.input = epsilon then .ok arc
  else if codex.flags.labels && arc.input != arc.output then
    .error (.labelMismatch arc.input arc.output)
  else if codex.flags.weights && !(arc.weight == Weight.one) then
    .error (.nontrivialWeight arc.input)
  else match codex.decode? arc.input with
    | none => .error (.unknownLabel arc.input)
    | some entry =>
      .ok
        { input := entry.input
          output := if codex.flags.labels then entry.output else arc.output
          weight := if codex.flags.weights then entry.weight else arc.weight
          target := arc.target }

end Codex
end WeightedTransducer
