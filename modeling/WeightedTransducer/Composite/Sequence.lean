import WeightedTransducer.Composite.Reader
import WeightedTransducer.Composite.Writer

/-!
# Sequences as composite values

A list is written as one composite value, and read by taking elements for as long as the reader
announces another.  There must be at least one.  Lists nest: an inner list is one element of the
outer one.  `Reading.element_consumes` says that every element taken leaves less of the input,
which is why reading ends.
-/

namespace WeightedTransducer

namespace Reading
variable {α : Type} [Textual α]

/-- What follows an element leaves at most what there was. -/
theorem length_afterElement_le (r : CompositeReader) :
    (afterElement r).2.ahead.length ≤ r.ahead.length := by
  unfold afterElement
  split
  · exact Nat.le_refl _
  · split
    · exact Nat.le_refl _
    · split <;> simp_all

/-- An element that was taken leaves less of the input than there was. -/
theorem element_consumes {last : Bool} {r r' : CompositeReader} {a : α} {more : Bool}
    (h : (element last r).value = (.ok (a, more), r')) : r'.ahead.length < r.ahead.length := by
  have hscan := congrArg List.length (r.delimiters.scan_append last r.depth r.ahead)
  simp only [List.length_append] at hscan
  unfold element guarded at h
  split at h
  · simp at h
  · split at h
    · dsimp only at h
      split at h
      · simp at h
      · split at h
        · simp at h
        · rename_i hne
          simp only [Traced.value_bind] at h
          split at h
          · simp at h
          · have hle := length_afterElement_le
              { r with
                ahead := (r.delimiters.scan last r.depth r.ahead).ahead
                depth := (r.delimiters.scan last r.depth r.ahead).depth }
            have := List.length_pos_iff.2 (fun h0 => hne (List.isEmpty_iff.2 h0))
            simp only [Traced.value_pure, Prod.mk.injEq] at h
            obtain ⟨-, rfl⟩ := h
            exact Nat.lt_of_le_of_lt hle (by dsimp only; omega)
    · simp at h

/-- Takes elements for as long as another is announced. -/
def elements (r : CompositeReader) : Traced (Except ReadError (List α) × CompositeReader) :=
  let first := (element false r : Traced (Except ReadError (α × Bool) × _))
  match _h : first.value with
  | (.error e, r') => { value := (.error e, r'), events := first.events }
  | (.ok (a, false), r') => { value := (.ok [a], r'), events := first.events }
  | (.ok (a, true), r') =>
    let others := elements r'
    { value := (others.value.1.map (a :: ·), others.value.2),
      events := first.events ++ others.events }
  termination_by r.ahead.length
  decreasing_by exact element_consumes _h

/-- Takes a whole sequence. -/
def sequence : Reading (List α) := do
  opening
  let values ← (elements : Reading (List α))
  closing
  pure values

end Reading

/-- Writes the elements of a list as one composite value. -/
def writeSequence {α : Type} [Textual α] (delimiters : Delimiters) (values : List α) : Output :=
  CompositeWriter.write delimiters (values.map CompositeWriter.element)

instance {α : Type} [Textual α] : Textual (List α) where
  write := writeSequence
  read delimiters text := Reading.runOn delimiters text Reading.sequence

end WeightedTransducer
