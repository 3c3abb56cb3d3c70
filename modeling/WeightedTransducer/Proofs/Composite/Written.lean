import Mathlib.Data.List.Forall2
import WeightedTransducer.ElementKind

/-!
# What composite values are written as

A value is written by putting its text into a sink: all of it, or as much as there is room for.
Types whose values are written in this way (`LawfulTextual`) keep it when they are combined,
because a writer that stops at the first text that finds no room leaves in the sink what putting
all the texts at once would have left (`CompositeWriter.write_eq`).  The text of a composite value
is the texts of its elements with separators between, in parentheses if there are any
(`Delimiters.compose`).
-/

namespace WeightedTransducer

/-! ## Putting one text after another -/

namespace Sink

theorem put_append_of_kept {sink : Sink} {s : List Char} (h : (sink.put s).2 = true)
    (t : List Char) : sink.put (s ++ t) = (sink.put s).1.put t := by
  unfold put at h ⊢
  cases hr : sink.room with
  | none => simp
  | some room =>
    simp only [hr, decide_eq_true_eq] at h
    simp only [List.length_append, Prod.mk.injEq, Sink.mk.injEq, Option.some.injEq,
      decide_eq_decide]
    refine ⟨⟨?_, by omega⟩, by omega⟩
    rw [List.take_append, List.take_of_length_le h, List.append_assoc]

theorem put_append_of_not_kept {sink : Sink} {s : List Char} (h : (sink.put s).2 = false)
    (t : List Char) : sink.put (s ++ t) = sink.put s := by
  unfold put at h ⊢
  cases hr : sink.room with
  | none => simp [hr] at h
  | some room =>
    simp only [hr, decide_eq_false_iff_not] at h
    simp only [List.length_append, Prod.mk.injEq, Sink.mk.injEq, Option.some.injEq,
      decide_eq_decide]
    refine ⟨⟨?_, by omega⟩, by omega⟩
    rw [List.take_append_of_le_length (by omega)]

end Sink

namespace Output

@[simp] theorem toText_text (t : List Char) : (text t).toText = t := rfl

end Output

/-- The text of a composite value whose elements have the given texts. -/
def Delimiters.compose (d : Delimiters) (elements : List (List Char)) : List Char :=
  d.opening.toList ++ [d.separator].intercalate elements ++ d.closing.toList

/-- A type whose values are written by putting their text: nothing else is written, and only a sink
without room stops them. -/
class LawfulTextual (α : Type) [Textual α] : Prop where
  /-- Writing a value puts its text. -/
  write_eq (d : Delimiters) (a : α) : Textual.write d a = Output.text (Textual.text d a)

theorem LawfulTextual.of_write {α : Type} [Textual α] (text : Delimiters → α → List Char)
    (h : ∀ d a, Textual.write d a = Output.text (text d a)) : LawfulTextual α where
  write_eq d a := by rw [Textual.text, h, Output.toText_text]

/-! ## Steps of a writer -/

namespace CompositeWriter
variable {d : Delimiters}

/-- What a step leaves in the sink, and whether all of it was kept. -/
def outcome (result : CompositeWriter × Bool) : Sink × Bool :=
  (result.1.sink, result.2)

/-- What stands before the next element. -/
def lead (writer : CompositeWriter) : List Char :=
  if writer.position = 0 then [] else [writer.delimiters.separator]

/-- A step that writes one element with the given text. -/
structure WritesElement (d : Delimiters) (step : Step) (text : List Char) : Prop where
  /-- The sink gets the separator, except before the first element, and the text. -/
  outcome_eq (writer : CompositeWriter) (h : writer.delimiters = d) :
    outcome (step writer) = writer.sink.put (writer.lead ++ text)
  /-- A step that was kept leaves a writer with one more element begun. -/
  next (writer : CompositeWriter) (h : writer.delimiters = d) (hkept : (step writer).2 = true) :
    (step writer).1.delimiters = d ∧ (step writer).1.position = writer.position + 1

theorem writesElement_element {α : Type} [Textual α] [LawfulTextual α] (a : α) :
    WritesElement d (element a) (Textual.text d a) := by
  have hsep (writer : CompositeWriter) :
      separator writer = ({ writer with sink := (writer.sink.put writer.lead).1 },
        (writer.sink.put writer.lead).2) := rfl
  refine ⟨fun writer h => ?_, fun writer h hkept => ?_⟩
  · unfold element
    rw [hsep]
    cases hput : (writer.sink.put writer.lead).2 with
    | true =>
      rw [Sink.put_append_of_kept hput, ← h]
      simp only [outcome, put, LawfulTextual.write_eq]
      rfl
    | false =>
      rw [Sink.put_append_of_not_kept hput]
      exact Prod.ext rfl hput.symm
  · unfold element at hkept ⊢
    rw [hsep] at hkept ⊢
    cases hput : (writer.sink.put writer.lead).2 with
    | true => exact ⟨h, rfl⟩
    | false => simp [hput] at hkept

theorem run_of_kept {step : Step} {writer : CompositeWriter} (h : (step writer).2 = true)
    (rest : List Step) : run (step :: rest) writer = run rest (step writer).1 := by
  rw [run.eq_2]
  split
  · rename_i he
    rw [he]
  · rename_i he
    simp [he] at h

theorem run_of_not_kept {step : Step} {writer : CompositeWriter} (h : (step writer).2 = false)
    (rest : List Step) : run (step :: rest) writer = step writer := by
  rw [run.eq_2]
  split
  · rename_i he
    simp [he] at h
  · rename_i he
    rw [he]

/-- Running steps puts what the first one puts, and what the others put if that was kept. -/
theorem outcome_run_cons {step : Step} {writer : CompositeWriter} {s t : List Char}
    {rest : List Step} (hstep : outcome (step writer) = writer.sink.put s)
    (hrest : (step writer).2 = true →
      outcome (run rest (step writer).1) = (step writer).1.sink.put t) :
    outcome (run (step :: rest) writer) = writer.sink.put (s ++ t) := by
  have hsink : (step writer).1.sink = (writer.sink.put s).1 := congrArg Prod.fst hstep
  have hkept : (step writer).2 = (writer.sink.put s).2 := congrArg Prod.snd hstep
  cases hk : (step writer).2 with
  | true => rw [run_of_kept hk, hrest hk, Sink.put_append_of_kept (hkept ▸ hk), hsink]
  | false => rw [run_of_not_kept hk, Sink.put_append_of_not_kept (hkept ▸ hk), hstep]

/-- The closing parenthesis is the last step. -/
theorem outcome_run_closing (writer : CompositeWriter) :
    outcome (run [closing] writer) = writer.sink.put writer.delimiters.closing.toList := by
  cases hk : (closing writer).2 with
  | true =>
    rw [run_of_kept hk]
    exact Prod.ext rfl hk.symm
  | false =>
    rw [run_of_not_kept hk]
    rfl

/-- Steps for elements, and the closing parenthesis after them, put their texts with separators
between. -/
theorem outcome_run_elements {steps : List Step} {texts : List (List Char)}
    (hsteps : List.Forall₂ (WritesElement d) steps texts) (writer : CompositeWriter)
    (h : writer.delimiters = d) :
    outcome (run (steps ++ [closing]) writer) =
      writer.sink.put ((if texts = [] then [] else writer.lead ++ [d.separator].intercalate texts)
        ++ d.closing.toList) := by
  induction hsteps generalizing writer with
  | nil =>
    rw [if_pos rfl, List.nil_append, List.nil_append, outcome_run_closing, h]
  | @cons step text steps texts hstep _ ih =>
    have htexts : [d.separator].intercalate (text :: texts) =
        text ++ if texts = [] then [] else d.separator :: [d.separator].intercalate texts := by
      cases texts <;> simp [List.intercalate_cons_cons]
    rw [List.cons_append, if_neg (List.cons_ne_nil _ _), htexts, ← List.append_assoc writer.lead,
      List.append_assoc]
    refine outcome_run_cons (hstep.outcome_eq writer h) fun hkept => ?_
    obtain ⟨hd, hp⟩ := hstep.next writer h hkept
    have hlead : (step writer).1.lead = [d.separator] := by
      rw [lead, if_neg (by omega), hd]
    rw [ih _ hd, hlead]
    rfl

/-- **A composite value is written by putting its text.** -/
theorem write_eq {steps : List Step} {texts : List (List Char)}
    (hsteps : List.Forall₂ (WritesElement d) steps texts) :
    write d steps = Output.text (d.compose texts) := by
  funext sink
  have hrun : outcome (run (opening :: steps ++ [closing]) { delimiters := d, sink }) =
      sink.put (d.opening.toList ++ ([d.separator].intercalate texts ++ d.closing.toList)) := by
    rw [List.cons_append]
    refine outcome_run_cons rfl fun _ => ?_
    rw [outcome_run_elements hsteps (opening { delimiters := d, sink }).1 rfl]
    cases texts <;> rfl
  rw [← List.append_assoc] at hrun
  exact hrun

end CompositeWriter

/-! ## The types of this library -/

variable {α β : Type}

instance : LawfulTextual String :=
  .of_write (fun _ value => value.toList) fun _ _ => rfl

theorem lawfulTextual_wholeNumber (name : String) (least greatest : Int) (toInt : α → Int)
    (ofInt : Int → α) :
    @LawfulTextual α (Textual.wholeNumber name least greatest toInt ofInt) :=
  letI := Textual.wholeNumber name least greatest toInt ofInt
  .of_write (fun _ value => Text.writeInteger (toInt value)) fun _ _ => rfl

instance : LawfulTextual UInt16 := lawfulTextual_wholeNumber ..

instance : LawfulTextual UInt32 := lawfulTextual_wholeNumber ..

instance : LawfulTextual UInt64 := lawfulTextual_wholeNumber ..

instance : LawfulTextual Int16 := lawfulTextual_wholeNumber ..

instance : LawfulTextual Int32 := lawfulTextual_wholeNumber ..

instance : LawfulTextual Int64 := lawfulTextual_wholeNumber ..

instance : LawfulTextual Count := lawfulTextual_wholeNumber ..

instance : LawfulTextual Tropical :=
  .of_write (fun _ w => Cost.write w.value) fun _ _ => rfl

instance : LawfulTextual Log :=
  .of_write (fun _ w => Cost.write w.value) fun _ _ => rfl

instance : LawfulTextual Boolean :=
  .of_write (fun _ w => w.text.toList) fun _ _ => rfl

instance (table : FiniteTable) : LawfulTextual (FiniteWeight table) :=
  .of_write (fun _ w => (table.texts.getD w.index "").toList) fun _ _ => rfl

section Composite
variable [Textual α] [Textual β] [LawfulTextual α] [LawfulTextual β] (d : Delimiters)

theorem write_list (values : List α) :
    Textual.write d values = Output.text (d.compose (values.map (Textual.text d))) := by
  refine CompositeWriter.write_eq
    (List.forall₂_map_left_iff.mpr (List.forall₂_map_right_iff.mpr ?_))
  exact List.forall₂_same.mpr fun a _ => CompositeWriter.writesElement_element a

theorem write_product (w : Product α β) :
    Textual.write d w =
      Output.text (d.compose [Textual.text d w.first, Textual.text d w.second]) :=
  CompositeWriter.write_eq (.cons (CompositeWriter.writesElement_element _)
    (.cons (CompositeWriter.writesElement_element _) .nil))

theorem write_entry (e : Entry α) :
    Textual.write d e = Output.text (d.compose
      [Textual.text d e.input, Textual.text d e.output, Textual.text d e.weight]) :=
  CompositeWriter.write_eq (.cons (CompositeWriter.writesElement_element _)
    (.cons (CompositeWriter.writesElement_element _)
      (.cons (CompositeWriter.writesElement_element _) .nil)))

instance : LawfulTextual (List α) := .of_write _ write_list

instance : LawfulTextual (Product α β) := .of_write _ write_product

instance : LawfulTextual (Entry α) := .of_write _ write_entry

/-- The text of a list. -/
theorem text_list (values : List α) :
    Textual.text d values = d.compose (values.map (Textual.text d)) := by
  rw [Textual.text, write_list, Output.toText_text]

/-- The text of a pair. -/
theorem text_product (w : Product α β) :
    Textual.text d w = d.compose [Textual.text d w.first, Textual.text d w.second] := by
  rw [Textual.text, write_product, Output.toText_text]

/-- The text of a codex entry. -/
theorem text_entry (e : Entry α) :
    Textual.text d e =
      d.compose [Textual.text d e.input, Textual.text d e.output, Textual.text d e.weight] := by
  rw [Textual.text, write_entry, Output.toText_text]

end Composite
end WeightedTransducer
