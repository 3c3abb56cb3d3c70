import WeightedTransducer.Proofs.Codex.Failure
import WeightedTransducer.Proofs.Codex.Numbering

/-!
# Encoding with a stored codex

Encoding with a stored codex leaves the stored one as it was, while the codex in memory grows with
every key that it does not know.  The machine can be decoded with the grown codex in any case; with
the stored one it can be decoded exactly if no key was new (`Codex.Knows`), because a label that was
handed out for a new key lies behind all entries of the stored codex
(`Codex.length_lt_label_encode`).  `Machine.decodeInPlaceWith_encodeWith_stored` says so of encoding
and of the decoding that follows it.
-/

namespace WeightedTransducer

namespace Codex
variable {W : Type} [Weight W] {codex mid : Codex W} {label : Label} {entry : Entry W}

/-! ## Labels of a codex and of what it grows into -/

/-- A codex that has grown finds an entry where it was found before, and otherwise behind. -/
theorem Extends.find?_eq (h : codex.Extends mid) (entry : Entry W) : ∃ added,
    mid.entries = codex.entries ++ added ∧ mid.find? entry = (codex.find? entry).or
      ((added.findIdx? (entry == ·)).map fun position =>
        labelAt (position + codex.entries.length)) := by
  obtain ⟨added, hadded⟩ := h.entries_prefix
  refine ⟨added, hadded.symm, ?_⟩
  rw [Codex.find?_eq, Codex.find?_eq, ← hadded, List.findIdx?_append]
  cases codex.entries.findIdx? (entry == ·) with
  | some position => rfl
  | none => simp [Function.comp_def]

theorem Extends.find?_eq_some (h : codex.Extends mid) (hfind : codex.find? entry = some label) :
    mid.find? entry = some label := by
  obtain ⟨added, -, heq⟩ := h.find?_eq entry
  rw [heq, hfind]
  rfl

/-- The label that is handed out for a key which a codex does not know lies behind its entries, also
where the codex has grown since. -/
theorem length_lt_label_encode (hext : codex.Extends mid) {input output : Label} {weight : W}
    (hnew : codex.lookup? input output weight = none)
    (hfits : (mid.encode input output weight).2.Fits) :
    codex.entries.length < (mid.encode input output weight).1.toNat := by
  have hle : codex.entries.length ≤ mid.entries.length := hext.entries_prefix.length_le
  have hkey : codex.find? (key mid.flags input output weight) = none := by
    rw [hext.flags_eq]
    exact hnew
  cases hfind : mid.find? (key mid.flags input output weight) with
  | some label =>
    -- an arc before this one had the same key
    rw [encode_of_find?_eq_some mid input output weight hfind] at hfits ⊢
    obtain ⟨added, hadded, heq⟩ := hext.find?_eq (key mid.flags input output weight)
    rw [hkey, Option.none_or, hfind] at heq
    obtain ⟨position, hposition, rfl⟩ := Option.map_eq_some_iff.mp heq.symm
    have hlt := (List.findIdx?_eq_some_iff_getElem.mp hposition).1
    have hsmall : mid.entries.length < 2 ^ 32 - 1 := hfits
    rw [hadded, List.length_append] at hsmall
    rw [toNat_labelAt (by omega)]
    omega
  | none =>
    rw [encode_of_find?_eq_none mid input output weight hfind] at hfits ⊢
    have hsmall : (mid.push (key mid.flags input output weight)).entries.length < 2 ^ 32 - 1 :=
      hfits
    rw [push, List.length_append, List.length_singleton] at hsmall
    rw [toNat_labelAt (by omega)]
    omega

/-! ## Encoded arcs, decoded with the codex from before -/

/-- The key of an arc has an entry. -/
def KnowsArc (codex : Codex W) (arc : Arc W) : Prop :=
  (codex.lookup? arc.input arc.output arc.weight).isSome = true

instance : DecidablePred codex.KnowsArc := fun arc =>
  inferInstanceAs (Decidable ((codex.lookup? arc.input arc.output arc.weight).isSome = true))

/-- An encoded arc that a codex decodes exactly if it knows the key of the arc before; otherwise the
label is unknown to it, because it lies behind its entries. -/
def Settles (codex : Codex W) (encoded arc : Arc W) : Prop :=
  (codex.KnowsArc arc → ∃ decoded, codex.decodeArc encoded = .ok decoded) ∧
    (¬ codex.KnowsArc arc → ∃ label : Label, codex.entries.length < label.toNat ∧
      codex.decodeArc encoded = .error (.unknownLabel label))

/-- An arc that was encoded with what a codex has grown into is settled by the codex from before. -/
theorem settles_encodeArc [ReflBEq W] (hext : codex.Extends mid) (arc : Arc W)
    (hfits : (mid.encodeArc arc).2.Fits) : codex.Settles (mid.encodeArc arc).1 arc := by
  have hcodex : codex.Fits := (hext.trans (extends_encodeArc mid arc)).fits hfits
  constructor
  · intro hknown
    obtain ⟨label, hlabel⟩ := Option.isSome_iff_exists.mp hknown
    have hfind : codex.find? (key mid.flags arc.input arc.output arc.weight) = some label := by
      rw [hext.flags_eq]
      exact hlabel
    have hencode : (mid.encode arc.input arc.output arc.weight).1 = label := by
      rw [encode_of_find?_eq_some mid _ _ _ (hext.find?_eq_some hfind)]
    obtain ⟨hne, found, hfound, -⟩ := names_of_find? hcodex hfind
    have hdecode := decodeArc_encodeArc mid arc hext.flags_eq.symm
      (by rwa [hencode])
    rw [hencode, hfound] at hdecode
    exact ⟨_, hdecode⟩
  · intro hunknown
    have hnew : codex.lookup? arc.input arc.output arc.weight = none := by
      unfold KnowsArc at hunknown
      simpa using hunknown
    have hlt := length_lt_label_encode hext hnew hfits
    refine ⟨(mid.encode arc.input arc.output arc.weight).1, hlt, ?_⟩
    have hne : (mid.encode arc.input arc.output arc.weight).1 ≠ epsilon := by
      intro heq
      rw [heq] at hlt
      exact Nat.not_lt_zero _ hlt
    rw [decodeArc_encodeArc mid arc hext.flags_eq.symm hne,
      decode?_eq_none_iff.mpr (Or.inr hlt)]

/-- Arcs that were encoded one after another are settled one by one. -/
theorem settles_encodeArcs [ReflBEq W] (hext : codex.Extends mid) {arcs : List (Arc W)}
    (hfits : (mid.encodeArcs arcs).2.Fits) :
    List.Forall₂ codex.Settles (mid.encodeArcs arcs).1 arcs := by
  induction arcs generalizing mid with
  | nil => exact .nil
  | cons arc arcs ih =>
    have hrest := extends_encodeArcs (mid.encodeArc arc).2 arcs
    exact .cons (settles_encodeArc hext arc (hrest.fits hfits))
      (ih (hext.trans (extends_encodeArc mid arc)) hfits)

/-- A codex that knows the keys of all arcs does not grow. -/
theorem encodeArcs_of_knowsArc {arcs : List (Arc W)} (h : ∀ arc ∈ arcs, codex.KnowsArc arc) :
    (codex.encodeArcs arcs).2 = codex := by
  induction arcs with
  | nil => rfl
  | cons arc arcs ih =>
    obtain ⟨harc, harcs⟩ := List.forall_mem_cons.mp h
    obtain ⟨label, hlabel⟩ := Option.isSome_iff_exists.mp harc
    have hencode : (codex.encode arc.input arc.output arc.weight).2 = codex := by
      rw [encode_of_find?_eq_some codex _ _ _ hlabel]
    show ((codex.encode arc.input arc.output arc.weight).2.encodeArcs arcs).2 = codex
    rw [hencode]
    exact ih harcs

end Codex

/-! ## Encoded machines, decoded with the codex from before -/

variable {W σ : Type} [Weight W] [Storage σ] {codex : Codex W} {m : Machine W}

/-- A machine whose keys all have an entry: those of its arcs and, where weights are encoded, those
of the arcs that its final weights are moved onto. -/
def Codex.Knows (codex : Codex W) (m : Machine W) : Prop :=
  ∀ s ∈ m.states, (∀ arc ∈ s.arcs, codex.KnowsArc arc) ∧
    (codex.flags.weights = true → s.isFinal = true →
      (codex.lookup? epsilon epsilon s.final).isSome = true)

instance : DecidablePred codex.Knows := fun m =>
  inferInstanceAs (Decidable (∀ s ∈ m.states, (∀ arc ∈ s.arcs, codex.KnowsArc arc) ∧
    (codex.flags.weights = true → s.isFinal = true →
      (codex.lookup? epsilon epsilon s.final).isSome = true)))

namespace Machine

/-- The arcs that encoding meets, state by state: those of the state, then the one that its final
weight is moved onto. -/
def unfoldedArcs (flags : Flags) (m : Machine W) : List (Arc W) :=
  m.states.flatMap fun s => (s.unfold flags m.size).arcs

theorem knows_iff_unfoldedArcs :
    codex.Knows m ↔ ∀ arc ∈ m.unfoldedArcs codex.flags, codex.KnowsArc arc := by
  unfold unfoldedArcs Codex.Knows
  rw [List.forall_mem_flatMap]
  refine forall₂_congr fun s _ => ?_
  unfold State.unfold
  cases hweights : codex.flags.weights <;> cases hfinal : s.isFinal
  · simp
  · simp
  · simp
  · simp [or_imp, forall_and, Codex.KnowsArc]

/-- Encoding states is encoding the arcs that are met, one after another. -/
theorem encodeStates_eq (codex : Codex W) (superfinal : Nat) (states : List (State W)) :
    (codex.encodeStates superfinal states).1.flatMap State.arcs =
        (codex.encodeArcs (states.flatMap fun s => (s.unfold codex.flags superfinal).arcs)).1 ∧
      (codex.encodeStates superfinal states).2 =
        (codex.encodeArcs (states.flatMap fun s => (s.unfold codex.flags superfinal).arcs)).2 := by
  induction states generalizing codex with
  | nil => exact ⟨rfl, rfl⟩
  | cons s states ih =>
    have hflags := (Codex.extends_encodeState codex superfinal s).flags_eq
    obtain ⟨harcs, hgrown⟩ := ih (codex.encodeState superfinal s).2
    rw [hflags] at harcs hgrown
    rw [List.flatMap_cons, Codex.encodeArcs_append]
    have hstate := Codex.encodeState_eq codex superfinal s
    have hcodex : (codex.encodeState superfinal s).2 =
        (codex.encodeArcs (s.unfold codex.flags superfinal).arcs).2 := congrArg Prod.snd hstate
    have hfirst : (codex.encodeState superfinal s).1.arcs =
        (codex.encodeArcs (s.unfold codex.flags superfinal).arcs).1 :=
      congrArg (fun result => result.1.arcs) hstate
    have hcons : (codex.encodeStates superfinal (s :: states)).1 =
        (codex.encodeState superfinal s).1 ::
          ((codex.encodeState superfinal s).2.encodeStates superfinal states).1 := rfl
    rw [hcons, List.flatMap_cons, hfirst, harcs, ← hcodex]
    exact ⟨rfl, hgrown⟩

/-- Encoding a machine is encoding the arcs that are met, one after another; the superfinal state
that is added has none. -/
theorem arcs_encode (m : Machine W) (codex : Codex W) :
    (m.encode codex).value.1.arcs = (codex.encodeArcs (m.unfoldedArcs codex.flags)).1 := by
  have hadded : (if m.needsSuperfinal codex.flags then [{ final := Weight.one }] else [] :
      List (State W)).flatMap State.arcs = [] := by
    split <;> rfl
  show ((codex.encodeStates m.size m.states).1 ++ _).flatMap State.arcs = _
  rw [List.flatMap_append, hadded, List.append_nil]
  exact (encodeStates_eq codex m.size m.states).1

theorem codex_encode (m : Machine W) (codex : Codex W) :
    (m.encode codex).value.2 = (codex.encodeArcs (m.unfoldedArcs codex.flags)).2 :=
  (encodeStates_eq codex m.size m.states).2

/-- A codex does not grow by a machine that it knows. -/
theorem codex_encode_of_knows (h : codex.Knows m) : (m.encode codex).value.2 = codex := by
  rw [codex_encode]
  exact Codex.encodeArcs_of_knowsArc (knows_iff_unfoldedArcs.mp h)

/-- A machine with a key that was new is not decoded with the codex from before: the first arc that
does not decode has a label behind its entries. -/
theorem firstFailure_encode [ReflBEq W] (hfits : (m.encode codex).value.2.Fits)
    (h : ¬ codex.Knows m) : ∃ label : Label, codex.entries.length < label.toNat ∧
      FirstFailure codex.decodeArc (m.encode codex).value.1.arcs (.unknownLabel label) := by
  rw [codex_encode] at hfits
  rw [arcs_encode]
  have hsettles := Codex.settles_encodeArcs (Codex.Extends.refl codex) hfits
  have hsome : ∃ encoded ∈ (codex.encodeArcs (m.unfoldedArcs codex.flags)).1,
      ∃ e, codex.decodeArc encoded = .error e := by
    rw [knows_iff_unfoldedArcs] at h
    push Not at h
    obtain ⟨arc, harc, hunknown⟩ := h
    obtain ⟨encoded, hencoded, hsettle⟩ := exists_of_mem_of_forall₂ hsettles.flip harc
    obtain ⟨label, -, hdecode⟩ := hsettle.2 hunknown
    exact ⟨encoded, hencoded, _, hdecode⟩
  obtain ⟨e, hfirst⟩ := exists_firstFailure_iff.mpr hsome
  obtain ⟨front, encoded, back, hsplit, -, hdecode⟩ := id hfirst
  have hmem : encoded ∈ (codex.encodeArcs (m.unfoldedArcs codex.flags)).1 := by
    rw [hsplit]
    simp
  obtain ⟨arc, -, hsettle⟩ := exists_of_mem_of_forall₂ hsettles hmem
  by_cases hknown : codex.KnowsArc arc
  · obtain ⟨decoded, hok⟩ := hsettle.1 hknown
    rw [hok] at hdecode
    cases hdecode
  · obtain ⟨label, hlt, hunknown⟩ := hsettle.2 hknown
    rw [hunknown] at hdecode
    cases hdecode
    exact ⟨label, hlt, hfirst⟩

/-- **A machine that was encoded with a stored codex can be decoded with it again exactly if the
codex knew all its keys.**  Encoding leaves the storage alone and does not depend on the flags that
were asked for, and what the codex has grown into decodes the machine in any case.  Where a key was
new, decoding with the stored codex is stopped by a label behind all its entries, and the machine
stays encoded. -/
theorem decodeInPlaceWith_encodeWith_stored [EquivBEq W]
    (hzero : (Weight.zero == (Weight.one : W)) = false) (hm : m.WellFormed) {storage : σ}
    {path : String} {d : Delimiters} (hload : (Codex.load storage path d).value = .ok codex)
    (hfits : (m.encode codex).value.2.Fits) :
    ∃ encoded grown,
      (∀ flags, (m.encodeWith storage flags true path d).value = ⟨.ok grown, encoded, storage⟩) ∧
      (∃ restored, ((decodeInPlace grown).runOn encoded).value = (.ok (), restored) ∧
        (restored == m) = true) ∧
      (codex.Knows m → ∃ restored,
        ((decodeInPlaceWith storage path d).runOn encoded).value = (.ok (), restored) ∧
          (restored == m) = true) ∧
      (¬ codex.Knows m → ∃ label : Label, codex.entries.length < label.toNat ∧
        ((decodeInPlaceWith storage path d).runOn encoded).value =
          (.error (.error (.unknownLabel label)), encoded)) := by
  obtain ⟨restored, hdecode, hrestored⟩ :=
    decode_encode_of_keeps hzero hm (Codex.Extends.refl _).keeps hfits
  refine ⟨(m.encode codex).value.1, (m.encode codex).value.2, ?_, ?_, ?_, ?_⟩
  · intro flags
    rw [value_encodeWith_stored, hload]
  · refine ⟨restored, ?_, hrestored⟩
    rw [runOn_decodeInPlace, Traced.value_map, settle_eq_ok_iff, hdecode]
  · intro hknows
    rw [codex_encode_of_knows hknows] at hdecode
    refine ⟨restored, ?_, hrestored⟩
    rw [runOn_decodeInPlaceWith, Traced.value_map, settle_eq_ok_iff, value_decodeWith_eq_ok_iff]
    exact ⟨codex, hload, hdecode⟩
  · intro hunknown
    obtain ⟨label, hlt, hfirst⟩ := firstFailure_encode hfits hunknown
    refine ⟨label, hlt, ?_⟩
    rw [runOn_decodeInPlaceWith, Traced.value_map, settle_eq_error_iff]
    refine ⟨rfl, .unknownLabel label, rfl, ?_⟩
    rw [value_decodeWith_eq_error_iff]
    exact Or.inr ⟨codex, hload, hfirst⟩

/-- A stored codex with the weight `-0`: a machine with the weight `0` in its place is decoded
again, and one whose final weight is no number is not. -/
theorem decodeInPlaceWith_encodeWith_stored_of_final :
    let d : Delimiters := ⟨',', none⟩
    let codex : Codex Tropical :=
      { flags := ⟨true, true⟩, entries := [⟨1, 2, ⟨.zero true⟩⟩, ⟨0, 0, Weight.one⟩] }
    let storage := ({} : FileTree).put ["codex", "home"] (.file (codex.bytes d))
    let ending (final : Tropical) : Machine Tropical :=
      { states := [{ final := Weight.zero, arcs := [⟨1, 2, Weight.one, 1⟩] }, { final }]
        start := some 0 }
    let known := ending Weight.one
    let unknown := ending ⟨.quiet true⟩
    ((Weight.zero : Tropical) == Weight.one) = false ∧ known.WellFormed ∧ unknown.WellFormed ∧
      (Codex.load storage "codex" d).value = .ok codex ∧
      (known.encode codex).value.2.Fits ∧ (unknown.encode codex).value.2.Fits ∧
      codex.Knows known ∧ ¬ codex.Knows unknown ∧
      (∃ encoded grown restored,
        (∀ flags, (known.encodeWith storage flags true "codex" d).value =
          ⟨.ok grown, encoded, storage⟩) ∧
        ((decodeInPlaceWith storage "codex" d).runOn encoded).value = (.ok (), restored) ∧
          (restored == known) = true) ∧
      ∃ encoded grown label,
        (∀ flags, (unknown.encodeWith storage flags true "codex" d).value =
          ⟨.ok grown, encoded, storage⟩) ∧ 2 < label.toNat ∧
        ((decodeInPlaceWith storage "codex" d).runOn encoded).value =
          (.error (.error (.unknownLabel label)), encoded) := by
  intro d codex storage ending known unknown
  have hcosts : d.AvoidsCosts := Delimiters.avoidsCosts_of_characters (by decide)
  have hnumbers : ∀ e ∈ codex.entries, Cost.readBack e.weight.value = e.weight.value := by
    decide +kernel
  have hweights : ∀ e ∈ codex.entries, ReadsBack d Eq e.weight := by
    intro e he
    have helement : d.IsElement (Textual.text d e.weight) := Cost.isElement_write hcosts _
    have hsame : (⟨Cost.readBack e.weight.value⟩ : Tropical) = e.weight :=
      congrArg Tropical.mk (hnumbers e he)
    exact ⟨helement.toIsSolid, _, Tropical.read_text d e.weight, hsame⟩
  have hdistinct : codex.Distinct := by
    unfold Codex.Distinct
    decide +kernel
  have htarget : ({} : FileTree).target "codex" = .ok ["codex", "home"] := by decide
  have hsave : Storage.save ({} : FileTree) "codex" (codex.bytes d) = (.ok (), storage) := by
    simp only [Storage.save, htarget, storage]
  have hload : (Codex.load storage "codex" d).value = .ok codex :=
    Codex.load_of_bytes_eq rfl hcosts.isDigit_eq_false (by decide) hdistinct (by decide) hweights
      (LawfulStorage.load_save hsave)
  have hformed : known.WellFormed ∧ unknown.WellFormed :=
    ⟨⟨by decide, by decide⟩, ⟨by decide, by decide⟩⟩
  have hfits : (known.encode codex).value.2.Fits ∧ (unknown.encode codex).value.2.Fits := by
    unfold Codex.Fits
    decide +kernel
  have hknows : codex.Knows known := by decide +kernel
  have hunknown : ¬ codex.Knows unknown := by decide +kernel
  obtain ⟨encoded, grown, hencode, -, hrestored, -⟩ :=
    decodeInPlaceWith_encodeWith_stored Tropical.zero_ne_one hformed.1 hload hfits.1
  obtain ⟨encoded', grown', hencode', -, -, hstopped⟩ :=
    decodeInPlaceWith_encodeWith_stored Tropical.zero_ne_one hformed.2 hload hfits.2
  obtain ⟨restored, hdecode, hequal⟩ := hrestored hknows
  obtain ⟨label, hlabel, hstop⟩ := hstopped hunknown
  exact ⟨Tropical.zero_ne_one, hformed.1, hformed.2, hload, hfits.1, hfits.2, hknows, hunknown,
    ⟨encoded, grown, restored, hencode, hdecode, hequal⟩, encoded', grown', label, hencode', hlabel,
    hstop⟩

end Machine
end WeightedTransducer
