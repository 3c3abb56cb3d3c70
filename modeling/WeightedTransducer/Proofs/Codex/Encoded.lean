import WeightedTransducer.Proofs.Codex.EncodeInPlace
import WeightedTransducer.Proofs.Codex.Reuse

/-!
# What encoding makes of a machine

Encoding rewrites the machine and lets the codex grow in one pass.  `Machine.Encodes` says what
comes out of it without a pass: the codex with the keys that it lacks at its end, each once and in
the order in which they are first met (`Codex.lacking`), and the machine with every arc renamed by
that codex (`Codex.EncodesArc`), its final weights moved onto arcs (`State.unfold`) and the
superfinal state behind.  `Machine.encodeInPlace_encodes` says that this is what encoding gives, and
that nothing else is like this.
-/

namespace WeightedTransducer

/-- Elements that were there before the duplicates are erased only keep others out. -/
theorem eraseDupsBy_loop_append {α : Type} (r : α → α → Bool) (xs kept old : List α) :
    List.eraseDupsBy.loop r xs (kept ++ old) =
      old.reverse ++ List.eraseDupsBy.loop r (xs.filter fun x => !old.any (r x)) kept := by
  induction xs generalizing kept with
  | nil => simp [List.eraseDupsBy.loop]
  | cons x xs ih =>
    rw [List.eraseDupsBy.loop, List.any_append]
    cases hold : old.any (r x) with
    | true =>
      rw [Bool.or_true, List.filter_cons_of_neg (by simp [hold])]
      exact ih kept
    | false =>
      rw [Bool.or_false, List.filter_cons_of_pos (by simp [hold]), List.eraseDupsBy.loop]
      cases kept.any (r x) with
      | true => exact ih kept
      | false => exact ih (x :: kept)

/-! ## Arcs and the codex that they were encoded with -/

namespace Codex
variable {W : Type} [Weight W] {codex mid grown : Codex W}

/-- The entry that an arc is encoded under. -/
def keyOfArc (flags : Flags) (arc : Arc W) : Entry W :=
  key flags arc.input arc.output arc.weight

/-- The keys that a codex does not have, each once, in the order in which they are first met. -/
def lacking (codex : Codex W) (keys : List (Entry W)) : List (Entry W) :=
  (keys.filter fun key => (codex.find? key).isNone).eraseDups

/-- Encoding arcs adds the keys that are lacking. -/
theorem entries_encodeArcs (codex : Codex W) (arcs : List (Arc W)) :
    (codex.encodeArcs arcs).2.entries =
      codex.entries ++ codex.lacking (arcs.map (keyOfArc codex.flags)) := by
  have heach (codex : Codex W) : (codex.encodeArcs arcs).2 =
      (codex.encodeEach (arcs.map fun arc => ⟨arc.input, arc.output, arc.weight⟩)).2 := by
    induction arcs generalizing codex with
    | nil => rfl
    | cons arc arcs ih => exact ih (codex.encodeArc arc).2
  have hnone : (fun entry => !codex.entries.reverse.any (entry == ·)) =
      fun entry => (codex.find? entry).isNone := by
    funext entry
    rw [List.any_reverse, find?_eq, ← Option.not_isSome, Option.isSome_map, List.findIdx?_isSome]
  -- the entries of the codex are what the scan for duplicates starts with
  have hloop := eraseDupsBy_loop_append (· == ·) (arcs.map (keyOfArc codex.flags)) []
    codex.entries.reverse
  rw [List.nil_append, List.reverse_reverse, hnone] at hloop
  rw [heach, entries_encodeEach, List.map_map]
  exact hloop

/-- What an arc becomes by encoding, told by the codex afterwards: it reads the label that its key
has there, writes the same one where output labels are encoded, weighs one where weights are, and is
otherwise as it was. -/
structure EncodesArc (grown : Codex W) (arc encoded : Arc W) : Prop where
  input_pos : 1 ≤ encoded.input.toNat
  input_le : encoded.input.toNat ≤ grown.entries.length
  lookup?_eq : grown.lookup? arc.input arc.output arc.weight = some encoded.input
  output_eq : encoded.output = if grown.flags.labels then encoded.input else arc.output
  weight_eq : encoded.weight = if grown.flags.weights then Weight.one else arc.weight
  target_eq : encoded.target = arc.target

/-- The codex after an arc was encoded tells its label. -/
theorem find?_encode [ReflBEq W] (codex : Codex W) (input output : Label) (weight : W) :
    (codex.encode input output weight).2.find? (key codex.flags input output weight) =
      some (codex.encode input output weight).1 := by
  cases hfind : codex.find? (key codex.flags input output weight) with
  | some label => rw [encode_of_find?_eq_some codex _ _ _ hfind, hfind]
  | none =>
    have hself : (key codex.flags input output weight == key codex.flags input output weight) =
        true := Entry.beq_iff.mpr ⟨rfl, rfl, BEq.rfl⟩
    obtain ⟨added, hadded, hgrown⟩ :=
      (extends_push codex (key codex.flags input output weight)).find?_eq
        (key codex.flags input output weight)
    obtain rfl := (List.append_cancel_left hadded).symm
    rw [encode_of_find?_eq_none codex _ _ _ hfind, hgrown, hfind, Option.none_or,
      List.findIdx?_cons, hself]
    simp

/-- A label that is found is the number of an entry. -/
theorem toNat_of_find? {entry : Entry W} {label : Label} (hfits : codex.Fits)
    (h : codex.find? entry = some label) :
    1 ≤ label.toNat ∧ label.toNat ≤ codex.entries.length := by
  rw [find?_eq] at h
  obtain ⟨position, hposition, rfl⟩ := Option.map_eq_some_iff.mp h
  have hlt := (List.findIdx?_eq_some_iff_getElem.mp hposition).1
  rw [toNat_labelAt (Nat.lt_trans hlt hfits)]
  omega

theorem encodesArc_encodeArc [ReflBEq W] (codex : Codex W) (arc : Arc W)
    (hext : (codex.encodeArc arc).2.Extends grown) (hfits : grown.Fits) :
    grown.EncodesArc arc (codex.encodeArc arc).1 := by
  have hflags : grown.flags = codex.flags := ((extends_encodeArc codex arc).trans hext).flags_eq
  have hfind : grown.find? (key codex.flags arc.input arc.output arc.weight) =
      some (codex.encode arc.input arc.output arc.weight).1 :=
    hext.find?_eq_some (find?_encode codex arc.input arc.output arc.weight)
  have hlabel := toNat_of_find? hfits hfind
  rw [encodeArc_fst]
  exact ⟨hlabel.1, hlabel.2, by rw [lookup?, hflags, hfind], by rw [hflags], by rw [hflags], rfl⟩

/-- Arcs become what they become one by one, and in order. -/
theorem encodesArc_encodeArcs [ReflBEq W] (codex : Codex W) (arcs : List (Arc W))
    (hext : (codex.encodeArcs arcs).2.Extends grown) (hfits : grown.Fits) :
    List.Forall₂ grown.EncodesArc arcs (codex.encodeArcs arcs).1 := by
  induction arcs generalizing codex with
  | nil => exact .nil
  | cons arc arcs ih =>
    have hrest := extends_encodeArcs (codex.encodeArc arc).2 arcs
    exact .cons (encodesArc_encodeArc codex arc (hrest.trans hext) hfits) (ih _ hext)

/-- An arc becomes one thing. -/
theorem EncodesArc.eq {arc encoded encoded' : Arc W} (h : grown.EncodesArc arc encoded)
    (h' : grown.EncodesArc arc encoded') : encoded = encoded' := by
  have hinput : encoded.input = encoded'.input :=
    Option.some.inj (h.lookup?_eq.symm.trans h'.lookup?_eq)
  obtain ⟨input, output, weight, target⟩ := encoded
  obtain ⟨-, -, -, houtput, hweight, htarget⟩ := h
  obtain ⟨-, -, -, houtput', hweight', htarget'⟩ := h'
  cases encoded'
  simp_all

end Codex

/-! ## Machines -/

/-- What a state becomes by encoding, told by the codex afterwards.  Where weights are encoded, a
final weight becomes that of one more arc, which leads to the superfinal state and would read and
write nothing. -/
structure State.Encodes {W : Type} [Weight W] (grown : Codex W) (superfinal : Nat)
    (s encoded : State W) : Prop where
  arcs : List.Forall₂ grown.EncodesArc (s.unfold grown.flags superfinal).arcs encoded.arcs
  final_eq : encoded.final = (s.unfold grown.flags superfinal).final
  not_final : grown.flags.weights = true → encoded.isFinal = false

namespace Machine
variable {W : Type} [Weight W] {codex grown : Codex W} {m encoded : Machine W}

/-- What a machine and a codex become by encoding. -/
structure Encodes (codex : Codex W) (m : Machine W) (grown : Codex W) (encoded : Machine W) :
    Prop where
  flags_eq : grown.flags = codex.flags
  entries_eq : grown.entries = codex.entries ++
    codex.lacking ((m.unfoldedArcs codex.flags).map (Codex.keyOfArc codex.flags))
  start_eq : encoded.start = m.start
  states : ∃ states, List.Forall₂ (State.Encodes grown m.size) m.states states ∧
    encoded.states = states ++
      if codex.flags.weights && m.states.any State.isFinal then
        [{ final := Weight.one, arcs := [] }]
      else []

theorem encodes_encodeState [ReflBEq W] (codex : Codex W) (superfinal : Nat) (s : State W)
    (hext : (codex.encodeState superfinal s).2.Extends grown) (hfits : grown.Fits) :
    s.Encodes grown superfinal (codex.encodeState superfinal s).1 := by
  have hflags : grown.flags = codex.flags :=
    ((Codex.extends_encodeState codex superfinal s).trans hext).flags_eq
  rw [Codex.encodeState_eq] at hext ⊢
  rw [← hflags] at hext ⊢
  refine ⟨Codex.encodesArc_encodeArcs codex _ hext hfits, rfl, fun hweights => ?_⟩
  unfold State.unfold
  rw [hweights, Bool.true_and]
  cases hfinal : s.isFinal with
  | false => exact hfinal
  | true => simp [State.isFinal]

theorem encodes_encodeStates [ReflBEq W] (codex : Codex W) (superfinal : Nat)
    (states : List (State W)) (hext : (codex.encodeStates superfinal states).2.Extends grown)
    (hfits : grown.Fits) :
    List.Forall₂ (State.Encodes grown superfinal) states
      (codex.encodeStates superfinal states).1 := by
  induction states generalizing codex with
  | nil => exact .nil
  | cons s states ih =>
    have hrest := Codex.extends_encodeStates (codex.encodeState superfinal s).2 superfinal states
    exact .cons (encodes_encodeState codex superfinal s (hrest.trans hext) hfits) (ih _ hext)

theorem encodes_encode [ReflBEq W] (m : Machine W) (codex : Codex W)
    (hfits : (m.encode codex).value.2.Fits) :
    Encodes codex m (m.encode codex).value.2 (m.encode codex).value.1 where
  flags_eq := (Codex.extends_machine_encode m codex).flags_eq
  entries_eq := by rw [codex_encode, Codex.entries_encodeArcs]
  start_eq := rfl
  states := ⟨_, encodes_encodeStates codex m.size m.states (Codex.Extends.refl _) hfits, rfl⟩

/-- A machine and a codex become one thing. -/
theorem Encodes.eq {grown' : Codex W} {encoded' : Machine W} (h : Encodes codex m grown encoded)
    (h' : Encodes codex m grown' encoded') : grown = grown' ∧ encoded = encoded' := by
  have hgrown : grown = grown' := by
    have hflags := h.flags_eq.trans h'.flags_eq.symm
    have hentries := h.entries_eq.trans h'.entries_eq.symm
    cases grown
    cases grown'
    simp_all
  subst hgrown
  have harcs : Relator.RightUnique grown.EncodesArc := fun _ _ _ => Codex.EncodesArc.eq
  have hstate : Relator.RightUnique (State.Encodes grown m.size) := by
    rintro s ⟨final, arcs⟩ ⟨final', arcs'⟩ hs hs'
    obtain rfl : arcs = arcs' := harcs.forall₂ hs.arcs hs'.arcs
    obtain rfl : final = final' := hs.final_eq.trans hs'.final_eq.symm
    rfl
  obtain ⟨states, hstates, hadded⟩ := h.states
  obtain ⟨states', hstates', hadded'⟩ := h'.states
  obtain rfl : states = states' := hstate.forall₂ hstates hstates'
  have hstart := h.start_eq.trans h'.start_eq.symm
  have hall := hadded.trans hadded'.symm
  cases encoded
  cases encoded'
  simp_all

/-- **What encoding gives, without the pass that computes it.**  Encoding in place is never stopped,
and as long as there are labels for all keys it leaves the machine and gives the codex that
`Encodes` describes, and there are no others that it describes. -/
theorem encodeInPlace_encodes [ReflBEq W] (m : Machine W) (codex : Codex W)
    (hfew : codex.entries.length +
      (codex.lacking ((m.unfoldedArcs codex.flags).map (Codex.keyOfArc codex.flags))).length <
        2 ^ 32 - 1) :
    ∃ grown encoded, ((encodeInPlace codex).runOn m).value = (.ok grown, encoded) ∧
      Encodes codex m grown encoded ∧
      ∀ grown' encoded', Encodes codex m grown' encoded' → grown' = grown ∧ encoded' = encoded := by
  have hfits : (m.encode codex).value.2.Fits := by
    unfold Codex.Fits
    rw [codex_encode, Codex.entries_encodeArcs, List.length_append]
    exact hfew
  have hencodes := encodes_encode m codex hfits
  refine ⟨_, _, ?_, hencodes, fun _ _ h => h.eq hencodes⟩
  rw [runOn_encodeInPlace, Traced.value_map]

/-- A codex that has the key of two arcs, whose weights are the two zeros.  It lacks two: one is the
key of the third arc and of a final weight, the other that of the other final weight. -/
theorem encodeInPlace_encodes_of_filled :
    let codex : Codex Tropical := { flags := ⟨true, true⟩, entries := [⟨1, 2, ⟨.zero true⟩⟩] }
    let first : State Tropical :=
      { final := ⟨.quiet true⟩, arcs := [⟨1, 2, Weight.one, 1⟩, ⟨0, 0, ⟨.quiet true⟩, 0⟩] }
    let second : State Tropical := { final := Weight.one, arcs := [⟨1, 2, ⟨.zero true⟩, 0⟩] }
    let m : Machine Tropical := { states := [first, second], start := some 1 }
    codex.entries.length +
        (codex.lacking ((m.unfoldedArcs codex.flags).map (Codex.keyOfArc codex.flags))).length <
          2 ^ 32 - 1 ∧
      ∃ grown encoded, ((encodeInPlace codex).runOn m).value = (.ok grown, encoded) ∧
        Encodes codex m grown encoded ∧ grown.entries.length = 3 ∧
        encoded.arcs.map (fun arc => (arc.input, arc.target)) =
          [(1, 1), (2, 0), (2, 2), (1, 0), (3, 2)] := by
  intro codex first second m
  let keys := (m.unfoldedArcs codex.flags).map (Codex.keyOfArc codex.flags)
  have hlacking : (codex.lacking keys).length = 2 := by decide +kernel
  have hfew : codex.entries.length + (codex.lacking keys).length < 2 ^ 32 - 1 := by
    rw [hlacking]
    decide
  obtain ⟨grown, encoded, hvalue, hencodes, -⟩ := encodeInPlace_encodes m codex hfew
  have harcs : (((encodeInPlace codex).runOn m).value.2.arcs.map fun arc =>
      (arc.input, arc.target)) = [(1, 1), (2, 0), (2, 2), (1, 0), (3, 2)] := by decide +kernel
  rw [hvalue] at harcs
  refine ⟨hfew, grown, encoded, hvalue, hencodes, ?_, harcs⟩
  rw [hencodes.entries_eq, List.length_append, hlacking]
  rfl

end Machine
end WeightedTransducer
