import WeightedTransducer.Proofs.Codex.Growth
import WeightedTransducer.Proofs.Weight.Equality

/-!
# Decoding restores the machine

Decoding undoes encoding in two steps.  Every state decodes to the state it was, except that a final
weight is still on an arc to the superfinal state (`State.unfold`, `State.Alike`).  The superfinal
state is then recognised exactly where one was added (`Machine.superfinal?_eq_some`,
`Machine.superfinal?_eq_none`) and folded away, which gives the final weights back
(`Machine.foldState_of_alike`).  The codex may have grown in between, so machines encoded one after
another with one codex are all restored by the codex at the end (`Machine.decode_encodeAll`).
-/

namespace WeightedTransducer

section Equality
variable {W : Type} [BEq W]

theorem State.beq_iff {s t : State W} :
    (s == t) = true ↔ (s.final == t.final) = true ∧ (s.arcs == t.arcs) = true := by
  show (s.final == t.final && s.arcs == t.arcs) = true ↔ _
  exact Bool.and_eq_true_iff

theorem Machine.beq_iff {m n : Machine W} :
    (m == n) = true ↔ (m.states == n.states) = true ∧ m.start = n.start := by
  show (m.states == n.states && m.start == n.start) = true ↔ _
  rw [Bool.and_eq_true, beq_iff_eq (a := m.start)]

end Equality

variable {W : Type} [Weight W] {codex grown : Codex W}

namespace State

/-- The state before its arcs are encoded: where weights are encoded, a final weight is moved onto
an arc to the superfinal state. -/
def unfold (flags : Flags) (superfinal : Nat) (s : State W) : State W :=
  if flags.weights && s.isFinal then
    { final := Weight.zero, arcs := s.arcs ++ [⟨epsilon, epsilon, s.final, superfinal⟩] }
  else s

/-- States with the same final weight and equal arcs. -/
def Alike (s t : State W) : Prop :=
  s.final = t.final ∧ List.Forall₂ (fun a b => (a == b) = true) s.arcs t.arcs

end State

/-! ## Encoding a state is encoding its arcs -/

namespace Codex

theorem encodeArcs_append (codex : Codex W) (xs ys : List (Arc W)) :
    codex.encodeArcs (xs ++ ys) =
      ((codex.encodeArcs xs).1 ++ ((codex.encodeArcs xs).2.encodeArcs ys).1,
        ((codex.encodeArcs xs).2.encodeArcs ys).2) := by
  induction xs generalizing codex with
  | nil => rfl
  | cons x xs ih => simp only [List.cons_append, encodeArcs, ih]

theorem encodeState_eq (codex : Codex W) (superfinal : Nat) (s : State W) :
    codex.encodeState superfinal s =
      ({ s.unfold codex.flags superfinal with
          arcs := (codex.encodeArcs (s.unfold codex.flags superfinal).arcs).1 },
        (codex.encodeArcs (s.unfold codex.flags superfinal).arcs).2) := by
  have hflags := (extends_encodeArcs codex s.arcs).flags_eq
  unfold encodeState State.unfold
  dsimp only
  rw [hflags]
  cases codex.flags.weights && s.isFinal with
  | false => rfl
  | true =>
    rw [if_pos rfl, if_pos rfl, encodeArcs_append]
    rfl

end Codex

namespace Machine

/-- A machine whose arcs lead to states of its own, and whose start state is one of them; a start
state that is none cannot be set (`Machine.setStart`). -/
structure WellFormed (m : Machine W) : Prop where
  target_lt : ∀ s ∈ m.states, ∀ arc ∈ s.arcs, arc.target < m.size
  start_lt : ∀ s ∈ m.start, s < m.size

/-! ## Decoding the states -/

theorem value_decodeStates (codex : Codex W) (number : Nat) (states : List (State W)) :
    (decodeStates codex number states).value = states.mapM (decodeState codex) := by
  induction states generalizing number with
  | nil => rfl
  | cons s states ih =>
    unfold decodeStates
    rw [List.mapM_cons]
    cases hs : decodeState codex s with
    | error e => rfl
    | ok decoded =>
      rw [Traced.value_bind, ih]
      cases states.mapM (decodeState codex) <;> rfl

/-- The machine without its superfinal state, if it has one and weights are encoded. -/
def refold (flags : Flags) (m : Machine W) : Machine W :=
  if flags.weights then
    match m.superfinal? with
    | none => m
    | some superfinal => m.foldSuperfinal superfinal
  else m

theorem value_decode (m : Machine W) (codex : Codex W) :
    (m.decode codex).value = (m.states.mapM (decodeState codex)).map fun states =>
      refold codex.flags { m with states } := by
  unfold decode refold
  rw [Traced.value_bind, value_decodeStates]
  cases m.states.mapM (decodeState codex) with
  | error e => rfl
  | ok states =>
    dsimp only [Except.map]
    cases codex.flags.weights with
    | false => rfl
    | true =>
      rw [if_pos rfl, if_pos rfl]
      cases ({ m with states } : Machine W).superfinal? <;> rfl

theorem decodeState_eq_ok {s : State W} {arcs : List (Arc W)}
    (h : s.arcs.mapM codex.decodeArc = .ok arcs) : decodeState codex s = .ok { s with arcs } := by
  rw [decodeState, h]

/-- Every codex in which the labels of the one after encoding a state keep their meaning decodes its
arcs. -/
theorem decodeState_encodeState [EquivBEq W] (codex : Codex W) (superfinal : Nat) (s : State W)
    (hkeeps : (codex.encodeState superfinal s).2.Keeps grown)
    (hfits : (codex.encodeState superfinal s).2.Fits) :
    ∃ decoded, decodeState grown (codex.encodeState superfinal s).1 = .ok decoded ∧
      decoded.Alike (s.unfold codex.flags superfinal) := by
  rw [Codex.encodeState_eq] at hkeeps hfits ⊢
  obtain ⟨arcs, harcs, hall⟩ := exists_mapM_eq_ok (Codex.restores_encodeArcs codex _ hkeeps hfits)
  exact ⟨_, decodeState_eq_ok harcs, rfl, hall⟩

theorem decodeStates_encodeStates [EquivBEq W] (codex : Codex W) (superfinal : Nat)
    (states : List (State W)) (hkeeps : (codex.encodeStates superfinal states).2.Keeps grown)
    (hfits : (codex.encodeStates superfinal states).2.Fits) :
    List.Forall₂ (fun encoded s => ∃ decoded, decodeState grown encoded = .ok decoded ∧
        decoded.Alike (s.unfold codex.flags superfinal))
      (codex.encodeStates superfinal states).1 states := by
  induction states generalizing codex with
  | nil => exact .nil
  | cons s states ih =>
    have hrest := Codex.extends_encodeStates (codex.encodeState superfinal s).2 superfinal states
    have hflags := (Codex.extends_encodeState codex superfinal s).flags_eq
    refine .cons (decodeState_encodeState codex superfinal s (hrest.keeps.trans hkeeps)
      (hrest.fits hfits)) ?_
    rw [← hflags]
    exact ih _ hkeeps hfits

/-! ## Folding the superfinal state away -/

/-- The final weight of a folded state is what the arcs to the superfinal state add to its own, and
its arcs are the others, also where no arc leads there. -/
theorem foldState_eq (superfinal : Nat) (s : State W) :
    foldState superfinal s =
      { final := (s.arcs.filter (·.target == superfinal)).foldl
          (fun sum arc => addFinal sum arc.weight) s.final
        arcs := s.arcs.filter (·.target != superfinal) } := by
  unfold foldState
  rw [List.partition_eq_filter_filter]
  dsimp only
  split
  · rename_i hmoved
    have hall : ∀ arc ∈ s.arcs, (arc.target != superfinal) = true := by
      simpa [List.filter_eq_nil_iff] using hmoved
    rw [List.isEmpty_iff.mp hmoved, List.filter_eq_self.mpr hall]
    rfl
  · rfl

theorem foldState_append {superfinal : Nat} {final : W} {arcs : List (Arc W)} {last : Arc W}
    (harcs : ∀ arc ∈ arcs, arc.target ≠ superfinal) (hlast : last.target = superfinal)
    (hfinal : (final == Weight.zero) = true) :
    foldState superfinal { final, arcs := arcs ++ [last] } = { final := last.weight, arcs } := by
  have hmoved : (arcs ++ [last]).filter (·.target == superfinal) = [last] := by
    rw [List.filter_append, List.filter_eq_nil_iff.mpr (by simpa using harcs)]
    simp [hlast]
  have hkept : (arcs ++ [last]).filter (·.target != superfinal) = arcs := by
    rw [List.filter_append, List.filter_eq_self.mpr (by simpa using harcs)]
    simp [hlast]
  rw [foldState_eq, hmoved, hkept]
  simp [addFinal, hfinal]

theorem foldState_of_not_entered {superfinal : Nat} {s : State W}
    (h : ∀ arc ∈ s.arcs, arc.target ≠ superfinal) : foldState superfinal s = s := by
  have hmoved : s.arcs.filter (·.target == superfinal) = [] :=
    List.filter_eq_nil_iff.mpr (by simpa using h)
  have hkept : s.arcs.filter (·.target != superfinal) = s.arcs :=
    List.filter_eq_self.mpr (by simpa using h)
  rw [foldState_eq, hmoved, hkept]
  rfl

/-- Folding undoes what was done to a state before its arcs were encoded. -/
theorem foldState_of_alike [EquivBEq W] {flags : Flags} {superfinal : Nat} {decoded s : State W}
    (hflags : flags.weights = true) (htarget : ∀ arc ∈ s.arcs, arc.target ≠ superfinal)
    (h : decoded.Alike (s.unfold flags superfinal)) :
    (foldState superfinal decoded == s) = true := by
  obtain ⟨final, arcs⟩ := decoded
  have hsame {xs : List (Arc W)} (hxs : List.Forall₂ (fun a b => (a == b) = true) xs s.arcs) :
      ∀ arc ∈ xs, arc.target ≠ superfinal := by
    intro arc harc
    obtain ⟨b, hb, heq⟩ := exists_of_mem_of_forall₂ hxs harc
    rw [(Arc.beq_iff.mp heq).2.2.2]
    exact htarget b hb
  unfold State.unfold at h
  rw [hflags, Bool.true_and] at h
  cases hfinal : s.isFinal with
  | false =>
    rw [hfinal] at h
    obtain ⟨rfl, harcs⟩ := h
    rw [foldState_of_not_entered (hsame harcs)]
    exact State.beq_iff.mpr ⟨BEq.rfl, beq_of_forall₂ harcs⟩
  | true =>
    rw [hfinal, if_pos rfl] at h
    obtain ⟨hzero, harcs⟩ := h
    dsimp only at hzero harcs
    -- the arcs of the state come first, and the one to the superfinal state last
    have hfront := List.forall₂_take_append _ _ _ harcs
    have hback := List.forall₂_drop_append _ _ _ harcs
    obtain ⟨last, rest, hlast, hrest, hdrop⟩ := List.forall₂_cons_right_iff.mp hback
    cases hrest
    have hsplit : arcs = arcs.take s.arcs.length ++ [last] := by
      rw [← hdrop, List.take_append_drop]
    obtain ⟨-, -, hweight, htarget'⟩ := Arc.beq_iff.mp hlast
    rw [hsplit, hzero, foldState_append (hsame hfront) htarget' BEq.rfl]
    exact State.beq_iff.mpr ⟨hweight, beq_of_forall₂ hfront⟩

/-! ## Recognising the superfinal state -/

/-- A machine whose last state is superfinal: not the start state, final with the weight one,
without arcs, the only final state, and entered only by arcs that read and write nothing. -/
structure HasSuperfinal (m : Machine W) (others : List (State W)) (last : State W) : Prop where
  states_eq : m.states = others ++ [last]
  start_ne : m.start ≠ some others.length
  final_one : (last.final == Weight.one) = true
  arcs_nil : last.arcs = []
  final_zero : ∀ s ∈ others, (s.final == Weight.zero) = true
  reads_nothing : ∀ s ∈ others, ∀ arc ∈ s.arcs, arc.target = others.length →
    arc.input = epsilon ∧ arc.output = epsilon

theorem hasSuperfinal_of_superfinal? {m : Machine W} {superfinal : Nat}
    (h : m.superfinal? = some superfinal) :
    ∃ others last, superfinal = others.length ∧ m.HasSuperfinal others last := by
  unfold superfinal? at h
  split at h
  · cases h
  · rename_i last hlast
    obtain ⟨others, hstates⟩ := List.getLast?_eq_some_iff.mp hlast
    have hsize : m.size - 1 = others.length := by simp [size, hstates]
    have hothers : m.states.dropLast = others := by simp [hstates]
    dsimp only at h
    rw [hsize, hothers] at h
    split at h
    · rename_i hseen
      obtain rfl := Option.some.inj h
      simp only [Bool.and_eq_true, bne_iff_ne, List.isEmpty_iff] at hseen
      obtain ⟨⟨⟨⟨hstart, hone⟩, harcs⟩, hadmits⟩, -⟩ := hseen
      have hadmits := List.all_eq_true.mp hadmits
      refine ⟨others, last, rfl, hstates, hstart, hone, harcs, ?_, ?_⟩
      · intro s hs
        simpa [State.isFinal] using (Bool.and_eq_true_iff.mp (hadmits s hs)).1
      · intro s hs arc harc htarget
        have hall := List.all_eq_true.mp (Bool.and_eq_true_iff.mp (hadmits s hs)).2 arc harc
        simpa [htarget] using hall
    · cases h

/-- What is left of a machine with a superfinal state are the others, folded. -/
theorem HasSuperfinal.foldSuperfinal_eq {m : Machine W} {others : List (State W)}
    {last : State W} (h : m.HasSuperfinal others last) :
    m.foldSuperfinal others.length = { m with states := others.map (foldState others.length) } := by
  rw [foldSuperfinal, h.states_eq, List.dropLast_concat]

/-- No superfinal state is seen where no state is final. -/
theorem superfinal?_eq_none [EquivBEq W] (hzero : (Weight.zero == (Weight.one : W)) = false)
    {m : Machine W} (h : ∀ s ∈ m.states, s.isFinal = false) : m.superfinal? = none := by
  unfold superfinal?
  cases hlast : m.states.getLast? with
  | none => rfl
  | some last =>
    have hfinal : (last.final == Weight.zero) = true := by
      simpa [State.isFinal] using h last (List.mem_of_getLast? hlast)
    have hone : (last.final == Weight.one) = false := by
      by_contra hone
      rw [Bool.not_eq_false] at hone
      rw [BEq.trans (BEq.symm hfinal) hone] at hzero
      cases hzero
    simp [hone]

/-- An added state is seen where the other states admit and enter it. -/
theorem superfinal?_eq_some [ReflBEq W] {others : List (State W)} {start : Option Nat}
    (hstart : start ≠ some others.length) (hadmits : admitsSuperfinal others.length others = true)
    (henters : entersSuperfinal others.length others = true) :
    ({ states := others ++ [{ final := Weight.one }], start } : Machine W).superfinal? =
      some others.length := by
  simp [superfinal?, size, hstart, hadmits, henters]

theorem isFinal_of_alike_unfold [ReflBEq W] {flags : Flags} {superfinal : Nat}
    {decoded s : State W} (hflags : flags.weights = true)
    (h : decoded.Alike (s.unfold flags superfinal)) : decoded.isFinal = false := by
  unfold State.isFinal
  rw [h.1]
  unfold State.unfold
  rw [hflags, Bool.true_and]
  cases hfinal : s.isFinal with
  | false => exact hfinal
  | true => simp

/-- An arc of a decoded state is one that the state had, or leads to the superfinal state and
neither reads nor writes. -/
theorem arc_of_alike_unfold {flags : Flags} {superfinal : Nat} {decoded s : State W}
    (h : decoded.Alike (s.unfold flags superfinal)) {arc : Arc W} (harc : arc ∈ decoded.arcs) :
    (∃ a ∈ s.arcs, arc.target = a.target) ∨ (arc.input = epsilon ∧ arc.output = epsilon) := by
  obtain ⟨a, ha, heq⟩ := exists_of_mem_of_forall₂ h.2 harc
  obtain ⟨hinput, houtput, -, htarget⟩ := Arc.beq_iff.mp heq
  unfold State.unfold at ha
  split at ha
  · rcases List.mem_append.mp ha with ha | ha
    · exact Or.inl ⟨a, ha, htarget⟩
    · rw [List.mem_singleton.mp ha] at hinput houtput
      exact Or.inr ⟨hinput, houtput⟩
  · exact Or.inl ⟨a, ha, htarget⟩

theorem admitsSuperfinal_of_alike [ReflBEq W] {flags : Flags} {superfinal : Nat}
    {decoded states : List (State W)} (hflags : flags.weights = true)
    (htarget : ∀ s ∈ states, ∀ arc ∈ s.arcs, arc.target ≠ superfinal)
    (h : List.Forall₂ (fun d s => d.Alike (s.unfold flags superfinal)) decoded states) :
    admitsSuperfinal superfinal decoded = true := by
  unfold admitsSuperfinal
  rw [List.all_eq_true]
  intro d hd
  obtain ⟨s, hs, halike⟩ := exists_of_mem_of_forall₂ h hd
  rw [isFinal_of_alike_unfold hflags halike, Bool.not_false, Bool.true_and, List.all_eq_true]
  intro arc harc
  rcases arc_of_alike_unfold halike harc with ⟨a, ha, heq⟩ | ⟨hinput, houtput⟩
  · have := htarget s hs a ha
    simp [heq, this]
  · simp [hinput, houtput]

theorem entersSuperfinal_of_alike {flags : Flags} {superfinal : Nat}
    {decoded states : List (State W)} (hflags : flags.weights = true)
    (hfinal : states.any State.isFinal = true)
    (h : List.Forall₂ (fun d s => d.Alike (s.unfold flags superfinal)) decoded states) :
    entersSuperfinal superfinal decoded = true := by
  unfold entersSuperfinal
  induction h with
  | nil => cases hfinal
  | @cons d s decoded states halike _ ih =>
    rw [List.any_cons, Bool.or_eq_true] at hfinal ⊢
    rcases hfinal with hfinal | hfinal
    · left
      have harcs := halike.2
      unfold State.unfold at harcs
      rw [hflags, hfinal, Bool.true_and, if_pos rfl] at harcs
      have hback := List.forall₂_drop_append _ _ _ harcs
      obtain ⟨last, rest, hlast, -, hdrop⟩ := List.forall₂_cons_right_iff.mp hback
      rw [List.any_eq_true]
      refine ⟨last, List.mem_of_mem_drop (hdrop ▸ List.mem_cons_self), ?_⟩
      rw [beq_iff_eq]
      exact (Arc.beq_iff.mp hlast).2.2.2
    · exact Or.inr (ih hfinal)

/-- States whose final weights stay where they are, are decoded to equal states. -/
theorem forall₂_beq_of_alike [ReflBEq W] {flags : Flags} {superfinal : Nat}
    {decoded states : List (State W)}
    (hplain : ∀ s ∈ states, (flags.weights && s.isFinal) = false)
    (h : List.Forall₂ (fun d s => d.Alike (s.unfold flags superfinal)) decoded states) :
    List.Forall₂ (fun d s => (d == s) = true) decoded states := by
  refine forall₂_imp_of_mem h fun d s hs halike => ?_
  unfold State.unfold at halike
  rw [hplain s hs, if_neg Bool.false_ne_true] at halike
  refine State.beq_iff.mpr ⟨?_, beq_of_forall₂ halike.2⟩
  rw [halike.1]
  exact BEq.rfl

/-- Refolding gives the machine back that was unfolded and whose arcs were encoded and decoded. -/
theorem refold_of_alike [EquivBEq W] (hzero : (Weight.zero == (Weight.one : W)) = false)
    {flags : Flags} {m : Machine W} (hm : m.WellFormed) {decoded : List (State W)}
    (h : List.Forall₂ (fun d s => d.Alike (s.unfold flags m.size)) decoded m.states) :
    (refold flags { m with states :=
        decoded ++ if m.needsSuperfinal flags then [{ final := Weight.one }] else [] } == m) =
      true := by
  unfold refold needsSuperfinal
  cases hflags : flags.weights with
  | false =>
    have hsame := forall₂_beq_of_alike (fun s _ => by rw [hflags, Bool.false_and]) h
    rw [Bool.false_and, if_neg Bool.false_ne_true, if_neg Bool.false_ne_true, List.append_nil]
    exact Machine.beq_iff.mpr ⟨beq_of_forall₂ hsame, rfl⟩
  | true =>
    rw [Bool.true_and, if_pos rfl]
    cases hfinal : m.states.any State.isFinal with
    | false =>
      -- no state was added, and none may be taken for one
      have hnone : ∀ s ∈ m.states, s.isFinal = false := by simpa using hfinal
      have hsame := forall₂_beq_of_alike (fun s hs => by rw [hnone s hs, Bool.and_false]) h
      rw [if_neg Bool.false_ne_true, List.append_nil, superfinal?_eq_none hzero]
      · exact Machine.beq_iff.mpr ⟨beq_of_forall₂ hsame, rfl⟩
      · intro d hd
        obtain ⟨s, hs, halike⟩ := exists_of_mem_of_forall₂ h hd
        exact isFinal_of_alike_unfold hflags halike
    | true =>
      have hlength : decoded.length = m.size := h.length_eq
      have htarget : ∀ s ∈ m.states, ∀ arc ∈ s.arcs, arc.target ≠ m.size :=
        fun s hs arc harc => Nat.ne_of_lt (hm.target_lt s hs arc harc)
      have hstart : m.start ≠ some decoded.length := by
        intro hstart
        have := hm.start_lt _ hstart
        omega
      have hadmits := admitsSuperfinal_of_alike hflags htarget h
      have henters := entersSuperfinal_of_alike hflags hfinal h
      rw [← hlength] at hadmits henters
      rw [if_pos rfl, superfinal?_eq_some hstart hadmits henters]
      refine Machine.beq_iff.mpr ⟨?_, rfl⟩
      unfold foldSuperfinal
      rw [List.dropLast_concat, hlength]
      refine beq_of_forall₂ (List.forall₂_map_left_iff.mpr ?_)
      exact forall₂_imp_of_mem h fun d s hs halike =>
        foldState_of_alike hflags (htarget s hs) halike

/-! ## Machines -/

/-- A machine is restored by every codex in which the labels of the one after encoding it keep their
meaning. -/
theorem decode_encode_of_keeps [EquivBEq W]
    (hzero : (Weight.zero == (Weight.one : W)) = false) {m : Machine W} (hm : m.WellFormed)
    {codex grown : Codex W} (hkeeps : (m.encode codex).value.2.Keeps grown)
    (hfits : (m.encode codex).value.2.Fits) :
    ∃ restored, ((m.encode codex).value.1.decode grown).value = .ok restored ∧
      (restored == m) = true := by
  have hflags := ((Codex.extends_machine_encode m codex).keeps.trans hkeeps).flags_eq
  obtain ⟨decoded, hdecoded, halike⟩ := exists_mapM_eq_ok
    (decodeStates_encodeStates codex m.size m.states hkeeps hfits)
  generalize hadded : (if m.needsSuperfinal codex.flags then [{ final := Weight.one }] else [] :
    List (State W)) = added
  have hself : added.mapM (decodeState grown) = .ok added := by
    rw [← hadded]
    split <;> rfl
  have hstates : (m.encode codex).value.1 =
      { m with states := (codex.encodeStates m.size m.states).1 ++ added } := by
    rw [← hadded]
    rfl
  refine ⟨_, ?_, refold_of_alike hzero hm halike⟩
  rw [hstates, value_decode, List.mapM_append, hdecoded, hself, hflags, hadded]
  rfl

/-- Encodes machines one after another with one codex, which grows as needed. -/
def encodeAll (codex : Codex W) : List (Machine W) → List (Machine W) × Codex W
  | [] => ([], codex)
  | m :: rest =>
    let (encoded, codex) := (m.encode codex).value
    let (others, codex) := encodeAll codex rest
    (encoded :: others, codex)

theorem extends_encodeAll (codex : Codex W) (machines : List (Machine W)) :
    codex.Extends (encodeAll codex machines).2 := by
  induction machines generalizing codex with
  | nil => exact Codex.Extends.refl codex
  | cons m machines ih => exact (Codex.extends_machine_encode m codex).trans (ih _)

theorem decode_encodeAll_of_extends [EquivBEq W]
    (hzero : (Weight.zero == (Weight.one : W)) = false) {codex grown : Codex W}
    {machines : List (Machine W)} (hm : ∀ m ∈ machines, m.WellFormed)
    (hext : (encodeAll codex machines).2.Extends grown) (hfits : grown.Fits) :
    List.Forall₂ (fun encoded m => ∃ restored,
        (encoded.decode grown).value = .ok restored ∧ (restored == m) = true)
      (encodeAll codex machines).1 machines := by
  induction machines generalizing codex with
  | nil => exact .nil
  | cons m machines ih =>
    obtain ⟨hfirst, hrest⟩ := List.forall_mem_cons.mp hm
    have hlater := extends_encodeAll (m.encode codex).value.2 machines
    have hgrown := hlater.trans hext
    exact .cons (decode_encode_of_keeps hzero hfirst hgrown.keeps (hgrown.fits hfits))
      (ih hrest hext)

/-- **Machines encoded with one codex are all restored by what it has grown into.**  Decoding leaves
the codex as it is, so the order does not matter. -/
theorem decode_encodeAll [EquivBEq W] (hzero : (Weight.zero == (Weight.one : W)) = false)
    (codex : Codex W) {machines : List (Machine W)} (hm : ∀ m ∈ machines, m.WellFormed)
    (hfits : (encodeAll codex machines).2.Fits) :
    List.Forall₂ (fun encoded m => ∃ restored,
        (encoded.decode (encodeAll codex machines).2).value = .ok restored ∧
          (restored == m) = true)
      (encodeAll codex machines).1 machines :=
  decode_encodeAll_of_extends hzero hm (Codex.Extends.refl _) hfits

/-- A machine with a loop that reads nothing, then one whose start state is final. -/
theorem decode_encodeAll_of_loop :
    let looping : Machine Tropical :=
      { states := [{ final := ⟨Binary.zero true⟩, arcs := [⟨0, 3, ⟨.quiet true⟩, 0⟩] }]
        start := some 0 }
    let final : Machine Tropical :=
      { states := [{ final := Weight.zero, arcs := [⟨1, 1, Weight.one, 1⟩] },
          { final := ⟨.quiet true⟩ }]
        start := some 1 }
    let codex : Codex Tropical := .empty ⟨true, true⟩
    ((Weight.zero : Tropical) == Weight.one) = false ∧
      (∀ m ∈ [looping, final], m.WellFormed) ∧
      (encodeAll codex [looping, final]).2.Fits ∧
      List.Forall₂ (fun encoded m => ∃ restored,
          (encoded.decode (encodeAll codex [looping, final]).2).value = .ok restored ∧
            (restored == m) = true)
        (encodeAll codex [looping, final]).1 [looping, final] := by
  intro looping final codex
  have hformed : ∀ m ∈ [looping, final], m.WellFormed := by
    intro m hm
    rcases List.mem_cons.mp hm with rfl | hm
    · exact ⟨by decide, by decide⟩
    · rw [List.mem_singleton.mp hm]
      exact ⟨by decide, by decide⟩
  have hfits : (encodeAll codex [looping, final]).2.Fits := by
    unfold Codex.Fits
    decide +kernel
  exact ⟨Tropical.zero_ne_one, hformed, hfits,
    decode_encodeAll Tropical.zero_ne_one codex hformed hfits⟩

end Machine
end WeightedTransducer
