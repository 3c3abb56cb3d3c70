import WeightedTransducer.Proofs.Codex.EncodeInPlace
import WeightedTransducer.Proofs.Codex.Reuse

/-!
# No arc leads nowhere

Arcs and the start state are bare numbers of states, so whatever takes a state away has to take
everything away that leads there, or a state that is added later is found under the old number.
A call on a machine is an `Operation`.  It makes another machine of it or is refused
(`Operation.result`), and when it is refused, the machine is left as it was
(`Operation.value_runOn_work`), although some calls do their work step by step.  Every operation
keeps a machine well formed, so every machine that calls have made of the empty one is
(`Machine.Reached.wellFormed_and_unchanged`).
-/

namespace WeightedTransducer

/-- A call that changes a machine. -/
inductive Operation (W : Type) where
  /-- Add a state. -/
  | addState
  /-- Make a state the start state. -/
  | setStart (state : Nat)
  /-- Give a state a final weight. -/
  | setFinal (state : Nat) (weight : W)
  /-- Add an arc to a state. -/
  | addArc (state : Nat) (arc : Arc W)
  /-- Replace the arcs of a state. -/
  | setArcs (state : Nat) (arcs : List (Arc W))
  /-- Remove the last state. -/
  | deleteLast
  /-- Encode the machine. -/
  | encode (codex : Codex W)
  /-- Decode the machine. -/
  | decode (codex : Codex W)

namespace Operation
variable {W : Type} {m after : Machine W}

/-- A call as it has to be made: arcs that are put into a state lead to states of the machine. -/
def Admitted (m : Machine W) : Operation W → Prop
  | setArcs _ arcs => ∀ arc ∈ arcs, arc.target < m.size
  | _ => True

/-- What a call gives back and leaves: the machine that it makes, or the one before. -/
def finish (m : Machine W) : Except Stop (Machine W) → Except Stop Unit × Machine W
  | .ok after => (.ok (), after)
  | .error stop => (.error stop, m)

theorem finish_eq_error {stop : Stop} {result : Except Stop (Machine W)}
    (h : finish m result = (.error stop, after)) : after = m := by
  cases result with
  | ok made => cases h
  | error stop' =>
    cases h
    rfl

theorem value_runOn_edit (operation : Machine W → Except MachineFault (Machine W)) :
    ((Work.edit operation).runOn m).value = finish m ((operation m).mapError .fault) := by
  unfold Work.edit
  rw [Work.runOn_bind_of_ok Work.runOn_get]
  cases operation m <;> rfl

variable [Weight W]

/-- The work that a call does. -/
def work : Operation W → Work W Unit
  | addState => Work.edit (.ok ·.addState)
  | setStart state => Work.edit (·.setStart state)
  | setFinal state weight => Work.edit (·.setFinal state weight)
  | addArc state arc => Work.edit (·.addArc state arc)
  | setArcs state arcs => Work.edit (·.setArcs state arcs)
  | deleteLast => Work.edit (.ok ·.deleteLast)
  | encode codex => do
    let _ ← Machine.encodeInPlace codex
    pure ()
  | decode codex => Machine.decodeInPlace codex

/-- The machine that a call makes of another, or what it is refused with. -/
def result (m : Machine W) : Operation W → Except Stop (Machine W)
  | addState => .ok m.addState
  | setStart state => (m.setStart state).mapError .fault
  | setFinal state weight => (m.setFinal state weight).mapError .fault
  | addArc state arc => (m.addArc state arc).mapError .fault
  | setArcs state arcs => (m.setArcs state arcs).mapError .fault
  | deleteLast => .ok m.deleteLast
  | encode codex => .ok (m.encode codex).value.1
  | decode codex => (m.decode codex).value.mapError .error

/-- **A call makes another machine or leaves the machine as it was**, whatever work it does. -/
theorem value_runOn_work (call : Operation W) (m : Machine W) :
    (call.work.runOn m).value = finish m (call.result m) := by
  cases call with
  | encode codex =>
    have hencode := Machine.runOn_encodeInPlace m codex
    show ((Machine.encodeInPlace codex >>= fun _ => pure ()).runOn m).value = _
    rw [Work.runOn_bind, hencode]
    rfl
  | decode codex =>
    show ((Machine.decodeInPlace codex).runOn m).value =
      finish m ((m.decode codex).value.mapError .error)
    rw [Machine.runOn_decodeInPlace, Traced.value_map]
    cases (m.decode codex).value <;> rfl
  | _ => exact value_runOn_edit _

end Operation

namespace Machine
variable {W : Type} {m after : Machine W}

/-! ## Every operation keeps a machine well formed -/

theorem mem_arcs_iff {arc : Arc W} : arc ∈ m.arcs ↔ ∃ s ∈ m.states, arc ∈ s.arcs :=
  List.mem_flatMap

theorem wellFormed_empty : (empty : Machine W).WellFormed :=
  ⟨nofun, nofun⟩

theorem WellFormed.setStart {number : Nat} (h : m.WellFormed)
    (hset : m.setStart number = .ok after) : after.WellFormed := by
  unfold Machine.setStart at hset
  split at hset
  · cases hset
    exact ⟨h.target_lt, fun s hs => Option.some.inj hs ▸ ‹number < m.size›⟩
  · cases hset

/-- A machine that has lost no state, and whose start state was not touched, is well formed if its
arcs lead to states. -/
theorem WellFormed.of_size_le (h : m.WellFormed) (hsize : m.size ≤ after.size)
    (hstart : after.start = m.start)
    (htarget : ∀ s ∈ after.states, ∀ arc ∈ s.arcs, arc.target < after.size) : after.WellFormed :=
  ⟨htarget, fun s hs => Nat.lt_of_lt_of_le (h.start_lt s (hstart ▸ hs)) hsize⟩

/-- A machine that has lost its last state is well formed if nothing leads there any more. -/
theorem WellFormed.of_size_eq_succ (h : m.WellFormed) (hsize : m.size = after.size + 1)
    (hstart : ∀ s ∈ after.start, s ∈ m.start ∧ s ≠ after.size)
    (htarget : ∀ t ∈ after.states, ∀ arc ∈ t.arcs,
      arc.target ≠ after.size ∧ ∃ s ∈ m.states, arc ∈ s.arcs) : after.WellFormed := by
  constructor
  · intro t ht arc harc
    obtain ⟨hne, s, hs, harc⟩ := htarget t ht arc harc
    have := h.target_lt s hs arc harc
    omega
  · intro s hs
    obtain ⟨hstart, hne⟩ := hstart s hs
    have := h.start_lt s hstart
    omega

/-- A state may be changed into one whose arcs lead to states of the machine. -/
theorem WellFormed.modify {number : Nat} {change : State W → State W} (h : m.WellFormed)
    (hchange : ∀ s ∈ m.states, ∀ arc ∈ (change s).arcs, arc.target < m.size)
    (hmodify : m.modify number change = .ok after) : after.WellFormed := by
  unfold Machine.modify at hmodify
  split at hmodify
  · cases hmodify
    have hsize : (m.states.modify number change).length = m.size := List.length_modify ..
    refine h.of_size_le hsize.ge rfl ?_
    intro s hs arc harc
    obtain ⟨i, hi⟩ := List.mem_iff_getElem?.mp hs
    rw [List.getElem?_modify] at hi
    obtain ⟨t, ht, rfl⟩ := Option.map_eq_some_iff.mp hi
    have hmem : t ∈ m.states := List.mem_iff_getElem?.mpr ⟨i, ht⟩
    refine Nat.lt_of_lt_of_eq ?_ hsize.symm
    split at harc
    · exact hchange t hmem arc harc
    · exact h.target_lt t hmem arc harc
  · cases hmodify

theorem WellFormed.setFinal {number : Nat} {weight : W} (h : m.WellFormed)
    (hset : m.setFinal number weight = .ok after) : after.WellFormed := by
  unfold Machine.setFinal at hset
  refine h.modify ?_ hset
  exact h.target_lt

theorem WellFormed.addArc {number : Nat} {arc : Arc W} (h : m.WellFormed)
    (hadd : m.addArc number arc = .ok after) : after.WellFormed := by
  unfold Machine.addArc at hadd
  split at hadd
  · rename_i htarget
    refine h.modify ?_ hadd
    intro s hs a ha
    rcases List.mem_append.mp ha with ha | ha
    · exact h.target_lt s hs a ha
    · rw [List.mem_singleton.mp ha]
      exact htarget
  · cases hadd

theorem WellFormed.setArcs {number : Nat} {arcs : List (Arc W)} (h : m.WellFormed)
    (harcs : ∀ arc ∈ arcs, arc.target < m.size) (hset : m.setArcs number arcs = .ok after) :
    after.WellFormed :=
  h.modify (fun _ _ => harcs) hset

/-- Deleting the last state takes the arcs away that lead there. -/
theorem WellFormed.deleteLast (h : m.WellFormed) : m.deleteLast.WellFormed := by
  unfold Machine.deleteLast
  split
  · exact h
  · rename_i last hlast
    have hsize : (m.states.dropLast.map fun s : State W =>
        { s with arcs := s.arcs.filter (·.target != last) }).length = last := by
      have : m.states.length = last + 1 := hlast
      simp [this]
    refine h.of_size_eq_succ (hlast.trans (congrArg (· + 1) hsize.symm)) ?_ ?_
    · intro s hs
      dsimp only at hs
      split at hs
      · cases hs
      · rename_i hstart
        exact ⟨hs, fun heq => hstart (hs.trans (congrArg some (heq.trans hsize)))⟩
    · intro t ht arc harc
      obtain ⟨s, hs, rfl⟩ := List.mem_map.mp ht
      obtain ⟨hmem, hne⟩ := List.mem_filter.mp harc
      exact ⟨fun heq => bne_iff_ne.mp hne (heq.trans hsize), s, List.mem_of_mem_dropLast hs, hmem⟩

variable [Weight W]

theorem WellFormed.addState (h : m.WellFormed) : m.addState.WellFormed := by
  have hsize : m.addState.size = m.size + 1 := List.length_append
  refine h.of_size_le (by omega) rfl ?_
  intro s hs arc harc
  rcases List.mem_append.mp hs with hs | hs
  · have := h.target_lt s hs arc harc
    omega
  · rw [List.mem_singleton.mp hs] at harc
    cases harc

/-! ## Encoding and decoding -/

/-- Encoding an arc does not touch where it leads to. -/
theorem map_target_encodeArcs (codex : Codex W) (arcs : List (Arc W)) :
    (codex.encodeArcs arcs).1.map Arc.target = arcs.map Arc.target := by
  induction arcs generalizing codex with
  | nil => rfl
  | cons arc arcs ih => exact congrArg (arc.target :: ·) (ih _)

/-- An arc that is met while a machine is encoded leads to a state, or to the superfinal state that
is added. -/
theorem target_lt_of_mem_unfoldedArcs {flags : Flags} {arc : Arc W} (h : m.WellFormed)
    (harc : arc ∈ m.unfoldedArcs flags) :
    arc.target < m.size ∨ arc.target = m.size ∧ m.needsSuperfinal flags = true := by
  obtain ⟨s, hs, harc⟩ := List.mem_flatMap.mp harc
  unfold State.unfold at harc
  split at harc
  · rename_i hfinal
    rcases List.mem_append.mp harc with harc | harc
    · exact Or.inl (h.target_lt s hs arc harc)
    · rw [List.mem_singleton.mp harc]
      obtain ⟨hweights, hfinal⟩ := Bool.and_eq_true_iff.mp hfinal
      exact Or.inr ⟨rfl, Bool.and_eq_true_iff.mpr ⟨hweights, List.any_eq_true.mpr ⟨s, hs, hfinal⟩⟩⟩
  · exact Or.inl (h.target_lt s hs arc harc)

theorem length_encodeStates (codex : Codex W) (superfinal : Nat) (states : List (State W)) :
    (codex.encodeStates superfinal states).1.length = states.length := by
  induction states generalizing codex with
  | nil => rfl
  | cons s states ih => exact congrArg (· + 1) (ih _)

/-- Encoding adds the superfinal state where it is needed, and no other. -/
theorem size_encode (m : Machine W) (codex : Codex W) :
    (m.encode codex).value.1.size =
      m.size + (if m.needsSuperfinal codex.flags then 1 else 0) := by
  show ((codex.encodeStates m.size m.states).1 ++ _).length = _
  rw [List.length_append, length_encodeStates]
  cases m.needsSuperfinal codex.flags <;> rfl

theorem WellFormed.encode (h : m.WellFormed) (codex : Codex W) :
    (m.encode codex).value.1.WellFormed := by
  have hsize := size_encode m codex
  refine h.of_size_le (by omega) rfl ?_
  intro s hs arc harc
  have hmem : arc ∈ (m.encode codex).value.1.arcs := mem_arcs_iff.mpr ⟨s, hs, harc⟩
  rw [arcs_encode] at hmem
  have htarget := List.mem_map_of_mem (f := Arc.target) hmem
  rw [map_target_encodeArcs] at htarget
  obtain ⟨a, ha, htarget⟩ := List.mem_map.mp htarget
  rw [← htarget, hsize]
  rcases target_lt_of_mem_unfoldedArcs h ha with hlt | ⟨heq, hneeds⟩
  · exact Nat.lt_add_right _ hlt
  · rw [if_pos hneeds]
    omega

/-- Decoding an arc does not touch where it leads to. -/
theorem target_of_decodeArc {codex : Codex W} {arc decoded : Arc W}
    (h : codex.decodeArc arc = .ok decoded) : decoded.target = arc.target := by
  unfold Codex.decodeArc at h
  split at h
  · cases h
    rfl
  · split at h
    · cases h
    · split at h
      · cases h
      · split at h
        · cases h
        · cases h
          rfl

/-- Folding takes the superfinal state away with the arcs that lead there; the start state stays. -/
theorem WellFormed.refold (h : m.WellFormed) (flags : Flags) : (refold flags m).WellFormed := by
  unfold Machine.refold
  split
  · split
    · exact h
    · rename_i superfinal hseen
      obtain ⟨others, last, rfl, hs⟩ := hasSuperfinal_of_superfinal? hseen
      have hfolded : (others.map (foldState others.length)).length = others.length :=
        List.length_map _
      rw [hs.foldSuperfinal_eq]
      refine h.of_size_eq_succ (by simp [size, hs.states_eq]) ?_ ?_
      · intro s hstart
        exact ⟨hstart, fun heq => hs.start_ne (hstart.trans (congrArg some (heq.trans hfolded)))⟩
      · intro t ht arc harc
        obtain ⟨s, hmem, rfl⟩ := List.mem_map.mp ht
        have hne := target_ne_of_mem_foldState harc
        rw [foldState_eq] at harc
        exact ⟨fun heq => hne (heq.trans hfolded), s, by simp [hs.states_eq, hmem],
          (List.mem_filter.mp harc).1⟩
  · exact h

theorem WellFormed.decode {codex : Codex W} (h : m.WellFormed)
    (hdecode : (m.decode codex).value = .ok after) : after.WellFormed := by
  obtain ⟨states, hstates, rfl⟩ := value_decode_eq_ok_iff.mp hdecode
  have hsize : states.length = m.size := hstates.length_eq.symm
  have hformed : ({ m with states } : Machine W).WellFormed := by
    refine h.of_size_le hsize.ge rfl ?_
    intro t ht arc harc
    obtain ⟨s, hs, hdecodes⟩ := exists_of_mem_of_forall₂ hstates.flip ht
    obtain ⟨a, ha, harc⟩ := exists_of_mem_of_forall₂ hdecodes.2.flip harc
    rw [target_of_decodeArc harc]
    exact Nat.lt_of_lt_of_eq (h.target_lt s hs a ha) hsize.symm
  exact hformed.refold codex.flags

/-! ## Calls -/

theorem mapError_eq_ok {ε δ α : Type} {f : ε → δ} {made : Except ε α} {a : α}
    (h : made.mapError f = .ok a) : made = .ok a := by
  cases made with
  | ok b =>
    cases h
    rfl
  | error e => cases h

/-- A call that makes another machine makes a well formed one. -/
theorem WellFormed.result {call : Operation W} (h : m.WellFormed) (hcall : call.Admitted m)
    (hresult : call.result m = .ok after) : after.WellFormed := by
  cases call with
  | addState => exact Except.ok.inj hresult ▸ h.addState
  | setStart number => exact h.setStart (mapError_eq_ok hresult)
  | setFinal number weight => exact h.setFinal (mapError_eq_ok hresult)
  | addArc number arc => exact h.addArc (mapError_eq_ok hresult)
  | setArcs number arcs => exact h.setArcs hcall (mapError_eq_ok hresult)
  | deleteLast => exact Except.ok.inj hresult ▸ h.deleteLast
  | encode codex => exact Except.ok.inj hresult ▸ h.encode codex
  | decode codex => exact h.decode (mapError_eq_ok hresult)

/-- Every call leaves a well formed machine, also one that is refused. -/
theorem WellFormed.call {call : Operation W} (h : m.WellFormed) (hcall : call.Admitted m) :
    (call.work.runOn m).value.2.WellFormed := by
  rw [Operation.value_runOn_work]
  cases hresult : call.result m with
  | ok after => exact h.result hcall hresult
  | error stop => exact h

/-! ## Runs -/

/-- The machines that calls have made of the empty one, one after another, whether they were refused
or not. -/
inductive Reached : Machine W → Prop
  | empty : Reached empty
  | call {m : Machine W} (h : Reached m) (call : Operation W) (hcall : call.Admitted m) :
    Reached (call.work.runOn m).value.2

theorem Reached.wellFormed (h : Reached m) : m.WellFormed := by
  induction h with
  | empty => exact wellFormed_empty
  | call _ call hcall ih => exact ih.call hcall

/-- **No arc of a machine leads nowhere, whatever calls have made it**, its start state is one of
its states, and a call that is refused leaves the machine as it was. -/
theorem Reached.wellFormed_and_unchanged (h : Reached m) :
    (∀ s ∈ m.states, ∀ arc ∈ s.arcs, arc.target < m.size) ∧ (∀ s ∈ m.start, s < m.size) ∧
      ∀ (call : Operation W) (stop : Stop) (after : Machine W),
        (call.work.runOn m).value = (.error stop, after) → after = m := by
  refine ⟨h.wellFormed.target_lt, h.wellFormed.start_lt, ?_⟩
  intro call stop after hrefused
  rw [Operation.value_runOn_work] at hrefused
  exact Operation.finish_eq_error hrefused

/-- Encoding has added a superfinal state, which was then deleted with the arc that led there.
Decoding with a codex that lacks the labels is refused. -/
theorem unchanged_of_refused_decode :
    let codex : Codex Boolean := .empty ⟨true, true⟩
    let calls : List (Operation Boolean) :=
      [.addState, .addState, .setStart 2, .setStart 0, .addArc 0 ⟨1, 2, .yes, 1⟩, .setFinal 1 .yes,
        .encode codex, .deleteLast]
    let m := calls.foldl (fun m call => (call.work.runOn m).value.2) empty
    let refused := ((Operation.decode codex).work.runOn m).value
    Reached m ∧ m.size = 2 ∧ m.start = some 0 ∧ m.states.map (·.arcs.map Arc.target) = [[1], []] ∧
      refused.1 = .error (.error (.unknownLabel 1)) ∧ refused.2 = m := by
  intro codex calls m refused
  have hreached : Reached m := by
    dsimp only [m, calls, List.foldl_cons, List.foldl_nil]
    repeat
      refine Reached.call ?_ _ trivial
    exact Reached.empty
  have hrefused : refused.1 = .error (.error (.unknownLabel 1)) := by decide +kernel
  have hstopped : refused = (.error (.error (.unknownLabel 1)), refused.2) := by
    rw [← hrefused]
  have hsame : refused.2 = m :=
    hreached.wellFormed_and_unchanged.2.2 (.decode codex) _ refused.2 hstopped
  exact ⟨hreached, by decide +kernel, by decide +kernel, by decide +kernel, hrefused, hsame⟩

end Machine
end WeightedTransducer
