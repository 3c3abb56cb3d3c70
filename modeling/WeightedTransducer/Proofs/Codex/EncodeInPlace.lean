import WeightedTransducer.Proofs.Codex.InPlace

/-!
# Encoding in place comes to encoding

`Machine.encodeInPlace` rewrites the states one after another and adds the superfinal state in the
middle of that, when the first final state asks for it.  A machine on the way has a front of encoded
states, the states still to come, and the superfinal state at the end if it was needed so far
(`superfinalState`); its number is the number of states at the beginning all along.
`Machine.runOn_encodeInPlace` says that the work does what `Machine.encode` describes and is never
stopped.
-/

namespace WeightedTransducer
namespace Machine
variable {W : Type} [Weight W] {m : Machine W} {front back : List (State W)} {s : State W}

/-- The superfinal state, as the states at the end of the machine, if it was needed so far. -/
def superfinalState (needed : Bool) : List (State W) :=
  if needed then [{ final := Weight.one }] else []

/-- The number of the superfinal state, if it was needed so far. -/
def superfinalNumber (needed : Bool) (superfinal : Nat) : Option Nat :=
  if needed then some superfinal else none

/-! ## One state among the others -/

/-- Asking for the superfinal state adds it at the end where there is none. -/
theorem runOn_needSuperfinal (needed : Bool) {states : List (State W)}
    (h : m.states = states ++ superfinalState needed) :
    (needSuperfinal (superfinalNumber needed states.length)).runOn m =
      pure (.ok states.length, { m with states := states ++ superfinalState true }) := by
  cases needed with
  | true =>
    rw [← h]
    rfl
  | false =>
    have hstates : m.states = states := by simpa [superfinalState] using h
    have hsize : m.size = m.states.length := rfl
    have hadded : m.addState.states = m.states ++ { final := Weight.zero } :: [] := rfl
    have hfinal := modify_eq_ok hadded ({ · with final := Weight.one })
    unfold superfinalNumber needSuperfinal
    rw [if_neg Bool.false_ne_true]
    dsimp only
    rw [Work.runOn_bind_of_ok Work.runOn_get, Work.runOn_bind_of_ok rfl, hsize,
      Work.runOn_bind_of_ok (Work.runOn_edit hfinal), hstates]
    rfl

/-- One state of the pass: it is encoded where it stands, and the superfinal state is there
afterwards if it was before or the state is final. -/
theorem runOn_encodeAt (codex : Codex W) (needed : Bool)
    (h : m.states = front ++ s :: (back ++ superfinalState needed)) {superfinal : Nat}
    (hsuperfinal : superfinal = (front ++ s :: back).length) :
    (encodeAt (codex, superfinalNumber needed superfinal) front.length).runOn m =
      pure (.ok ((codex.encodeState superfinal s).2,
          superfinalNumber (needed || codex.flags.weights && s.isFinal) superfinal),
        { m with
          states := front ++ (codex.encodeState superfinal s).1 ::
            (back ++ superfinalState (needed || codex.flags.weights && s.isFinal)) }) := by
  have hflags := (Codex.extends_encodeArcs codex s.arcs).flags_eq
  unfold encodeAt Codex.encodeState
  rw [Work.runOn_bind_of_ok Work.runOn_get,
    Work.runOn_bind_of_ok (Work.runOn_ofExcept (state_eq_ok h))]
  dsimp only
  rw [hflags]
  cases codex.flags.weights && s.isFinal with
  | false =>
    rw [if_neg Bool.false_ne_true, if_neg Bool.false_ne_true, Bool.or_false,
      Work.runOn_bind_of_ok (runOn_setArcs h _)]
    rfl
  | true =>
    rw [← List.cons_append, ← List.append_assoc] at h
    have hneed := runOn_needSuperfinal needed h
    rw [← hsuperfinal, List.append_assoc, List.cons_append] at hneed
    rw [if_pos rfl, if_pos rfl, Bool.or_true, Work.runOn_bind_of_ok hneed]
    dsimp only
    rw [Work.runOn_bind_of_ok (Work.runOn_edit (modify_eq_ok rfl _)),
      Work.runOn_bind_of_ok (runOn_setArcs rfl _)]
    rfl

/-! ## All states -/

/-- What is left of the pass encodes the states that are still to come. -/
theorem runOn_foldlM_encodeAt (codex : Codex W) (needed : Bool) (front : List (State W))
    (h : m.states = front ++ (back ++ superfinalState needed)) {superfinal : Nat}
    (hsuperfinal : superfinal = (front ++ back).length) :
    ((List.range' front.length back.length).foldlM encodeAt
        (codex, superfinalNumber needed superfinal)).runOn m =
      pure (.ok ((codex.encodeStates superfinal back).2,
          superfinalNumber (needed || codex.flags.weights && back.any State.isFinal) superfinal),
        { m with
          states := front ++ ((codex.encodeStates superfinal back).1 ++
            superfinalState (needed || codex.flags.weights && back.any State.isFinal)) }) := by
  induction back generalizing front m codex needed with
  | nil =>
    rw [List.any_nil, Bool.and_false, Bool.or_false]
    simp only [Codex.encodeStates]
    rw [← h]
    rfl
  | cons s back ih =>
    have hflags := (Codex.extends_encodeState codex superfinal s).flags_eq
    rw [List.length_cons, List.range'_succ, List.foldlM_cons,
      Work.runOn_bind_of_ok (runOn_encodeAt codex needed h hsuperfinal)]
    generalize hneeded : (needed || codex.flags.weights && s.isFinal) = needed'
    have hrest := ih (codex.encodeState superfinal s).2 needed'
      (m := { m with states := front ++ (codex.encodeState superfinal s).1 ::
        (back ++ superfinalState needed') })
      (front ++ [(codex.encodeState superfinal s).1]) (by simp) (by simpa using hsuperfinal)
    rw [List.length_append, List.length_singleton, hflags] at hrest
    rw [hrest, ← hneeded, List.any_cons, Bool.and_or_distrib_left, Bool.or_assoc]
    simp only [Codex.encodeStates, List.append_assoc, List.cons_append, List.nil_append]

/-- **Encoding in place does what encoding describes**, and is never stopped. -/
theorem runOn_encodeInPlace (m : Machine W) (codex : Codex W) :
    (encodeInPlace codex).runOn m =
      (fun (encoded, grown) => (.ok grown, encoded)) <$> m.encode codex := by
  have hstates : m.states = [] ++ (m.states ++ superfinalState false) :=
    (List.append_nil m.states).symm
  have hpass := runOn_foldlM_encodeAt codex false [] hstates rfl
  rw [Bool.false_or, List.length_nil] at hpass
  change ((List.range' 0 m.states.length).foldlM encodeAt (codex, none)).runOn m = _ at hpass
  unfold encodeInPlace
  rw [Work.runOn_bind_of_ok Work.runOn_get, List.range_eq_range']
  unfold size
  rw [Work.runOn_bind_of_ok hpass, Work.runOn_bind_of_ok Work.runOn_get]
  unfold encode needsSuperfinal superfinalNumber superfinalState
  cases codex.flags.weights && m.states.any State.isFinal <;> rfl

end Machine
end WeightedTransducer
