import WeightedTransducer.Codex.InPlace
import WeightedTransducer.Proofs.Codex.Restore

/-!
# Decoding in place comes to decoding

Work that goes through the states of a machine has done a front of them and not yet the rest, so
each pass of `Machine.decodeInPlace` is followed with the states cut in two, one state at a time.
No step is about a state that does not exist.  `Machine.runOn_decodeInPlace` says that the passes
together do what `Machine.decode` describes, report the same events, and leave the machine alone
where it does not decode.
-/

namespace WeightedTransducer

/-! ## Steps of work -/

namespace Work
variable {W α β : Type} {m m' : Machine W}

theorem runOn_bind (work : Work W α) (next : α → Work W β) :
    (work >>= next).runOn m = (do
      match ← work.runOn m with
      | (.ok a, m) => (next a).runOn m
      | (.error stop, m) => pure (.error stop, m)) := by
  unfold runOn
  rw [ExceptT.run_bind, StateT.run_bind]
  refine congrArg (work.run.run m >>= ·) (funext fun outcome => ?_)
  obtain ⟨_ | a, m⟩ := outcome <;> rfl

/-- After a step that went well, the rest goes on with its result and the machine that it left. -/
theorem runOn_bind_of_ok {work : Work W α} {a : α} (h : work.runOn m = pure (.ok a, m'))
    (next : α → Work W β) : (work >>= next).runOn m = (next a).runOn m' := by
  rw [runOn_bind, h, pure_bind]

theorem runOn_get : (get : Work W (Machine W)).runOn m = pure (.ok m, m) := rfl

theorem runOn_aside (x : Traced α) :
    (aside x : Work W α).runOn m = (fun a => (.ok a, m)) <$> x := by
  unfold runOn aside
  rw [ExceptT.run_lift, StateT.run_map, StateT.run_lift]
  simp

theorem runOn_ofExcept {result : Except MachineFault α} {a : α} (h : result = .ok a) :
    (ofExcept result).runOn m = pure (.ok a, m) := by
  rw [h]
  rfl

theorem runOn_edit {operation : Machine W → Except MachineFault (Machine W)}
    (h : operation m = .ok m') : (edit operation).runOn m = pure (.ok (), m') := by
  unfold edit
  rw [runOn_bind_of_ok runOn_get, runOn_bind_of_ok (runOn_ofExcept h)]
  rfl

end Work

namespace Machine
variable {W σ : Type} {m : Machine W} {front back : List (State W)} {s : State W}

/-! ## What decoding in place comes to -/

/-- What decoding in place gives back and leaves, told by what a machine decodes to. -/
def settle (m : Machine W) : Except CodexError (Machine W) → Except Stop Unit × Machine W
  | .ok decoded => (.ok (), decoded)
  | .error e => (.error (.error e), m)

/-- With an error, the machine is the one before. -/
theorem settle_eq_error_iff {after : Machine W} {result : Except CodexError (Machine W)}
    {stop : Stop} :
    m.settle result = (.error stop, after) ↔
      after = m ∧ ∃ e, stop = .error e ∧ result = .error e := by
  cases result <;> simp [settle, eq_comm, and_comm]

theorem settle_eq_ok_iff {after : Machine W} {result : Except CodexError (Machine W)} :
    m.settle result = (.ok (), after) ↔ result = .ok after := by
  cases result <;> simp [settle]

/-! ## One state among the others -/

theorem state_eq_ok (h : m.states = front ++ s :: back) : m.state front.length = .ok s := by
  simp [state, h]

theorem modify_eq_ok (h : m.states = front ++ s :: back) (change : State W → State W) :
    m.modify front.length change = .ok { m with states := front ++ change s :: back } := by
  have hmodify : (front ++ s :: back).modify front.length change = front ++ change s :: back := by
    clear h
    induction front with
    | nil => rfl
    | cons t front ih => simp [ih]
  unfold modify size
  rw [h, if_pos (by simp), hmodify]

/-- One state of the pass that puts arcs into the states. -/
theorem runOn_setArcs (h : m.states = front ++ s :: back) (arcs : List (Arc W)) :
    (Work.edit (·.setArcs front.length arcs)).runOn m =
      pure (.ok (), { m with states := front ++ { s with arcs } :: back }) :=
  Work.runOn_edit (modify_eq_ok h _)

/-- The second pass replaces the arcs of every state, so that the final weights stay. -/
theorem runOn_forM_setArcs {decoded : List (State W)} (front : List (State W))
    (h : m.states = front ++ back)
    (hfinal : decoded.map State.final = back.map State.final) :
    (forM ((decoded.map State.arcs).zipIdx front.length)
        fun ((arcs, number) : List (Arc W) × Nat) => Work.edit (·.setArcs number arcs)).runOn m =
      pure (.ok (), { m with states := front ++ decoded }) := by
  induction decoded generalizing front back m with
  | nil =>
    obtain rfl : back = [] := List.map_eq_nil_iff.mp hfinal.symm
    rw [← h]
    rfl
  | cons t decoded ih =>
    obtain ⟨s, back, rfl, hs, hrestFinal⟩ := List.map_eq_cons_iff.mp hfinal.symm
    rw [List.map_cons, List.zipIdx_cons, List.forM_cons,
      Work.runOn_bind_of_ok (runOn_setArcs h t.arcs)]
    have hrest := ih (m := { m with states := front ++ { s with arcs := t.arcs } :: back })
      (front ++ [{ s with arcs := t.arcs }]) (by simp) hrestFinal.symm
    rw [List.length_append, List.length_singleton] at hrest
    rw [hrest, hs]
    simp

variable [Weight W] [Storage σ]

/-- One state of the pass that decodes arcs. -/
theorem runOn_decodedArcs (codex : Codex W) (h : m.states = front ++ s :: back) :
    (decodedArcs codex front.length).runOn m =
      match s.arcs.mapM codex.decodeArc with
      | .ok arcs => pure (.ok arcs, m)
      | .error e => ⟨(.error (.error e), m), [.decodeFailed front.length e]⟩ := by
  unfold decodedArcs
  rw [Work.runOn_bind_of_ok Work.runOn_get,
    Work.runOn_bind_of_ok (Work.runOn_ofExcept (state_eq_ok h))]
  cases s.arcs.mapM codex.decodeArc with
  | ok arcs => rfl
  | error e => rfl

/-- One state of the pass that folds the superfinal state away. -/
theorem runOn_foldAt (superfinal : Nat) (h : m.states = front ++ s :: back) :
    (foldAt superfinal front.length).runOn m =
      pure (.ok (), { m with states := front ++ foldState superfinal s :: back }) := by
  unfold foldAt foldState
  rw [Work.runOn_bind_of_ok Work.runOn_get,
    Work.runOn_bind_of_ok (Work.runOn_ofExcept (state_eq_ok h))]
  generalize s.arcs.partition (·.target == superfinal) = parts
  obtain ⟨moved, kept⟩ := parts
  dsimp only
  cases moved.isEmpty with
  | true =>
    rw [if_pos rfl, if_pos rfl, ← h]
    rfl
  | false =>
    rw [if_neg Bool.false_ne_true, if_neg Bool.false_ne_true,
      Work.runOn_bind_of_ok (Work.runOn_edit (modify_eq_ok h _)), runOn_setArcs rfl]

/-! ## The three passes -/

/-- The first pass finds what decodes, and leaves the machine alone. -/
theorem runOn_mapM_decodedArcs (codex : Codex W) (front : List (State W))
    (h : m.states = front ++ back) :
    ((List.range' front.length back.length).mapM (decodedArcs codex)).runOn m =
      (fun result => ((result.map (·.map State.arcs)).mapError Stop.error, m)) <$>
        decodeStates codex front.length back := by
  induction back generalizing front with
  | nil => rfl
  | cons s back ih =>
    have hrest := ih (front ++ [s]) (by simpa using h)
    rw [List.length_append, List.length_singleton] at hrest
    rw [List.length_cons, List.range'_succ, List.mapM_cons, Work.runOn_bind,
      runOn_decodedArcs codex h]
    unfold decodeStates decodeState
    cases s.arcs.mapM codex.decodeArc with
    | error e => rfl
    | ok arcs =>
      rw [pure_bind]
      dsimp only
      rw [Work.runOn_bind, hrest]
      generalize decodeStates codex (front.length + 1) back = rest
      obtain ⟨_ | states, events⟩ := rest <;> rfl

/-- The third pass folds every state but those behind. -/
theorem runOn_forM_foldAt (superfinal : Nat) {behind : List (State W)} (front : List (State W))
    (h : m.states = front ++ (back ++ behind)) :
    (forM (List.range' front.length back.length) (foldAt superfinal)).runOn m =
      pure (.ok (), { m with states := front ++ (back.map (foldState superfinal) ++ behind) }) := by
  induction back generalizing front m with
  | nil =>
    rw [List.map_nil, ← h]
    rfl
  | cons s back ih =>
    rw [List.cons_append] at h
    rw [List.length_cons, List.range'_succ, List.forM_cons,
      Work.runOn_bind_of_ok (runOn_foldAt superfinal h)]
    have hrest := ih (m := { m with states := front ++ foldState superfinal s :: (back ++ behind) })
      (front ++ [foldState superfinal s]) (by simp)
    rw [List.length_append, List.length_singleton] at hrest
    rw [hrest]
    simp

/-! ## Folding the superfinal state away -/

/-- A folded state has no arc to the superfinal state any more. -/
theorem target_ne_of_mem_foldState {superfinal : Nat} {arc : Arc W}
    (h : arc ∈ (foldState superfinal s).arcs) : arc.target ≠ superfinal := by
  rw [foldState_eq] at h
  exact bne_iff_ne.mp (List.mem_filter.mp h).2

/-- Deleting the last state after the others were folded takes no further arcs away. -/
theorem deleteLast_fold {others : List (State W)} {last : State W} {start : Option Nat}
    (hstart : start ≠ some others.length) :
    ({ states := others.map (foldState others.length) ++ [last], start } : Machine W).deleteLast =
      { states := others.map (foldState others.length), start } := by
  have hkept : ∀ s ∈ others.map (foldState others.length),
      { s with arcs := s.arcs.filter (·.target != others.length) } = s := by
    intro s hs
    obtain ⟨t, -, rfl⟩ := List.mem_map.mp hs
    have hall : ∀ arc ∈ (foldState others.length t).arcs, (arc.target != others.length) = true :=
      fun arc harc => bne_iff_ne.mpr (target_ne_of_mem_foldState harc)
    rw [List.filter_eq_self.mpr hall]
  have hsize : ({ states := others.map (foldState others.length) ++ [last], start } :
      Machine W).size = others.length + 1 := by simp [size]
  unfold deleteLast
  rw [hsize]
  dsimp only
  rw [List.dropLast_concat, List.map_congr_left hkept, List.map_id', if_neg hstart]

theorem runOn_foldInPlace {superfinal : Nat} (h : m.superfinal? = some superfinal) :
    (foldInPlace superfinal).runOn m =
      ⟨(.ok (), m.foldSuperfinal superfinal), [.folded superfinal]⟩ := by
  obtain ⟨others, last, rfl, hs⟩ := hasSuperfinal_of_superfinal? h
  have hpass := runOn_forM_foldAt others.length [] hs.states_eq
  rw [List.length_nil] at hpass
  unfold foldInPlace
  rw [List.range_eq_range', Work.runOn_bind_of_ok hpass, Work.runOn_bind_of_ok Work.runOn_get,
    hs.foldSuperfinal_eq, List.nil_append, deleteLast_fold hs.start_ne]
  rfl

/-! ## The machine -/

theorem final_of_decodeState {codex : Codex W} {t : State W} (h : decodeState codex s = .ok t) :
    t.final = s.final := by
  unfold decodeState at h
  split at h
  · cases h
    rfl
  · cases h

theorem map_final_of_mapM {codex : Codex W} {states decoded : List (State W)}
    (h : states.mapM (decodeState codex) = .ok decoded) :
    decoded.map State.final = states.map State.final := by
  have hall := mapM_eq_ok_iff.mp h
  clear h
  induction hall with
  | nil => rfl
  | cons hs _ ih => rw [List.map_cons, List.map_cons, final_of_decodeState hs, ih]

/-- **Decoding in place does what decoding describes**, and where a machine does not decode, it is
left alone. -/
theorem runOn_decodeInPlace (m : Machine W) (codex : Codex W) :
    (decodeInPlace codex).runOn m = m.settle <$> m.decode codex := by
  have hfirst := runOn_mapM_decodedArcs (m := m) codex [] rfl
  rw [List.length_nil] at hfirst
  unfold decodeInPlace decode
  rw [Work.runOn_bind_of_ok Work.runOn_get, List.range_eq_range', Work.runOn_bind]
  unfold size
  rw [hfirst, map_bind, map_eq_pure_bind, bind_assoc]
  simp only [pure_bind]
  refine Traced.bind_congr ?_
  cases hpass : (decodeStates codex 0 m.states).value with
  | error e => rfl
  | ok states =>
    rw [value_decodeStates] at hpass
    have hsecond := runOn_forM_setArcs (m := m) [] rfl (map_final_of_mapM hpass)
    dsimp only [Except.map, Except.mapError]
    rw [List.length_nil, List.nil_append] at hsecond
    rw [Work.runOn_bind_of_ok hsecond]
    cases codex.flags.weights with
    | false => rfl
    | true =>
      rw [if_pos rfl, if_pos rfl, Work.runOn_bind_of_ok Work.runOn_get]
      cases hseen : ({ m with states } : Machine W).superfinal? with
      | none => rfl
      | some superfinal =>
        dsimp only
        rw [runOn_foldInPlace hseen]
        rfl

/-- Decoding in place with a stored codex is decoding with it. -/
theorem runOn_decodeInPlaceWith (m : Machine W) (storage : σ) (path : String) (d : Delimiters) :
    (decodeInPlaceWith storage path d).runOn m = m.settle <$> m.decodeWith storage path d := by
  unfold decodeInPlaceWith decodeWith
  rw [Work.runOn_bind, Work.runOn_aside, map_bind, map_eq_pure_bind, bind_assoc]
  simp only [pure_bind]
  refine Traced.bind_congr ?_
  cases (Codex.load storage path d : Traced (Except CodexError (Codex W))).value with
  | error e => rfl
  | ok codex => exact runOn_decodeInPlace m codex

end Machine
end WeightedTransducer
