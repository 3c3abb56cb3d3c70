import WeightedTransducer.Proofs.Codex.InPlace
import WeightedTransducer.Proofs.Codex.Stored

/-!
# What a failure leaves behind

Decoding fails with the error of the first arc that does not decode, the arcs taken state by state
(`FirstFailure`), and then nothing was changed (`Machine.decodeInPlace_all_or_nothing`).  Encoding
with a codex from the storage cannot fail once the machine is touched; encoding with a fresh one
can, because that codex is saved last, and then the machine stays encoded
(`Machine.encodeWith_eq_error_iff`).
-/

namespace WeightedTransducer

/-! ## The first failure of several steps -/

/-- The error of the first step that fails. -/
def FirstFailure {ε α β : Type} (f : α → Except ε β) (xs : List α) (e : ε) : Prop :=
  ∃ front x back, xs = front ++ x :: back ∧ (∀ a ∈ front, ∃ b, f a = .ok b) ∧ f x = .error e

section FirstFailure
variable {ε α β : Type} {f : α → Except ε β} {xs ys : List α} {e : ε}

theorem not_firstFailure_nil : ¬ FirstFailure f [] e := by
  rintro ⟨front, x, back, hsplit, -⟩
  simp at hsplit

theorem firstFailure_cons_iff {x : α} :
    FirstFailure f (x :: xs) e ↔ f x = .error e ∨ (∃ b, f x = .ok b) ∧ FirstFailure f xs e := by
  constructor
  · rintro ⟨front, y, back, hsplit, hfront, hy⟩
    cases front with
    | nil =>
      obtain ⟨rfl, -⟩ := List.cons.inj hsplit
      exact Or.inl hy
    | cons a front =>
      obtain ⟨rfl, rfl⟩ := List.cons.inj hsplit
      obtain ⟨ha, hfront⟩ := List.forall_mem_cons.mp hfront
      exact Or.inr ⟨ha, front, y, back, rfl, hfront, hy⟩
  · rintro (hx | ⟨hx, front, y, back, rfl, hfront, hy⟩)
    · exact ⟨[], x, xs, rfl, nofun, hx⟩
    · exact ⟨x :: front, y, back, rfl, List.forall_mem_cons.mpr ⟨hx, hfront⟩, hy⟩

theorem firstFailure_append_iff :
    FirstFailure f (xs ++ ys) e ↔
      FirstFailure f xs e ∨ (∀ x ∈ xs, ∃ b, f x = .ok b) ∧ FirstFailure f ys e := by
  induction xs with
  | nil => simp [not_firstFailure_nil]
  | cons x xs ih =>
    rw [List.cons_append, firstFailure_cons_iff, firstFailure_cons_iff, ih, List.forall_mem_cons]
    tauto

/-- Some step is the first to fail exactly if some step fails. -/
theorem exists_firstFailure_iff :
    (∃ e, FirstFailure f xs e) ↔ ∃ x ∈ xs, ∃ e, f x = .error e := by
  induction xs with
  | nil => simp [not_firstFailure_nil]
  | cons x xs ih =>
    simp only [firstFailure_cons_iff, List.exists_mem_cons_iff, ← ih]
    cases f x <;> simp

theorem mapM_eq_error_iff : xs.mapM f = .error e ↔ FirstFailure f xs e := by
  induction xs with
  | nil => exact ⟨nofun, fun h => absurd h not_firstFailure_nil⟩
  | cons x xs ih =>
    rw [List.mapM_cons, firstFailure_cons_iff, ← ih]
    cases f x with
    | error e' => simp [bind, Except.bind]
    | ok y => cases xs.mapM f <;> simp [bind, Except.bind, pure, Except.pure]

/-- There are results of all steps exactly if there is one of each. -/
theorem exists_mapM_eq_ok_iff : (∃ ys, xs.mapM f = .ok ys) ↔ ∀ x ∈ xs, ∃ y, f x = .ok y := by
  induction xs with
  | nil => exact ⟨fun _ _ hx => absurd hx List.not_mem_nil, fun _ => ⟨[], rfl⟩⟩
  | cons x xs ih =>
    rw [List.forall_mem_cons, ← ih, List.mapM_cons]
    cases f x <;> cases xs.mapM f <;> simp [bind, Except.bind, pure, Except.pure]

end FirstFailure

variable {W σ : Type} [Weight W] [Storage σ] {codex : Codex W}

/-- A state with all its arcs decoded and nothing else changed. -/
def State.DecodesTo (codex : Codex W) (s decoded : State W) : Prop :=
  decoded.final = s.final ∧ List.Forall₂ (fun a b => codex.decodeArc a = .ok b) s.arcs decoded.arcs

namespace Machine

/-! ## Decoding -/

/-- All arcs of a machine, state by state. -/
def arcs (m : Machine W) : List (Arc W) :=
  m.states.flatMap State.arcs

theorem decodeState_eq_ok_iff {s decoded : State W} :
    decodeState codex s = .ok decoded ↔ s.DecodesTo codex decoded := by
  unfold State.DecodesTo
  rw [← mapM_eq_ok_iff]
  unfold decodeState
  obtain ⟨final, arcs⟩ := decoded
  cases s.arcs.mapM codex.decodeArc with
  | error e => simp
  | ok decodedArcs => simp [eq_comm]

theorem decodeState_eq_error_iff {s : State W} {e : CodexError} :
    decodeState codex s = .error e ↔ FirstFailure codex.decodeArc s.arcs e := by
  rw [← mapM_eq_error_iff]
  unfold decodeState
  cases s.arcs.mapM codex.decodeArc <;> simp

theorem exists_decodeState_eq_ok_iff {s : State W} :
    (∃ decoded, decodeState codex s = .ok decoded) ↔
      ∀ arc ∈ s.arcs, ∃ b, codex.decodeArc arc = .ok b := by
  rw [← exists_mapM_eq_ok_iff]
  unfold decodeState
  cases s.arcs.mapM codex.decodeArc <;> simp

/-- The first state that does not decode is the one that has the first such arc. -/
theorem firstFailure_decodeState_iff {states : List (State W)} {e : CodexError} :
    FirstFailure (decodeState codex) states e ↔
      FirstFailure codex.decodeArc (states.flatMap State.arcs) e := by
  induction states with
  | nil => exact ⟨fun h => absurd h not_firstFailure_nil, fun h => absurd h not_firstFailure_nil⟩
  | cons s states ih =>
    rw [List.flatMap_cons, firstFailure_cons_iff, firstFailure_append_iff, ih,
      exists_decodeState_eq_ok_iff, decodeState_eq_error_iff]

theorem value_decode_eq_ok_iff {m decoded : Machine W} :
    (m.decode codex).value = .ok decoded ↔
      ∃ states, List.Forall₂ (State.DecodesTo codex) m.states states ∧
        decoded = refold codex.flags { m with states } := by
  have hstates {states : List (State W)} : m.states.mapM (decodeState codex) = .ok states ↔
      List.Forall₂ (State.DecodesTo codex) m.states states := by
    rw [mapM_eq_ok_iff]
    simp only [decodeState_eq_ok_iff]
  simp only [value_decode, ← hstates]
  cases m.states.mapM (decodeState codex) <;> simp [Except.map, eq_comm]

theorem value_decode_eq_error_iff {m : Machine W} {e : CodexError} :
    (m.decode codex).value = .error e ↔ FirstFailure codex.decodeArc m.arcs e := by
  rw [arcs, ← firstFailure_decodeState_iff, ← mapM_eq_error_iff, value_decode]
  cases m.states.mapM (decodeState codex) <;> simp [Except.map]

/-- Decoding with a stored codex fails where there is no such codex, and where the machine does not
decode with it. -/
theorem value_decodeWith_eq_error_iff {m : Machine W} {storage : σ} {path : String}
    {d : Delimiters} {e : CodexError} :
    (m.decodeWith storage path d).value = .error e ↔
      (Codex.load storage path d : Traced (Except CodexError (Codex W))).value = .error e ∨
        ∃ codex : Codex W, (Codex.load storage path d).value = .ok codex ∧
          FirstFailure codex.decodeArc m.arcs e := by
  unfold decodeWith
  rw [Traced.value_bind]
  cases (Codex.load storage path d : Traced (Except CodexError (Codex W))).value with
  | error e' => simp
  | ok codex => simp [value_decode_eq_error_iff]

theorem value_decodeWith_eq_ok_iff {m decoded : Machine W} {storage : σ} {path : String}
    {d : Delimiters} :
    (m.decodeWith storage path d).value = .ok decoded ↔
      ∃ codex : Codex W, (Codex.load storage path d).value = .ok codex ∧
        (m.decode codex).value = .ok decoded := by
  unfold decodeWith
  rw [Traced.value_bind]
  cases (Codex.load storage path d : Traced (Except CodexError (Codex W))).value with
  | error e => simp
  | ok codex => simp

/-- **Decoding decodes every arc or changes nothing.**  It is stopped exactly where an arc does not
decode, by the error of the first such arc, and never by a step about a state that does not exist.
With a stored codex it may also be stopped before, by a codex that cannot be loaded. -/
theorem decodeInPlace_all_or_nothing (m : Machine W) (codex : Codex W) (storage : σ)
    (path : String) (d : Delimiters) :
    ((∃ stop after, ((decodeInPlace codex).runOn m).value = (.error stop, after)) ↔
        ∃ arc ∈ m.arcs, ∃ e, codex.decodeArc arc = .error e) ∧
      (∀ stop after, ((decodeInPlace codex).runOn m).value = (.error stop, after) ↔
        after = m ∧ ∃ e, stop = .error e ∧ FirstFailure codex.decodeArc m.arcs e) ∧
      (∀ after, ((decodeInPlace codex).runOn m).value = (.ok (), after) ↔
        ∃ states, List.Forall₂ (State.DecodesTo codex) m.states states ∧
          after = refold codex.flags { m with states }) ∧
      (∀ stop after, ((decodeInPlaceWith storage path d).runOn m).value = (.error stop, after) ↔
        after = m ∧ ∃ e, stop = .error e ∧
          ((Codex.load storage path d : Traced (Except CodexError (Codex W))).value = .error e ∨
            ∃ codex : Codex W, (Codex.load storage path d).value = .ok codex ∧
              FirstFailure codex.decodeArc m.arcs e)) ∧
      ∀ after, ((decodeInPlaceWith storage path d).runOn m).value = (.ok (), after) ↔
        ∃ codex : Codex W, (Codex.load storage path d).value = .ok codex ∧
          ∃ states, List.Forall₂ (State.DecodesTo codex) m.states states ∧
            after = refold codex.flags { m with states } := by
  have hstopped (stop : Stop) (after : Machine W) :
      ((decodeInPlace codex).runOn m).value = (.error stop, after) ↔
        after = m ∧ ∃ e, stop = .error e ∧ FirstFailure codex.decodeArc m.arcs e := by
    simp only [runOn_decodeInPlace, Traced.value_map, settle_eq_error_iff,
      value_decode_eq_error_iff]
  refine ⟨?_, hstopped, ?_, ?_, ?_⟩
  · rw [← exists_firstFailure_iff]
    constructor
    · rintro ⟨stop, after, hrun⟩
      obtain ⟨-, e, -, hfirst⟩ := (hstopped stop after).mp hrun
      exact ⟨e, hfirst⟩
    · rintro ⟨e, hfirst⟩
      exact ⟨.error e, m, (hstopped _ _).mpr ⟨rfl, e, rfl, hfirst⟩⟩
  · intro after
    rw [runOn_decodeInPlace, Traced.value_map, settle_eq_ok_iff, value_decode_eq_ok_iff]
  · intro stop after
    simp only [runOn_decodeInPlaceWith, Traced.value_map, settle_eq_error_iff,
      value_decodeWith_eq_error_iff]
  · intro after
    simp only [runOn_decodeInPlaceWith, Traced.value_map, settle_eq_ok_iff,
      value_decodeWith_eq_ok_iff, value_decode_eq_ok_iff]

/-! ## Encoding -/

/-- Encoding with a stored codex changes the machine once that codex is loaded, and not before. -/
theorem value_encodeWith_stored (m : Machine W) (storage : σ) (flags : Flags) (path : String)
    (d : Delimiters) :
    (m.encodeWith storage flags true path d).value =
      match (Codex.load storage path d).value with
      | .error e => ⟨.error e, m, storage⟩
      | .ok codex => ⟨.ok (m.encode codex).value.2, (m.encode codex).value.1, storage⟩ := by
  unfold encodeWith codexFor
  rw [if_pos rfl, Traced.value_bind, Traced.value_bind]
  cases (Codex.load storage path d : Traced (Except CodexError (Codex W))).value with
  | error e => rfl
  | ok codex =>
    dsimp only
    by_cases hflags : codex.flags = flags
    · rw [if_neg (not_not_intro hflags)]
      rfl
    · rw [if_pos hflags]
      rfl

/-- Encoding with a stored codex fails where that codex cannot be loaded. -/
theorem encodeWith_stored_eq_error_iff {m after : Machine W} {storage left : σ} {flags : Flags}
    {path : String} {d : Delimiters} {e : CodexError} :
    (m.encodeWith storage flags true path d).value = ⟨.error e, after, left⟩ ↔
      after = m ∧ left = storage ∧
        (Codex.load storage path d : Traced (Except CodexError (Codex W))).value = .error e := by
  rw [value_encodeWith_stored]
  cases (Codex.load storage path d : Traced (Except CodexError (Codex W))).value with
  | ok codex => simp
  | error e' =>
    constructor
    · intro h
      obtain ⟨hcodex, rfl, rfl⟩ := EncodeResult.mk.inj h
      exact ⟨rfl, rfl, hcodex⟩
    · rintro ⟨rfl, rfl, hload⟩
      rw [hload]

/-- Encoding with a fresh codex fails where that codex cannot be saved. -/
theorem encodeWith_fresh_eq_error_iff {m after : Machine W} {storage left : σ} {flags : Flags}
    {path : String} {d : Delimiters} {e : CodexError} :
    (m.encodeWith storage flags false path d).value = ⟨.error e, after, left⟩ ↔
      after = (m.encode (.empty flags)).value.1 ∧ ∃ failure, e = .storage failure ∧
        Storage.save storage path ((m.encode (.empty flags)).value.2.bytes d) =
          (.error failure, left) := by
  rw [value_encodeWith_fresh, Codex.save]
  generalize Storage.save storage path ((m.encode (.empty flags)).value.2.bytes d) = put
  obtain ⟨outcome, kept⟩ := put
  cases outcome with
  | ok => simp [Except.map, Except.mapError]
  | error failure =>
    constructor
    · intro h
      obtain ⟨hcodex, rfl, rfl⟩ := EncodeResult.mk.inj h
      cases hcodex
      exact ⟨rfl, failure, rfl, rfl⟩
    · rintro ⟨rfl, failure', rfl, hput⟩
      cases hput
      rfl

/-- **Encoding that fails leaves the machine alone if it was to reuse a stored codex, and encoded if
the codex was fresh**, because a fresh codex is saved last. -/
theorem encodeWith_eq_error_iff {m after : Machine W} {storage left : σ} {flags : Flags}
    {reuse : Bool} {path : String} {d : Delimiters} {e : CodexError} :
    (m.encodeWith storage flags reuse path d).value = ⟨.error e, after, left⟩ ↔
      reuse = true ∧ after = m ∧ left = storage ∧
          (Codex.load storage path d : Traced (Except CodexError (Codex W))).value = .error e ∨
        reuse = false ∧ after = (m.encode (.empty flags)).value.1 ∧
          ∃ failure, e = .storage failure ∧
            Storage.save storage path ((m.encode (.empty flags)).value.2.bytes d) =
              (.error failure, left) := by
  cases reuse with
  | true =>
    rw [encodeWith_stored_eq_error_iff]
    simp
  | false =>
    rw [encodeWith_fresh_eq_error_iff]
    simp

/-- Where there is no directory for the codex, the machine stays encoded and the codex is lost. -/
theorem encodeWith_of_missing_directory :
    let m : Machine Tropical :=
      { states := [{ final := Weight.zero, arcs := [⟨1, 2, Weight.one, 1⟩] },
          { final := Weight.one }]
        start := some 0 }
    let result := (m.encodeWith ({} : FileTree) ⟨true, true⟩ false "missing/codex"
      ⟨',', none⟩).value
    result.codex = .error (.storage .notFound) ∧ (result.machine == m) = false := by
  intro m result
  have htarget : ({} : FileTree).target "missing/codex" = .error .notFound := by decide
  have hsave (contents : Bytes) : Storage.save ({} : FileTree) "missing/codex" contents =
      (.error .notFound, {}) := by simp only [Storage.save, htarget]
  have hresult : result = ⟨.error (.storage .notFound),
      (m.encode (.empty ⟨true, true⟩)).value.1, {}⟩ := by
    dsimp only [result]
    rw [value_encodeWith_fresh, Codex.save, hsave]
    rfl
  rw [hresult]
  exact ⟨rfl, by decide +kernel⟩

end Machine
end WeightedTransducer
