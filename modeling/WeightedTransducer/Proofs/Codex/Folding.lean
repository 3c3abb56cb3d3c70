import WeightedTransducer.Proofs.Codex.Failure
import WeightedTransducer.Proofs.Codex.Numbering
import WeightedTransducer.Proofs.Machine.Paths

/-!
# Folding keeps the weights of strings

Decoding first decodes every arc and then folds the superfinal state away, if one is seen.  What
makes a state superfinal (`Machine.HasSuperfinal`) is enough for the folded machine to have the same
paths but for those that end in it (`Machine.HasSuperfinal.paths_fold`), and as final weights the
sums over the arcs that led to it (`Machine.HasSuperfinal.finalAt_fold`).  An accepted path of the
folded machine therefore stands for all the paths with one more arc, the last one of which leads to
the superfinal state, and as products distribute over sums, the weight of a pair of strings stays
the same (`Machine.HasSuperfinal.total_fold`, `Machine.decode_keeps_totals`).
-/

namespace WeightedTransducer

open Weight (Equal LeftSemiring)

namespace Machine
variable {W : Type} [Weight W] {m : Machine W} {codex : Codex W}

/-- Lists that are empty may be left out of those put together. -/
theorem flatMap_filter_of_nil {α β : Type} {f : α → List β} {p : α → Bool} {xs : List α}
    (h : ∀ x ∈ xs, p x = false → f x = []) : (xs.filter p).flatMap f = xs.flatMap f := by
  induction xs with
  | nil => rfl
  | cons x xs ih =>
    obtain ⟨hx, hxs⟩ := List.forall_mem_cons.mp h
    rw [List.flatMap_cons, ← ih hxs]
    by_cases hp : p x = true
    · rw [List.filter_cons_of_pos hp, List.flatMap_cons]
    · rw [List.filter_cons_of_neg hp, hx (Bool.eq_false_iff.mpr hp), List.nil_append]

/-! ## Folding a state -/

section Sums
variable [EquivBEq W] (h : LeftSemiring W)
include h

/-- A weight is added also where zero stands for no weight so far. -/
theorem addFinal_equal {sum weight : W} (hsum : Weight.isMember sum = true)
    (hweight : Weight.isMember weight = true) :
    Equal (addFinal sum weight) (Weight.plus sum weight) := by
  unfold addFinal
  split
  · rename_i hzero
    have hequal : Equal Weight.zero sum := ⟨h.isMember_zero, hsum, BEq.symm hzero⟩
    calc Equal weight (Weight.plus Weight.zero weight) := (h.zero_plus_equal hweight).symm
      Equal _ (Weight.plus sum weight) := h.plus_equal hequal (.refl hweight)
  · exact .refl (h.isMember_plus hsum hweight)

theorem foldl_addFinal_equal {arcs : List (Arc W)} {final : W}
    (hfinal : Weight.isMember final = true)
    (harcs : ∀ arc ∈ arcs, Weight.isMember arc.weight = true) :
    Equal (arcs.foldl (fun sum arc => addFinal sum arc.weight) final)
      (Weight.plus final (Weight.sum (arcs.map Arc.weight))) := by
  induction arcs generalizing final with
  | nil => exact (h.plus_zero_equal hfinal).symm
  | cons arc arcs ih =>
    obtain ⟨harc, harcs⟩ := List.forall_mem_cons.mp harcs
    have hadd := addFinal_equal h hfinal harc
    have hrest : Weight.isMember (Weight.sum (arcs.map Arc.weight)) = true :=
      h.isMember_sum (List.forall_mem_map.mpr harcs)
    calc Equal (arcs.foldl (fun sum arc => addFinal sum arc.weight) (addFinal final arc.weight))
          (Weight.plus (addFinal final arc.weight) (Weight.sum (arcs.map Arc.weight))) :=
          ih hadd.left harcs
      Equal _ (Weight.plus (Weight.plus final arc.weight) (Weight.sum (arcs.map Arc.weight))) :=
          h.plus_equal hadd (.refl hrest)
      Equal _ (Weight.plus final (Weight.sum ((arc :: arcs).map Arc.weight))) :=
          h.plus_assoc_equal hfinal harc hrest

end Sums

/-! ## What makes a state superfinal -/

/-- The arcs from a state to the superfinal one. -/
def entering (m : Machine W) (superfinal s : Nat) : List (Arc W) :=
  (m.arcsFrom s).filter (·.target == superfinal)

namespace HasSuperfinal
variable {others : List (State W)} {last : State W} (hs : m.HasSuperfinal others last)
include hs

theorem states_fold : (m.foldSuperfinal others.length).states =
    others.map (foldState others.length) := by
  rw [hs.foldSuperfinal_eq]

theorem size_fold : (m.foldSuperfinal others.length).size + 1 = m.size := by
  simp [size, hs.states_fold, hs.states_eq]

/-- The states of the machine by number, with what they are turned into. -/
theorem cases_state (s : Nat) :
    (∃ state ∈ others, s ≠ others.length ∧ m.states[s]? = some state ∧
        (m.foldSuperfinal others.length).states[s]? = some (foldState others.length state)) ∨
      s = others.length ∧ m.states[s]? = some last ∧
        (m.foldSuperfinal others.length).states[s]? = none ∨
      s ≠ others.length ∧ m.states[s]? = none ∧
        (m.foldSuperfinal others.length).states[s]? = none := by
  rw [hs.states_fold, hs.states_eq, List.getElem?_map]
  rcases Nat.lt_trichotomy s others.length with hlt | rfl | hgt
  · left
    refine ⟨others[s], List.getElem_mem hlt, Nat.ne_of_lt hlt, ?_, ?_⟩
    · rw [List.getElem?_append_left hlt, List.getElem?_eq_getElem hlt]
    · rw [List.getElem?_eq_getElem hlt, Option.map_some]
  · right; left
    refine ⟨rfl, List.getElem?_concat_length, ?_⟩
    rw [List.getElem?_eq_none (Nat.le_refl _), Option.map_none]
  · right; right
    refine ⟨Nat.ne_of_gt hgt, ?_, ?_⟩
    · exact List.getElem?_eq_none (by rw [List.length_append]; exact hgt)
    · rw [List.getElem?_eq_none (Nat.le_of_lt hgt), Option.map_none]

/-! ## Paths -/

/-- The folded machine keeps the arcs that do not lead to the superfinal state. -/
theorem arcsFrom_fold (s : Nat) :
    (m.foldSuperfinal others.length).arcsFrom s =
      (m.arcsFrom s).filter (·.target != others.length) := by
  unfold arcsFrom
  rcases hs.cases_state s with ⟨state, -, -, hstate, hfolded⟩ | ⟨-, hstate, hfolded⟩ |
    ⟨-, hstate, hfolded⟩
  · rw [hstate, hfolded, foldState_eq]
  · rw [hstate, hfolded]
    dsimp only
    rw [hs.arcs_nil]
    rfl
  · rw [hstate, hfolded]
    rfl

theorem arcsFrom_superfinal : m.arcsFrom others.length = [] := by
  unfold arcsFrom
  rw [hs.states_eq, List.getElem?_concat_length]
  exact hs.arcs_nil

/-- **The paths of the folded machine are those that do not end in the superfinal state**, in the
same order. -/
theorem paths_fold (length : Nat) :
    (m.foldSuperfinal others.length).paths length =
      (m.paths length).filter (·.state != others.length) := by
  induction length with
  | zero =>
    show m.start.toList.map _ = (m.start.toList.map _).filter _
    refine (List.filter_eq_self.mpr fun p hp => ?_).symm
    obtain ⟨s, hstart, rfl⟩ := List.mem_map.mp hp
    rw [bne_iff_ne]
    rintro rfl
    exact hs.start_ne (Option.mem_toList.mp hstart)
  | succ length ih =>
    calc (m.foldSuperfinal others.length).paths (length + 1)
        = ((m.paths length).filter (·.state != others.length)).flatMap fun p =>
            ((m.foldSuperfinal others.length).arcsFrom p.state).map p.extend := by
          rw [paths, ih]
      _ = (m.paths length).flatMap fun p =>
            ((m.foldSuperfinal others.length).arcsFrom p.state).map p.extend := by
          -- a path that ends in the superfinal state does not go on
          refine flatMap_filter_of_nil fun p _ hp => ?_
          rw [bne_eq_false_iff_eq.mp hp, hs.arcsFrom_fold, hs.arcsFrom_superfinal]
          rfl
      _ = (m.paths length).flatMap fun p =>
            ((m.arcsFrom p.state).map p.extend).filter (·.state != others.length) := by
          refine List.flatMap_congr fun p _ => ?_
          rw [hs.arcsFrom_fold, List.filter_map]
          rfl
      _ = (m.paths (length + 1)).filter (·.state != others.length) := List.filter_flatMap.symm

theorem reads_nothing_of_mem_arcsFrom {s : Nat} {arc : Arc W} (harc : arc ∈ m.arcsFrom s)
    (htarget : arc.target = others.length) : arc.input = epsilon ∧ arc.output = epsilon := by
  unfold arcsFrom at harc
  rcases hs.cases_state s with ⟨state, hstate, -, hget, -⟩ | ⟨-, hget, -⟩ | ⟨-, hget, -⟩
  · rw [hget] at harc
    exact hs.reads_nothing state hstate arc harc htarget
  · rw [hget] at harc
    dsimp only at harc
    rw [hs.arcs_nil] at harc
    cases harc
  · rw [hget] at harc
    cases harc

/-! ## Final weights -/

theorem finalAt_superfinal : m.finalAt others.length = last.final := by
  unfold finalAt
  rw [hs.states_eq, List.getElem?_concat_length]

section Totals
variable [EquivBEq W]

/-- The accepted paths of the folded machine, among all paths for the same strings before. -/
theorem accepting_fold (length : Nat) (x y : List Label) :
    (m.foldSuperfinal others.length).accepting length x y =
      ((m.paths length).filter (·.spells x y)).filter
        (m.foldSuperfinal others.length).accepts := by
  unfold accepting
  rw [hs.paths_fold, List.filter_filter, List.filter_filter]
  refine List.filter_congr fun p _ => ?_
  by_cases hend : p.state = others.length
  · have hreject : (m.foldSuperfinal others.length).accepts p = false := by
      unfold accepts finalAt
      rw [hend, hs.states_fold, List.getElem?_eq_none (List.length_map _).le]
      dsimp only
      rw [BEq.rfl]
      rfl
    rw [hreject, Bool.false_and, Bool.false_and]
  · rw [bne_iff_ne.mpr hend, Bool.and_true]

variable (h : LeftSemiring W)
include h

/-- Only paths to the superfinal state are accepted. -/
theorem accepts_eq (p : Path W) : m.accepts p = (p.state == others.length) := by
  unfold accepts finalAt
  rcases hs.cases_state p.state with ⟨state, hstate, hne, hget, -⟩ | ⟨heq, hget, -⟩ |
    ⟨hne, hget, -⟩
  · rw [hget, beq_eq_false_iff_ne.mpr hne]
    dsimp only
    rw [hs.final_zero state hstate]
    rfl
  · rw [hget, heq, beq_self_eq_true]
    dsimp only
    cases hfinal : last.final == Weight.zero with
    | false => rfl
    | true =>
      have hzero := h.zero_ne_one
      rw [BEq.trans (BEq.symm hfinal) hs.final_one] at hzero
      cases hzero
  · rw [hget, beq_eq_false_iff_ne.mpr hne]
    dsimp only
    rw [BEq.rfl]
    rfl

/-- No path without arcs is accepted before folding. -/
theorem accepting_zero (x y : List Label) : m.accepting 0 x y = [] := by
  refine List.filter_eq_nil_iff.mpr fun p hp => ?_
  obtain ⟨s, hstart, rfl⟩ := List.mem_map.mp hp
  have hne : s ≠ others.length := by
    rintro rfl
    exact hs.start_ne (Option.mem_toList.mp hstart)
  rw [hs.accepts_eq h, beq_eq_false_iff_ne.mpr hne]
  exact Bool.false_ne_true

/-- The accepted paths of one more arc are those for the same strings that go on to the superfinal
state. -/
theorem accepting_succ (length : Nat) (x y : List Label) :
    m.accepting (length + 1) x y =
      ((m.paths length).filter (·.spells x y)).flatMap fun p =>
        (m.entering others.length p.state).map p.extend := by
  -- an arc to the superfinal state reads and writes nothing, and no other arc leads to acceptance
  have hlast (p : Path W) {arc : Arc W} (harc : arc ∈ m.arcsFrom p.state) :
      (m.accepts (p.extend arc) && (p.extend arc).spells x y) =
        (arc.target == others.length && p.spells x y) := by
    rw [hs.accepts_eq h]
    show (arc.target == others.length && _) = _
    by_cases htarget : arc.target = others.length
    · obtain ⟨hinput, houtput⟩ := hs.reads_nothing_of_mem_arcsFrom harc htarget
      rw [Path.spells_extend hinput houtput]
    · rw [beq_eq_false_iff_ne.mpr htarget, Bool.false_and, Bool.false_and]
  have hfilter (p : Path W) : ((m.arcsFrom p.state).map p.extend).filter
      (fun p => m.accepts p && p.spells x y) =
        ((m.arcsFrom p.state).filter fun arc =>
          arc.target == others.length && p.spells x y).map p.extend := by
    rw [List.filter_map]
    exact congrArg (List.map p.extend) (List.filter_congr fun arc harc => hlast p harc)
  unfold accepting
  rw [paths, List.filter_flatMap]
  simp only [hfilter]
  -- nor does a path for other strings lead to acceptance
  rw [← flatMap_filter_of_nil (p := (·.spells x y))]
  · refine List.flatMap_congr fun p hp => ?_
    rw [(List.mem_filter.mp hp).2]
    simp only [Bool.and_true]
    rfl
  · intro p _ hp
    simp [hp]

theorem total_succ (length : Nat) (x y : List Label) :
    m.total (length + 1) x y = Weight.sum
      (((m.paths length).filter (·.spells x y)).flatMap fun p =>
        (m.entering others.length p.state).map fun arc => m.pathWeight (p.extend arc)) := by
  unfold total
  rw [hs.accepting_succ h, List.map_flatMap]
  simp only [List.map_map]
  rfl

variable (hm : m.HasMembers)
include hm

/-- **The final weight of a folded state is the sum over the arcs that led to the superfinal
state.** -/
theorem finalAt_fold (s : Nat) :
    Equal ((m.foldSuperfinal others.length).finalAt s)
      (Weight.sum ((m.entering others.length s).map Arc.weight)) := by
  have hmembers : ∀ arc ∈ m.entering others.length s, Weight.isMember arc.weight = true :=
    fun arc harc => hm.isMember_of_mem_arcsFrom (List.mem_filter.mp harc).1
  unfold finalAt
  unfold entering arcsFrom at hmembers ⊢
  rcases hs.cases_state s with ⟨state, hstate, -, hget, hfolded⟩ | ⟨-, hget, hfolded⟩ |
    ⟨-, hget, hfolded⟩
  · rw [hget] at hmembers ⊢
    rw [hfolded, foldState_eq]
    dsimp only at hmembers ⊢
    have hfinal := (hm state (List.mem_of_getElem? hget)).1
    have hequal : Equal state.final Weight.zero :=
      ⟨hfinal, h.isMember_zero, hs.final_zero state hstate⟩
    have hsum := h.isMember_sum (List.forall_mem_map.mpr hmembers)
    calc Equal _ (Weight.plus state.final _) := foldl_addFinal_equal h hfinal hmembers
      Equal _ (Weight.plus Weight.zero _) := h.plus_equal hequal (.refl hsum)
      Equal _ _ := h.zero_plus_equal hsum
  · rw [hget, hfolded]
    dsimp only
    rw [hs.arcs_nil]
    exact .refl h.isMember_zero
  · rw [hget, hfolded]
    exact .refl h.isMember_zero

/-- What the ways from a path to the superfinal state weigh together. -/
theorem sum_entering {p : Path W} (hp : m.Leads p) :
    Equal (Weight.sum ((m.entering others.length p.state).map fun arc =>
        m.pathWeight (p.extend arc)))
      ((m.foldSuperfinal others.length).pathWeight p) := by
  have hweight := hm.isMember_weight h hp
  have hmembers : ∀ arc ∈ m.entering others.length p.state,
      Weight.isMember arc.weight = true :=
    fun arc harc => hm.isMember_of_mem_arcsFrom (List.mem_filter.mp harc).1
  have hone : Equal (m.finalAt others.length) Weight.one :=
    ⟨hm.isMember_finalAt h _, h.isMember_one, hs.finalAt_superfinal ▸ hs.final_one⟩
  have hextend : ∀ arc ∈ m.entering others.length p.state,
      Equal (m.pathWeight (p.extend arc)) (Weight.times p.weight arc.weight) := by
    intro arc harc
    have htarget : arc.target = others.length := beq_iff_eq.mp (List.mem_filter.mp harc).2
    have hproduct := h.isMember_times hweight (hmembers arc harc)
    unfold pathWeight
    rw [Path.weight_extend]
    show Equal (Weight.times _ (m.finalAt arc.target)) _
    rw [htarget]
    exact (h.times_equal (.refl hproduct) hone).trans (h.times_one_equal hproduct)
  calc Equal _ (Weight.sum ((m.entering others.length p.state).map fun arc =>
        Weight.times p.weight arc.weight)) := h.sum_map_congr hextend
    Equal _ (Weight.times p.weight
        (Weight.sum ((m.entering others.length p.state).map Arc.weight))) :=
      (h.times_sum hweight hmembers).symm
    Equal _ ((m.foldSuperfinal others.length).pathWeight p) :=
      h.times_equal (.refl hweight) (hs.finalAt_fold h hm p.state).symm

/-- **Folding keeps the weight of every pair of strings**, with one arc less. -/
theorem total_fold (length : Nat) (x y : List Label) :
    Equal ((m.foldSuperfinal others.length).total length x y) (m.total (length + 1) x y) := by
  have hleads : ∀ p ∈ (m.paths length).filter (·.spells x y), m.Leads p :=
    fun p hp => (mem_paths_iff.mp (List.mem_filter.mp hp).1).1
  have hentering : ∀ p ∈ (m.paths length).filter (·.spells x y),
      Equal (Weight.sum ((m.entering others.length p.state).map fun arc =>
          m.pathWeight (p.extend arc)))
        ((m.foldSuperfinal others.length).pathWeight p) :=
    fun p hp => hs.sum_entering h hm (hleads p hp)
  have hmembers : ∀ p ∈ (m.paths length).filter (·.spells x y),
      ∀ w ∈ (m.entering others.length p.state).map (fun arc => m.pathWeight (p.extend arc)),
        Weight.isMember w = true := by
    intro p hp
    refine List.forall_mem_map.mpr fun arc harc => ?_
    have hextend : m.Leads (p.extend arc) := .extend (hleads p hp) (List.mem_filter.mp harc).1
    exact hm.isMember_pathWeight h hextend
  have hrejected : ∀ p ∈ (m.paths length).filter (·.spells x y),
      (m.foldSuperfinal others.length).accepts p = false →
        ((m.foldSuperfinal others.length).pathWeight p == Weight.zero) = true := by
    intro p hp hreject
    have hfinal := hs.finalAt_fold h hm p.state
    exact pathWeight_of_not_accepts h (hm.isMember_weight h (hleads p hp)) hfinal.left hreject
  rw [hs.total_succ h]
  unfold total
  rw [hs.accepting_fold]
  -- all three sums go over the paths of `m` for the strings, in the order in which they are listed
  calc Equal _ (Weight.sum (((m.paths length).filter (·.spells x y)).map
          (m.foldSuperfinal others.length).pathWeight)) :=
        h.sum_filter (fun p hp => (hentering p hp).right) hrejected
    Equal _ (Weight.sum (((m.paths length).filter (·.spells x y)).map fun p =>
          Weight.sum ((m.entering others.length p.state).map fun arc =>
            m.pathWeight (p.extend arc)))) :=
        (h.sum_map_congr hentering).symm
    Equal _ _ := (h.sum_flatMap hmembers).symm

end Totals
end HasSuperfinal

/-! ## Decoding -/

/-- Decoding gives arcs the weights of entries, or leaves them as they are. -/
theorem isMember_of_decodeArc (hcodex : ∀ e ∈ codex.entries, Weight.isMember e.weight = true)
    {arc decoded : Arc W} (harc : Weight.isMember arc.weight = true)
    (h : codex.decodeArc arc = .ok decoded) : Weight.isMember decoded.weight = true := by
  unfold Codex.decodeArc at h
  split at h
  · exact Except.ok.inj h ▸ harc
  · split at h
    · cases h
    · split at h
      · cases h
      · split at h
        · cases h
        · rename_i entry hentry
          obtain rfl := Except.ok.inj h
          dsimp only
          split
          · exact hcodex entry (Codex.mem_of_decode? hentry)
          · exact harc

theorem HasMembers.of_decodesTo (hm : m.HasMembers)
    (hcodex : ∀ e ∈ codex.entries, Weight.isMember e.weight = true) {states : List (State W)}
    (h : List.Forall₂ (State.DecodesTo codex) m.states states) :
    ({ m with states } : Machine W).HasMembers := by
  intro decoded hdecoded
  obtain ⟨s, hs, hfinal, harcs⟩ := exists_of_mem_of_forall₂ h.flip hdecoded
  refine ⟨hfinal ▸ (hm s hs).1, fun arc harc => ?_⟩
  obtain ⟨encoded, hencoded, hdecode⟩ := exists_of_mem_of_forall₂ harcs.flip harc
  exact isMember_of_decodeArc hcodex ((hm s hs).2 encoded hencoded) hdecode

/-- How a machine with a superfinal state stands to what it is folded to: that state is gone, no
path without arcs was accepted, and every pair of strings has the weight that it had with one arc
more. -/
structure FoldsTo (m folded : Machine W) : Prop where
  size_eq : folded.size + 1 = m.size
  accepting_zero (x y : List Label) : m.accepting 0 x y = []
  total_eq (length : Nat) (x y : List Label) :
    (folded.total length x y == m.total (length + 1) x y) = true

/-- **Decoding keeps the weights of strings**: it decodes every arc, and then either leaves the
machine like that or folds a superfinal state away, which takes one arc from every accepted path and
changes the weight of no pair of strings. -/
theorem decode_keeps_totals [EquivBEq W] (h : LeftSemiring W) (hm : m.HasMembers)
    (hcodex : ∀ e ∈ codex.entries, Weight.isMember e.weight = true) {decoded : Machine W}
    (hdecode : (m.decode codex).value = .ok decoded) :
    ∃ states, List.Forall₂ (State.DecodesTo codex) m.states states ∧
      if codex.flags.weights && ({ m with states } : Machine W).superfinal?.isSome then
        FoldsTo { m with states } decoded
      else decoded = { m with states } := by
  obtain ⟨states, hstates, rfl⟩ := value_decode_eq_ok_iff.mp hdecode
  refine ⟨states, hstates, ?_⟩
  have hmembers := hm.of_decodesTo hcodex hstates
  unfold refold
  cases hweights : codex.flags.weights with
  | false => exact rfl
  | true =>
    cases hseen : ({ m with states } : Machine W).superfinal? with
    | none => exact rfl
    | some superfinal =>
      obtain ⟨others, last, rfl, hs⟩ := hasSuperfinal_of_superfinal? hseen
      exact ⟨hs.size_fold, hs.accepting_zero h, fun length x y =>
        (hs.total_fold h hmembers length x y).beq⟩

/-- A loop and two arcs to the superfinal state, the first of which weighs nothing. -/
theorem decode_keeps_totals_of_loop :
    let codex : Codex Boolean :=
      { flags := ⟨true, true⟩, entries := [⟨1, 2, .yes⟩, ⟨0, 0, .no⟩] }
    let m : Machine Boolean :=
      { states := [{ final := .no, arcs := [⟨1, 1, .yes, 0⟩, ⟨2, 2, .yes, 1⟩, ⟨0, 0, .yes, 1⟩] },
          { final := .yes }]
        start := some 0 }
    let decoded : Machine Boolean :=
      { states := [{ final := .yes, arcs := [⟨1, 2, .yes, 0⟩] }], start := some 0 }
    m.HasMembers ∧ (∀ e ∈ codex.entries, Weight.isMember e.weight = true) ∧
      (m.decode codex).value = .ok decoded ∧
      ∃ states, List.Forall₂ (State.DecodesTo codex) m.states states ∧
        FoldsTo { m with states } decoded := by
  intro codex m decoded
  have hm : m.HasMembers := by
    unfold HasMembers
    decide
  have hcodex : ∀ e ∈ codex.entries, Weight.isMember e.weight = true := by decide
  have hdecode : (m.decode codex).value = .ok decoded := rfl
  obtain ⟨states, hstates, hcase⟩ :=
    decode_keeps_totals Boolean.leftSemiring hm hcodex hdecode
  refine ⟨hm, hcodex, hdecode, states, hstates, ?_⟩
  split at hcase
  · exact hcase
  · -- the machine has one state less now
    have hsize : states.length = 1 := congrArg size hcase.symm
    have hlength := hstates.length_eq
    rw [hsize] at hlength
    cases hlength

/-- **A codex with an entry that is no member changes the weight of strings**: the only path with
two arcs leads through such an entry and has no weight, but its last arc weighs zero, so that
nothing is accepted once it is folded away. -/
theorem decode_changes_totals :
    let codex : Codex Boolean :=
      (((.empty ⟨false, true⟩ : Codex Boolean).encode 1 0 .neither).2.encode 0 0 .no).2
    let m : Machine Boolean :=
      { states := [{ final := .no, arcs := [⟨1, 1, .yes, 1⟩] },
          { final := .no, arcs := [⟨2, 0, .yes, 2⟩] }, { final := .yes }]
        start := some 0 }
    let states : List (State Boolean) :=
      [{ final := .no, arcs := [⟨1, 1, .neither, 1⟩] }, { final := .no, arcs := [⟨0, 0, .no, 2⟩] },
        { final := .yes }]
    let decoded : Machine Boolean :=
      { states := [{ final := .no, arcs := [⟨1, 1, .neither, 1⟩] }, { final := .no }]
        start := some 0 }
    LeftSemiring Boolean ∧ m.WellFormed ∧ m.HasMembers ∧
      List.Forall₂ (State.DecodesTo codex) m.states states ∧
      (m.decode codex).value = .ok decoded ∧
      ({ m with states } : Machine Boolean).superfinal? = some 2 ∧
      decoded.total 1 [1] [1] = .no ∧
      ({ m with states } : Machine Boolean).total 2 [1] [1] = .neither ∧
      ¬ FoldsTo { m with states } decoded := by
  intro codex m states decoded
  have hm : m.HasMembers := by
    unfold HasMembers
    decide
  have hstates : List.Forall₂ (State.DecodesTo codex) m.states states :=
    .cons ⟨rfl, .cons rfl .nil⟩ (.cons ⟨rfl, .cons rfl .nil⟩ (.cons ⟨rfl, .nil⟩ .nil))
  have htotal : decoded.total 1 [1] [1] = .no := by decide +kernel
  have htotal' : ({ m with states } : Machine Boolean).total 2 [1] [1] = .neither := by
    decide +kernel
  refine ⟨Boolean.leftSemiring, ⟨by decide, by decide⟩, hm, hstates, rfl, rfl, htotal, htotal', ?_⟩
  intro hfolds
  have hequal := hfolds.total_eq 1 [1] [1]
  rw [htotal, htotal'] at hequal
  cases hequal

end Machine
end WeightedTransducer
