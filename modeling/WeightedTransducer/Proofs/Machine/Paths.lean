import WeightedTransducer.Machine.Basic
import WeightedTransducer.Proofs.Weight.Sum

/-!
# Paths and the weight of a pair of strings

A path takes arcs one after another from the start state on.  `Machine.paths` lists those of a given
number of arcs, each as often as there are ways to take it, and `Machine.total` is the sum of the
weights of those that are accepted and spell a given pair of strings, in which empty labels do not
show.  An arc to a state that does not exist leads nowhere: no arc leaves that state, and it is not
final.
-/

namespace WeightedTransducer

/-- Arcs taken one after another, and the state that they lead to. -/
structure Path (W : Type) where
  /-- The arcs, the first one first. -/
  arcs : List (Arc W) := []
  /-- The state at the end. -/
  state : Nat

namespace Path
variable {W : Type}

/-- The path that goes on with an arc. -/
def extend (p : Path W) (arc : Arc W) : Path W :=
  ⟨p.arcs ++ [arc], arc.target⟩

/-- The labels read, without the empty ones. -/
def inputs (p : Path W) : List Label :=
  (p.arcs.map Arc.input).filter (· != epsilon)

/-- The labels written, without the empty ones. -/
def outputs (p : Path W) : List Label :=
  (p.arcs.map Arc.output).filter (· != epsilon)

/-- Whether a path reads and writes the given strings. -/
def spells (p : Path W) (inputs outputs : List Label) : Bool :=
  p.inputs == inputs && p.outputs == outputs

/-- The product of the weights of the arcs. -/
def weight [Weight W] (p : Path W) : W :=
  p.arcs.foldl (fun product arc => Weight.times product arc.weight) Weight.one

theorem weight_extend [Weight W] (p : Path W) (arc : Arc W) :
    (p.extend arc).weight = Weight.times p.weight arc.weight := by
  unfold weight extend
  rw [List.foldl_append]
  rfl

/-- An arc that reads and writes nothing does not show in the strings. -/
theorem spells_extend {arc : Arc W} (hinput : arc.input = epsilon) (houtput : arc.output = epsilon)
    (p : Path W) : (p.extend arc).spells = p.spells := by
  funext x y
  simp [spells, inputs, outputs, extend, hinput, houtput]

end Path

namespace Machine
variable {W : Type} {m : Machine W} {p : Path W}

/-- The arcs that leave a state. -/
def arcsFrom (m : Machine W) (s : Nat) : List (Arc W) :=
  match m.states[s]? with
  | some state => state.arcs
  | none => []

/-- The paths of a number of arcs. -/
def paths (m : Machine W) : (length : Nat) → List (Path W)
  | 0 => m.start.toList.map fun start => { state := start }
  | length + 1 => (m.paths length).flatMap fun p => (m.arcsFrom p.state).map p.extend

/-- A path leads from the start state to its own, and each of its arcs leaves the state that those
before it lead to. -/
inductive Leads (m : Machine W) : Path W → Prop
  | start {s : Nat} (h : m.start = some s) : Leads m { state := s }
  | extend {p : Path W} {arc : Arc W} (h : Leads m p) (harc : arc ∈ m.arcsFrom p.state) :
    Leads m (p.extend arc)

/-- The paths of a number of arcs are those that lead somewhere with that many. -/
theorem mem_paths_iff {length : Nat} :
    p ∈ m.paths length ↔ m.Leads p ∧ p.arcs.length = length := by
  constructor
  · intro hp
    induction length generalizing p with
    | zero =>
      obtain ⟨s, hs, rfl⟩ := List.mem_map.mp hp
      exact ⟨.start (Option.mem_toList.mp hs), rfl⟩
    | succ length ih =>
      obtain ⟨q, hq, hp⟩ := List.mem_flatMap.mp hp
      obtain ⟨arc, harc, rfl⟩ := List.mem_map.mp hp
      obtain ⟨hleads, hlength⟩ := ih hq
      exact ⟨.extend hleads harc, by simp [Path.extend, hlength]⟩
  · rintro ⟨hleads, rfl⟩
    induction hleads with
    | start h => exact List.mem_map.mpr ⟨_, Option.mem_toList.mpr h, rfl⟩
    | @extend p arc _ harc ih =>
      have hlength : (p.extend arc).arcs.length = p.arcs.length + 1 := List.length_append
      rw [hlength]
      exact List.mem_flatMap.mpr ⟨p, ih, List.mem_map_of_mem harc⟩

section Weighted
variable [Weight W]

/-- The final weight of a state. -/
def finalAt (m : Machine W) (s : Nat) : W :=
  match m.states[s]? with
  | some state => state.final
  | none => Weight.zero

/-- Whether a path ends in a final state. -/
def accepts (m : Machine W) (p : Path W) : Bool :=
  !(m.finalAt p.state == Weight.zero)

/-- The accepted paths of a number of arcs for a pair of strings. -/
def accepting (m : Machine W) (length : Nat) (inputs outputs : List Label) : List (Path W) :=
  (m.paths length).filter fun p => m.accepts p && p.spells inputs outputs

/-- The weight of a path with the final weight of the state at its end. -/
def pathWeight (m : Machine W) (p : Path W) : W :=
  Weight.times p.weight (m.finalAt p.state)

/-- The sum of the weights of all accepted paths of a number of arcs for a pair of strings. -/
def total (m : Machine W) (length : Nat) (inputs outputs : List Label) : W :=
  Weight.sum ((m.accepting length inputs outputs).map m.pathWeight)

/-! ## Members -/

/-- Every weight of the machine is a member. -/
def HasMembers (m : Machine W) : Prop :=
  ∀ s ∈ m.states, Weight.isMember s.final = true ∧
    ∀ arc ∈ s.arcs, Weight.isMember arc.weight = true

theorem HasMembers.isMember_of_mem_arcsFrom (hm : m.HasMembers) {s : Nat} {arc : Arc W}
    (harc : arc ∈ m.arcsFrom s) : Weight.isMember arc.weight = true := by
  unfold arcsFrom at harc
  split at harc
  · exact (hm _ (List.mem_of_getElem? ‹_›)).2 arc harc
  · cases harc

variable (h : Weight.LeftSemiring W) (hm : m.HasMembers)
include h hm

theorem HasMembers.isMember_finalAt (s : Nat) : Weight.isMember (m.finalAt s) = true := by
  unfold finalAt
  split
  · exact (hm _ (List.mem_of_getElem? ‹_›)).1
  · exact h.isMember_zero

theorem HasMembers.isMember_weight (hp : m.Leads p) : Weight.isMember p.weight = true := by
  induction hp with
  | start => exact h.isMember_one
  | extend _ harc ih =>
    rw [Path.weight_extend]
    exact h.isMember_times ih (hm.isMember_of_mem_arcsFrom harc)

theorem HasMembers.isMember_pathWeight (hp : m.Leads p) :
    Weight.isMember (m.pathWeight p) = true :=
  h.isMember_times (hm.isMember_weight h hp) (hm.isMember_finalAt h _)

omit hm in
/-- A path that is not accepted counts for nothing. -/
theorem pathWeight_of_not_accepts [EquivBEq W] (hweight : Weight.isMember p.weight = true)
    (hfinal : Weight.isMember (m.finalAt p.state) = true) (hp : m.accepts p = false) :
    (m.pathWeight p == Weight.zero) = true := by
  have hzero : Weight.Equal (m.finalAt p.state) Weight.zero :=
    ⟨hfinal, h.isMember_zero, by simpa [accepts] using hp⟩
  have hproduct : Weight.Equal (m.pathWeight p) Weight.zero :=
    (h.times_equal (.refl hweight) hzero).trans (h.times_zero_equal hweight)
  exact hproduct.beq

end Weighted

end Machine
end WeightedTransducer
