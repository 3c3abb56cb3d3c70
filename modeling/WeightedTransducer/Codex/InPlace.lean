import WeightedTransducer.Codex.Storage

/-!
# Encoding and decoding in place

`Work W α` is work on a machine that changes it step by step.  Whatever stops the work leaves the
machine as it is at that moment, so a caller can find it half changed.  `Machine.encodeInPlace`
encodes a machine in this way, state by state, and adds the superfinal state when the first final
state asks for it.  `Machine.decodeInPlace` decodes one: one pass decodes all arcs and changes
nothing, one puts the decoded arcs into the states, and one folds the superfinal state away.
-/

namespace WeightedTransducer

/-- What stops work on a machine. -/
inductive Stop where
  /-- The machine or the codex is refused. -/
  | error (error : CodexError)
  /-- A step is about a state that does not exist. -/
  | fault (fault : MachineFault)
  deriving DecidableEq, Repr

/-- Work on a machine: a result or what stopped it, and the machine afterwards in both cases. -/
abbrev Work (W : Type) := ExceptT Stop (StateT (Machine W) Traced)

namespace Work
variable {W α : Type}

/-- Does the work on a machine. -/
def runOn (work : Work W α) (m : Machine W) : Traced (Except Stop α × Machine W) :=
  work.run.run m

/-- Does something that the machine has no part in. -/
def aside (x : Traced α) : Work W α :=
  ExceptT.lift (StateT.lift x)

/-- Reports an event. -/
def report (event : Event) : Work W Unit :=
  aside (Traced.report event)

/-- Passes on what an operation of the machine gives. -/
def ofExcept (result : Except MachineFault α) : Work W α :=
  match result with
  | .ok a => pure a
  | .error fault => throw (.fault fault)

/-- Changes the machine by one of its operations. -/
def edit (operation : Machine W → Except MachineFault (Machine W)) : Work W Unit := do
  set (← ofExcept (operation (← get)))

end Work

namespace Machine
variable {W σ : Type} [Weight W] [Storage σ]

/-! ## Encoding -/

/-- The superfinal state, which is added to the machine where there is none so far. -/
def needSuperfinal : (superfinal : Option Nat) → Work W Nat
  | some superfinal => pure superfinal
  | none => do
    let m ← get
    set m.addState
    Work.edit (·.setFinal m.size Weight.one)
    pure m.size

/-- Encodes a state, with what the codex has grown into and the superfinal state, if there is one so
far. -/
def encodeAt (progress : Codex W × Option Nat) (number : Nat) : Work W (Codex W × Option Nat) := do
  let s ← Work.ofExcept ((← get).state number)
  let (arcs, codex) := progress.1.encodeArcs s.arcs
  if codex.flags.weights && s.isFinal then
    let superfinal ← needSuperfinal progress.2
    let (arc, codex) := codex.encodeArc ⟨epsilon, epsilon, s.final, superfinal⟩
    Work.edit (·.setFinal number Weight.zero)
    Work.edit (·.setArcs number (arcs ++ [arc]))
    pure (codex, some superfinal)
  else
    Work.edit (·.setArcs number arcs)
    pure (codex, progress.2)

/-- Encodes the machine; gives back what the codex has grown into. -/
def encodeInPlace (codex : Codex W) : Work W (Codex W) := do
  let (grown, superfinal) ← (List.range (← get).size).foldlM encodeAt (codex, none)
  Work.report
    (.encoded codex.flags.number (← get).size grown.entries.length superfinal.isSome)
  pure grown

/-! ## Decoding -/

/-- The decoded arcs of a state.  The machine is only read. -/
def decodedArcs (codex : Codex W) (number : Nat) : Work W (List (Arc W)) := do
  let s ← Work.ofExcept ((← get).state number)
  match s.arcs.mapM codex.decodeArc with
  | .ok arcs => pure arcs
  | .error e =>
    Work.report (.decodeFailed number e)
    throw (.error e)

/-- Turns the arcs from a state to the superfinal state back into a final weight. -/
def foldAt (superfinal number : Nat) : Work W Unit := do
  let s ← Work.ofExcept ((← get).state number)
  let (moved, kept) := s.arcs.partition (·.target == superfinal)
  if moved.isEmpty then pure ()
  else
    let final := moved.foldl (fun sum arc => addFinal sum arc.weight) s.final
    Work.edit (·.setFinal number final)
    Work.edit (·.setArcs number kept)

/-- Folds the superfinal state away. -/
def foldInPlace (superfinal : Nat) : Work W Unit := do
  forM (List.range superfinal) (foldAt superfinal)
  set (← get).deleteLast
  Work.report (.folded superfinal)

/-- Decodes the machine. -/
def decodeInPlace (codex : Codex W) : Work W Unit := do
  let decoded ← (List.range (← get).size).mapM (decodedArcs codex)
  forM decoded.zipIdx fun (arcs, number) => Work.edit (·.setArcs number arcs)
  if codex.flags.weights then
    match (← get).superfinal? with
    | none => pure ()
    | some superfinal => foldInPlace superfinal

/-- Decodes the machine with a codex kept under a path. -/
def decodeInPlaceWith (storage : σ) (path : String) (delimiters : Delimiters) : Work W Unit := do
  match ← Work.aside (Codex.load storage path delimiters) with
  | .error e => throw (.error e)
  | .ok codex => decodeInPlace codex

end Machine
end WeightedTransducer
