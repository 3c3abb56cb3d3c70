import WeightedTransducer.Composite.Textual

/-!
# Reading a composite value

A `CompositeReader` takes a composite value from a stream of characters in steps: `opening`, then
`element` as often as there are elements, then `closing`.  It knows how deep it is in parentheses,
so that the delimiters of an element's own elements stay inside that element's text.  The first
failure makes it invalid: every later step fails and changes nothing.  Delimiters that cannot be
told apart make every step fail.

`Delimiters.scan` takes the characters of one element, and `Delimiters.scan_append` says that it
loses none.
-/

namespace WeightedTransducer

namespace Delimiters

/-- Whether a character ends an element at a depth of parentheses.  Separators end every element
but the last. -/
def endsElement (d : Delimiters) (last : Bool) (depth : Nat) (c : Char) : Bool :=
  Text.isBlank c || (c == d.separator && depth ≤ 1 && !last)
    || (d.closing == some c && depth == 1)

/-- What taking the characters of an element leaves. -/
structure Scan where
  /-- The characters taken. -/
  text : List Char
  /-- The characters that follow. -/
  ahead : List Char
  /-- The depth of parentheses after the characters taken. -/
  depth : Nat
  /-- The closing parenthesis at which it stopped because it closes nothing. -/
  unmatched : Option Char := none
  deriving DecidableEq, Repr

/-- A scan that took one more character first. -/
def Scan.cons (c : Char) (s : Scan) : Scan :=
  { s with text := c :: s.text }

/-- Takes the characters up to the end of an element. -/
def scan (d : Delimiters) (last : Bool) : (depth : Nat) → List Char → Scan
  | depth, [] => { text := [], ahead := [], depth }
  | depth, c :: rest =>
    if d.endsElement last depth c then { text := [], ahead := c :: rest, depth }
    else if d.opening = some c then (d.scan last (depth + 1) rest).cons c
    else if d.closing = some c then
      match depth with
      | 0 => { text := [], ahead := c :: rest, depth := 0, unmatched := some c }
      | depth + 1 => (d.scan last depth rest).cons c
    else (d.scan last depth rest).cons c

/-- The characters taken and the characters that follow are all there were. -/
theorem scan_append (d : Delimiters) (last : Bool) (depth : Nat) (input : List Char) :
    (d.scan last depth input).text ++ (d.scan last depth input).ahead = input := by
  induction input generalizing depth with
  | nil => simp [scan]
  | cons c rest ih =>
    unfold scan
    split
    · rfl
    · split
      · simp [Scan.cons, ih]
      · split
        · cases depth with
          | zero => rfl
          | succ depth => simp [Scan.cons, ih]
        · simp [Scan.cons, ih]

end Delimiters

/-- The state of reading one composite value. -/
structure CompositeReader where
  /-- The delimiters in use. -/
  delimiters : Delimiters
  /-- The characters not yet used; the first of them has been taken from the stream. -/
  ahead : List Char
  /-- The depth of parentheses. -/
  depth : Nat := 0
  /-- Whether no step has failed. -/
  valid : Bool := true
  deriving DecidableEq, Repr

namespace CompositeReader

/-- The character taken from the stream and not yet used. -/
def current (r : CompositeReader) : Option Char :=
  r.ahead.head?

/-- What the stream still holds. -/
def rest (r : CompositeReader) : List Char :=
  r.ahead.tail

/-- A reader at the start of a stream.  Delimiters that cannot be told apart make it invalid. -/
def start (delimiters : Delimiters) (input : List Char) : Traced CompositeReader :=
  match delimiters.conflict? with
  | some c => do
    Traced.report (.conflict c)
    pure { delimiters, ahead := input, valid := false }
  | none => pure { delimiters, ahead := input }

end CompositeReader

/-- A step of reading: its result and the reader afterwards. -/
def Reading (α : Type) :=
  CompositeReader → Traced (Except ReadError α × CompositeReader)

namespace Reading
variable {α β : Type}

instance : Monad Reading where
  pure a := fun r => pure (.ok a, r)
  bind step next := fun r => do
    match ← step r with
    | (.ok a, r) => next a r
    | (.error e, r) => pure (.error e, r)

/-- Fails, and makes the reader invalid. -/
def fail (e : ReadError) : Reading α := fun r => do
  Traced.report (.readFailed e r.depth)
  pure (.error e, { r with valid := false })

@[simp] theorem value_fail (e : ReadError) (r : CompositeReader) :
    (fail e r : Traced (Except ReadError α × _)).value = (.error e, { r with valid := false }) :=
  rfl

/-- Takes the step only where the delimiters can be told apart and no earlier step has failed. -/
def guarded (step : Reading α) : Reading α := fun r =>
  match r.delimiters.conflict? with
  | some c => pure (.error (.delimiters c), r)
  | none => if r.valid then step r else pure (.error .afterFailure, r)

/-- Skips white space and takes the opening parenthesis, if there are parentheses. -/
def opening : Reading Unit := guarded fun r =>
  let r := { r with ahead := Text.trimStart r.ahead }
  match r.delimiters.opening with
  | none => pure (.ok (), r)
  | some c =>
    if r.current = some c then pure (.ok (), { r with ahead := r.rest, depth := r.depth + 1 })
    else fail (.missingOpening c r.current) r

/-- Takes the separator or the closing parenthesis that ended an element; the answer says whether
more elements follow. -/
def afterElement (r : CompositeReader) : Bool × CompositeReader :=
  match r.ahead with
  | [] => (false, r)
  | c :: ahead =>
    if Text.isBlank c then (false, r)
    else if r.delimiters.closing = some c && r.depth == 1 then (false, { r with ahead, depth := 0 })
    else (ahead.head?.any (!Text.isBlank ·), { r with ahead })

/-- Takes one element, up to the end of the input, white space, a separator that stands between
elements (unless the element is the last), or the closing parenthesis of the value; the answer says
whether more elements follow. -/
def element [Textual α] (last : Bool) : Reading (α × Bool) := guarded fun r =>
  let s := r.delimiters.scan last r.depth r.ahead
  let r := { r with ahead := s.ahead, depth := s.depth }
  match s.unmatched with
  | some c => fail (.unmatchedClosing c) r
  | none =>
    if s.text.isEmpty then fail .emptyElement r
    else do
      match ← Textual.read r.delimiters s.text with
      | .error e => fail e r
      | .ok a =>
        let (more, r) := afterElement r
        pure (.ok (a, more), r)

/-- Fails where something other than white space follows. -/
def nothingFollows : Reading Unit := fun r =>
  match r.current with
  | some c => if Text.isBlank c then pure (.ok (), r) else fail (.excess c) r
  | none => pure (.ok (), r)

/-- Takes a closing parenthesis that is still due, after white space, and fails unless all
parentheses are closed and nothing but white space follows. -/
def closing : Reading Unit := guarded fun r =>
  match r.delimiters.closing with
  | none => nothingFollows r
  | some c =>
    let r := if r.depth = 1 then takeClosing c { r with ahead := Text.trimStart r.ahead } else r
    if r.depth = 0 then nothingFollows r else fail (.missingClosing c) r
where
  /-- Takes the closing parenthesis, if it is there. -/
  takeClosing (c : Char) (r : CompositeReader) : CompositeReader :=
    if r.current = some c then { r with ahead := r.rest, depth := 0 } else r

/-- Reads a complete text with one reader. -/
def runOn (delimiters : Delimiters) (text : List Char) (reading : Reading α) :
    Traced (Except ReadError α) := do
  let r ← CompositeReader.start delimiters text
  let (result, _) ← reading r
  pure result

end Reading
end WeightedTransducer
