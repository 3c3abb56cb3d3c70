import WeightedTransducer.Proofs.Composite.Depth

/-!
# Failing calls of a reader

Whoever reads from a stream goes on with it after a failure, so a reader that fails must not take
more than it has looked at.  There are six places at which a call fails on its own
(`CompositeReader.Call.Fails`), and at five of them the character to blame has not been used.  The
sixth passes on the error with which the type of an element has refused its text; whatever that
error names, it names something inside the text, which has been used as a whole.  The first call
that fails is the last that does anything: a reader is valid as long as all calls have succeeded
(`CompositeReader.valid_after_iff`), and an invalid reader stays as it is
(`CompositeReader.after_of_not_valid`).
-/

namespace WeightedTransducer

/-- Whether a step succeeds, and the reader afterwards. -/
def Reading.outcome {α : Type} (step : Reading α) (r : CompositeReader) :
    Except ReadError Unit × CompositeReader :=
  ((step r).value.1.map fun _ => (), (step r).value.2)

/-- What an error says about the reader that it comes from, before and after the call: a character
that the error names is the next one, if there is one, and where it speaks of an empty element, the
call has taken nothing. -/
def ReadError.NamesAhead (r r' : CompositeReader) : ReadError → Prop
  | missingOpening _ found => r'.current = found
  | unmatchedClosing found | excess found => r'.current = some found
  | emptyElement => r'.ahead = r.ahead ∧ r'.depth = r.depth
  | delimiters _ | missingClosing _ | element _ _ | afterFailure => True

namespace CompositeReader

/-- A call of a reader, with elements of any type. -/
inductive Call : Type 1 where
  /-- Takes the opening parenthesis. -/
  | opening
  /-- Takes an element. -/
  | element (α : Type) [Textual α] (last : Bool)
  /-- Takes the closing parenthesis. -/
  | closing

/-- The reader where its value should end: a closing parenthesis that is due is taken, if it is
there. -/
def atEnd (r : CompositeReader) : CompositeReader :=
  match r.delimiters.closing with
  | none => r
  | some c =>
    if r.depth = 1 then Reading.closing.takeClosing c { r with ahead := Text.trimStart r.ahead }
    else r

namespace Call

/-- Whether a call succeeds on a reader, and the reader afterwards. -/
def on : Call → CompositeReader → Except ReadError Unit × CompositeReader
  | opening, r => Reading.opening.outcome r
  | element α last, r => (Reading.element last : Reading (α × Bool)).outcome r
  | closing, r => Reading.closing.outcome r

/-- A call takes an element whole, and the element's type refuses its text with an error. -/
def Refuses (r : CompositeReader) (e : ReadError) : Call → Prop
  | element α last =>
    let s := r.delimiters.scan last r.depth r.ahead
    s.unmatched = none ∧ s.text ≠ [] ∧
      (Textual.read r.delimiters s.text : Traced (Except ReadError α)).value = .error e
  | opening | closing => False

/-- The ways in which a call fails, and the reader afterwards. -/
inductive Fails (r : CompositeReader) : Call → ReadError → CompositeReader → Prop
  | missingOpening {o : Char} (ho : r.delimiters.opening = some o)
    (hhead : (Text.trimStart r.ahead).head? ≠ some o) :
    Fails r opening (.missingOpening o (Text.trimStart r.ahead).head?)
      { r with ahead := Text.trimStart r.ahead, valid := false }
  | unmatchedClosing {α : Type} [Textual α] {last : Bool} {c : Char} {text rest : List Char}
    (hscan : r.delimiters.scan last r.depth r.ahead = ⟨text, c :: rest, 0, some c⟩) :
    Fails r (element α last) (.unmatchedClosing c)
      { r with ahead := c :: rest, depth := 0, valid := false }
  | emptyElement {α : Type} [Textual α] {last : Bool}
    (hscan : r.delimiters.scan last r.depth r.ahead = ⟨[], r.ahead, r.depth, none⟩) :
    Fails r (element α last) .emptyElement { r with valid := false }
  | refused {α : Type} [Textual α] {last : Bool} {e : ReadError}
    (hrefuses : (element α last).Refuses r e) :
    Fails r (element α last) e
      { r with
        ahead := (r.delimiters.scan last r.depth r.ahead).ahead
        depth := (r.delimiters.scan last r.depth r.ahead).depth
        valid := false }
  | missingClosing {c : Char} (hc : r.delimiters.closing = some c) (hdepth : r.atEnd.depth ≠ 0) :
    Fails r closing (.missingClosing c) { r.atEnd with valid := false }
  | excess {c : Char} (hdepth : r.delimiters.closing.isSome → r.atEnd.depth = 0)
    (hhead : r.atEnd.current = some c) (hblank : Text.isBlank c = false) :
    Fails r closing (.excess c) { r.atEnd with valid := false }

/-- What a call on a valid reader comes to: it leaves a valid reader, or fails in one of those
ways. -/
def Settles (r : CompositeReader) (call : Call) : Except ReadError Unit × CompositeReader → Prop
  | (.ok (), r') => r'.valid = true
  | (.error e, r') => Fails r call e r'

end Call

/-- The reader after some calls, whether they succeed or not. -/
def after (r : CompositeReader) (calls : List Call) : CompositeReader :=
  calls.foldl (fun r call => (call.on r).2) r

/-- All calls succeed, one after the other. -/
def Succeed (r : CompositeReader) : List Call → Prop
  | [] => True
  | call :: calls => (call.on r).1 = .ok () ∧ (call.on r).2.Succeed calls

end CompositeReader

/-! ## Scans that stop early -/

namespace Delimiters
variable {d : Delimiters} {last : Bool}

/-- A closing parenthesis that closes nothing is met outside all parentheses, and is the next
character. -/
theorem scan_of_unmatched {depth : Nat} {input : List Char} {c : Char}
    (h : (d.scan last depth input).unmatched = some c) :
    (d.scan last depth input).depth = 0 ∧ (d.scan last depth input).ahead.head? = some c := by
  induction input generalizing depth with
  | nil => cases h
  | cons x rest ih =>
    unfold scan at h ⊢
    split at h
    · cases h
    · rename_i hends
      rw [if_neg hends]
      split at h
      · rename_i hopen
        rw [if_pos hopen]
        exact ih h
      · rename_i hopen
        rw [if_neg hopen]
        split at h
        · rename_i hclose
          rw [if_pos hclose]
          cases depth with
          | zero => exact ⟨rfl, h⟩
          | succ depth => exact ih h
        · rename_i hclose
          rw [if_neg hclose]
          exact ih h

/-- An element without characters leaves everything as it was. -/
theorem scan_of_text_eq_nil {depth : Nat} {input : List Char}
    (htext : (d.scan last depth input).text = [])
    (hunmatched : (d.scan last depth input).unmatched = none) :
    d.scan last depth input = ⟨[], input, depth, none⟩ := by
  cases input with
  | nil => rfl
  | cons x rest =>
    unfold scan at htext hunmatched ⊢
    split
    · rfl
    · rename_i hends
      rw [if_neg hends] at htext hunmatched
      split at htext
      · cases htext
      · rename_i hopen
        rw [if_neg hopen] at hunmatched
        split at htext
        · rename_i hclose
          rw [if_pos hclose] at hunmatched
          cases depth with
          | zero => cases hunmatched
          | succ depth => cases htext
        · cases htext

end Delimiters

namespace Reading
variable {α : Type} {r r' : CompositeReader} {e : ReadError}

theorem outcome_eq_error_iff {step : Reading α} :
    step.outcome r = (.error e, r') ↔ (step r).value = (.error e, r') := by
  unfold outcome
  obtain ⟨result, mid⟩ := (step r).value
  cases result <;> simp [Except.map]

theorem value_guarded_of_conflict {c : Delimiters.Conflict} (hd : r.delimiters.conflict? = some c)
    (step : Reading α) : (guarded step r).value = (.error (.delimiters c), r) := by
  unfold guarded
  rw [hd]
  rfl

theorem value_guarded_of_not_valid (hd : r.delimiters.conflict? = none) (hv : r.valid = false)
    (step : Reading α) : (guarded step r).value = (.error .afterFailure, r) := by
  unfold guarded
  rw [hd]
  dsimp only
  rw [hv]
  rfl

theorem value_guarded_of_valid (hd : r.delimiters.conflict? = none) (hv : r.valid = true)
    (step : Reading α) : (guarded step r).value = (step r).value := by
  unfold guarded
  rw [hd]
  dsimp only
  rw [if_pos hv]

end Reading

/-! ## One call -/

namespace CompositeReader
variable {r r' : CompositeReader} {e : ReadError} {call : Call} {calls : List Call}

theorem atEnd_of_none (hc : r.delimiters.closing = none) : r.atEnd = r := by
  unfold atEnd
  rw [hc]

theorem atEnd_of_some {c : Char} (hc : r.delimiters.closing = some c) :
    r.atEnd = if r.depth = 1 then
      Reading.closing.takeClosing c { r with ahead := Text.trimStart r.ahead } else r := by
  unfold atEnd
  rw [hc]

theorem valid_afterElement (r : CompositeReader) :
    (Reading.afterElement r).2.valid = r.valid := by
  unfold Reading.afterElement
  split
  · rfl
  · split
    · rfl
    · split <;> rfl

theorem valid_atEnd (r : CompositeReader) : r.atEnd.valid = r.valid := by
  unfold atEnd Reading.closing.takeClosing
  split
  · rfl
  · split
    · split <;> rfl
    · rfl

namespace Call

/-- What all guarded steps answer, all calls answer. -/
theorem on_of_guarded (h : ∀ {α : Type} (step : Reading α),
    (Reading.guarded step r).value = (.error e, r)) (call : Call) : call.on r = (.error e, r) := by
  cases call with
  | opening => exact Reading.outcome_eq_error_iff.mpr (h _)
  | element α last => exact Reading.outcome_eq_error_iff.mpr (h _)
  | closing => exact Reading.outcome_eq_error_iff.mpr (h _)

/-- Where delimiters are in conflict, every call says so and does nothing else. -/
theorem on_of_conflict {c : Delimiters.Conflict} (hd : r.delimiters.conflict? = some c)
    (call : Call) : call.on r = (.error (.delimiters c), r) :=
  on_of_guarded (Reading.value_guarded_of_conflict hd) call

/-- On an invalid reader, every call does nothing. -/
theorem on_of_not_valid (hd : r.delimiters.conflict? = none) (hv : r.valid = false) (call : Call) :
    call.on r = (.error .afterFailure, r) :=
  on_of_guarded (Reading.value_guarded_of_not_valid hd hv) call

/-- Where a value should end, nothing but white space may follow. -/
theorem settles_nothingFollows (hend : r.atEnd.valid = true)
    (hdepth : r.delimiters.closing.isSome → r.atEnd.depth = 0) :
    Settles r closing (Reading.nothingFollows.outcome r.atEnd) := by
  unfold Reading.outcome Reading.nothingFollows
  cases hhead : r.atEnd.current with
  | none => exact hend
  | some c =>
    dsimp only
    cases hblank : Text.isBlank c with
    | true => exact hend
    | false => exact .excess hdepth hhead hblank

section Valid
variable (hc : r.delimiters.conflict? = none) (hv : r.valid = true)
include hc hv

theorem settles_opening : Settles r opening (Reading.opening.outcome r) := by
  unfold Reading.outcome
  rw [show (Reading.opening r).value = _ from Reading.value_guarded_of_valid hc hv _]
  dsimp only
  cases ho : r.delimiters.opening with
  | none => exact hv
  | some o =>
    dsimp only
    split
    · exact hv
    · rename_i hhead
      exact .missingOpening ho hhead

theorem settles_element (α : Type) [Textual α] (last : Bool) :
    Settles r (element α last) ((Reading.element last : Reading (α × Bool)).outcome r) := by
  unfold Reading.outcome
  rw [show ((Reading.element last : Reading (α × Bool)) r).value = _ from
    Reading.value_guarded_of_valid hc hv _]
  dsimp only
  cases hunmatched : (r.delimiters.scan last r.depth r.ahead).unmatched with
  | some c =>
    obtain ⟨hdepth, hhead⟩ := Delimiters.scan_of_unmatched hunmatched
    obtain ⟨rest, hahead⟩ := List.head?_eq_some_iff.mp hhead
    have hscan : r.delimiters.scan last r.depth r.ahead =
        ⟨(r.delimiters.scan last r.depth r.ahead).text, c :: rest, 0, some c⟩ := by
      rw [← hdepth, ← hahead, ← hunmatched]
    rw [hscan]
    exact .unmatchedClosing hscan
  | none =>
    dsimp only
    split
    · rename_i hempty
      have hscan := Delimiters.scan_of_text_eq_nil (List.isEmpty_iff.mp hempty) hunmatched
      rw [hscan]
      exact .emptyElement hscan
    · rename_i hne
      rw [Traced.value_bind]
      split
      · rename_i hread
        exact .refused ⟨hunmatched, fun h => hne (List.isEmpty_iff.mpr h), hread⟩
      · exact (valid_afterElement _).trans hv

theorem settles_closing : Settles r closing (Reading.closing.outcome r) := by
  have hfollows := settles_nothingFollows (r.valid_atEnd.trans hv)
  unfold Reading.outcome at hfollows ⊢
  rw [show (Reading.closing r).value = _ from Reading.value_guarded_of_valid hc hv _]
  dsimp only
  cases hclosing : r.delimiters.closing with
  | none =>
    rw [atEnd_of_none hclosing, hclosing] at hfollows
    exact hfollows nofun
  | some c =>
    dsimp only
    rw [← atEnd_of_some hclosing]
    split
    · rename_i hdepth
      exact hfollows fun _ => hdepth
    · rename_i hdepth
      exact .missingClosing hclosing hdepth

/-- **A call leaves a valid reader valid, or fails in one of six ways.** -/
theorem settles (call : Call) : Settles r call (call.on r) := by
  cases call with
  | opening => exact settles_opening hc hv
  | element α last => exact settles_element hc hv α last
  | closing => exact settles_closing hc hv

/-- Where one of the six ways to fail is open, the call fails in that way. -/
theorem Fails.on_eq (h : Fails r call e r') : call.on r = (.error e, r') := by
  cases h with
  | missingOpening ho hhead =>
    refine Reading.outcome_eq_error_iff.mpr ((Reading.value_guarded_of_valid hc hv _).trans ?_)
    dsimp only
    rw [ho]
    dsimp only
    split
    · rename_i h
      exact absurd h hhead
    · rfl
  | unmatchedClosing hscan =>
    refine Reading.outcome_eq_error_iff.mpr ((Reading.value_guarded_of_valid hc hv _).trans ?_)
    dsimp only
    rw [hscan]
    rfl
  | emptyElement hscan =>
    refine Reading.outcome_eq_error_iff.mpr ((Reading.value_guarded_of_valid hc hv _).trans ?_)
    dsimp only
    rw [hscan]
    rfl
  | refused hrefuses =>
    obtain ⟨hunmatched, hne, hread⟩ := hrefuses
    refine Reading.outcome_eq_error_iff.mpr ((Reading.value_guarded_of_valid hc hv _).trans ?_)
    dsimp only
    rw [hunmatched]
    dsimp only
    rw [if_neg fun h => hne (List.isEmpty_iff.mp h), Traced.value_bind, hread]
    rfl
  | missingClosing hclosing hdepth =>
    refine Reading.outcome_eq_error_iff.mpr ((Reading.value_guarded_of_valid hc hv _).trans ?_)
    dsimp only
    rw [hclosing]
    dsimp only
    rw [← atEnd_of_some hclosing, if_neg hdepth]
    rfl
  | excess hdepth hhead hblank =>
    refine Reading.outcome_eq_error_iff.mpr ((Reading.value_guarded_of_valid hc hv _).trans ?_)
    have hfollows {c : Char} (hhead : r.atEnd.current = some c) (hblank : Text.isBlank c = false) :
        (Reading.nothingFollows r.atEnd).value =
          (.error (.excess c), { r.atEnd with valid := false }) := by
      unfold Reading.nothingFollows
      rw [hhead]
      dsimp only
      rw [hblank]
      rfl
    dsimp only
    cases hclosing : r.delimiters.closing with
    | none =>
      have hend := hfollows hhead hblank
      rwa [atEnd_of_none hclosing] at hend ⊢
    | some c =>
      dsimp only
      rw [← atEnd_of_some hclosing, if_pos (hdepth (by rw [hclosing]; rfl))]
      exact hfollows hhead hblank

/-- **A call on a valid reader fails exactly in one of the six ways.** -/
theorem on_eq_error_iff : call.on r = (.error e, r') ↔ Fails r call e r' := by
  refine ⟨fun hcall => ?_, Fails.on_eq hc hv⟩
  have hsettles := settles hc hv call
  rwa [hcall] at hsettles

end Valid

theorem Fails.valid_eq (h : Fails r call e r') : r'.valid = false := by
  cases h <;> rfl

/-- **What a reader names in an error of its own is still ahead.** -/
theorem Fails.namesAhead (h : Fails r call e r') (hown : ¬ call.Refuses r e) :
    e.NamesAhead r r' := by
  cases h with
  | missingOpening ho hhead => rfl
  | unmatchedClosing hscan => rfl
  | emptyElement hscan => exact ⟨rfl, rfl⟩
  | refused hrefuses => exact absurd hrefuses hown
  | missingClosing hc hdepth => trivial
  | excess hdepth hhead hblank => exact hhead

end Call

/-! ## Runs of calls -/

theorem after_eq_self (h : ∀ call : Call, call.on r = (.error e, r)) (calls : List Call) :
    r.after calls = r := by
  induction calls with
  | nil => rfl
  | cons call calls ih =>
    show (call.on r).2.after calls = r
    rw [h, ih]

/-- **An invalid reader stays as it is.** -/
theorem after_of_not_valid (hd : r.delimiters.conflict? = none) (hv : r.valid = false)
    (calls : List Call) : r.after calls = r :=
  after_eq_self (Call.on_of_not_valid hd hv) calls

theorem Reached.on {d : Delimiters} {input : List Char} (h : Reached d input r) (call : Call) :
    Reached d input (call.on r).2 := by
  cases call with
  | opening => exact .opening h
  | element α last => exact .element (α := α) h last
  | closing => exact .closing h

theorem Reached.after {d : Delimiters} {input : List Char} (h : Reached d input r)
    (calls : List Call) : Reached d input (r.after calls) := by
  induction calls generalizing r with
  | nil => exact h
  | cons call calls ih => exact ih (h.on call)

theorem Reached.conflict?_eq_none {d : Delimiters} {input : List Char} (hd : d.validate = .ok ())
    (h : Reached d input r) : r.delimiters.conflict? = none := by
  obtain ⟨text, huses⟩ := h.advances hd
  rw [huses.delimiters_eq]
  exact Delimiters.conflict?_eq_none_of_validate hd

/-- **A reader is valid as long as all calls have succeeded.** -/
theorem valid_after_iff {d : Delimiters} {input : List Char} (hd : d.validate = .ok ())
    (h : Reached d input r) (hv : r.valid = true) (calls : List Call) :
    (r.after calls).valid = true ↔ r.Succeed calls := by
  induction calls generalizing r with
  | nil => exact iff_of_true hv trivial
  | cons call calls ih =>
    have hsettles := Call.settles (h.conflict?_eq_none hd) hv call
    have hreached := h.on call
    show ((call.on r).2.after calls).valid = true ↔
      (call.on r).1 = .ok () ∧ (call.on r).2.Succeed calls
    generalize call.on r = result at hsettles hreached
    obtain ⟨result, mid⟩ := result
    cases result with
    | ok u =>
      rw [ih hreached hsettles]
      exact (and_iff_right rfl).symm
    | error e =>
      have hvalid : mid.valid = false := Call.Fails.valid_eq hsettles
      rw [after_of_not_valid (hreached.conflict?_eq_none hd) hvalid, hvalid]
      exact iff_of_false nofun fun hboth => nomatch hboth.1

/-- **The first failing call is the last that does anything**, and takes nothing beyond the
character to blame.  If the delimiters are in conflict, every call says so, and only the first
character has been taken.  Otherwise a reader is valid as long as all calls have succeeded, and the
next call fails exactly in one of the six ways; after the first failure every call says that it
comes too late and leaves everything as it is, and what the failure names is still ahead, unless it
is the error with which an element's type has refused the element's text. -/
theorem first_failure (d : Delimiters) (input : List Char) :
    let first := (start d input).value
    (∀ c, d.validate = .error c → first.valid = false ∧ first.current = input.head? ∧
      first.rest = input.tail ∧
      ∀ (before : List Call) (call : Call),
        call.on (first.after before) = (.error (.delimiters c), first)) ∧
    (d.validate = .ok () →
      (∀ calls : List Call, (first.after calls).valid = true ↔ first.Succeed calls) ∧
      ∀ (before : List Call) (call : Call) (e : ReadError) (failed : CompositeReader),
        first.Succeed before →
        (call.on (first.after before) = (.error e, failed) ↔
          call.Fails (first.after before) e failed) ∧
        (call.on (first.after before) = (.error e, failed) →
          failed.valid = false ∧ (∃ used, input = used ++ failed.ahead) ∧
          (¬ call.Refuses (first.after before) e → e.NamesAhead (first.after before) failed) ∧
          ∀ (later : List Call) (next : Call),
            next.on (failed.after later) = (.error .afterFailure, failed))) := by
  intro first
  have hstart : Reached d input first := .start
  refine ⟨fun c hc => ?_, fun hd => ?_⟩
  · have hconflict : d.conflict? = some c := Delimiters.conflict?_eq_some_of_validate hc
    have hfirst : first = { delimiters := d, ahead := input, valid := false } :=
      value_start_of_conflict hconflict input
    have hdelimiters : first.delimiters.conflict? = some c := by rw [hfirst, hconflict]
    have hon (call : Call) := call.on_of_conflict hdelimiters
    refine ⟨by rw [hfirst], by rw [hfirst, current], by rw [hfirst, rest], fun before call => ?_⟩
    rw [after_eq_self hon, hon]
  · have hvalid : first.valid = true := congrArg valid (value_start hd input)
    have hrun := valid_after_iff hd hstart hvalid
    refine ⟨hrun, fun before call e failed hbefore => ?_⟩
    have hreached := hstart.after before
    have hiff : call.on (first.after before) = (.error e, failed) ↔
        call.Fails (first.after before) e failed :=
      Call.on_eq_error_iff (hreached.conflict?_eq_none hd) ((hrun before).mpr hbefore)
    refine ⟨hiff, fun hcall => ?_⟩
    have hfails := hiff.mp hcall
    have hfailed : Reached d input failed := by
      have := hreached.on call
      rwa [hcall] at this
    obtain ⟨used, huses⟩ := hfailed.advances hd
    have hinvalid : failed.valid = false := Call.Fails.valid_eq hfails
    have hconflict := hfailed.conflict?_eq_none hd
    refine ⟨hinvalid, ⟨used, huses.ahead_eq⟩, Call.Fails.namesAhead hfails, fun later next => ?_⟩
    rw [after_of_not_valid hconflict hinvalid, next.on_of_not_valid hconflict hinvalid]

/-- A value that is followed by something else, and delimiters in conflict. -/
theorem first_failure_of_excess :
    let d : Delimiters := ⟨',', some ('(', ')')⟩
    let first := (start d " (a)x,y".toList).value
    let before : List Call := [.opening, .element String false]
    let failed : CompositeReader := ⟨d, "x,y".toList, 0, false⟩
    let confused : Delimiters := ⟨',', some ('(', ',')⟩
    let stuck := (start confused "(a".toList).value
    d.validate = .ok () ∧ first.Succeed before ∧
      Call.closing.on (first.after before) = (.error (.excess 'x'), failed) ∧
      ¬ Call.closing.Refuses (first.after before) (.excess 'x') ∧ failed.current = some 'x' ∧
      Call.opening.on (failed.after [.closing]) = (.error .afterFailure, failed) ∧
      confused.validate = .error (.separatorIsParenthesis ',') ∧
      Call.opening.on (stuck.after [.closing]) =
        (.error (.delimiters (.separatorIsParenthesis ',')), stuck) := by
  intro d first before failed confused stuck
  have hd : d.validate = .ok () := rfl
  have hbefore : first.Succeed before :=
    ⟨by decide +kernel, by decide +kernel, trivial⟩
  have hcall : Call.closing.on (first.after before) = (.error (.excess 'x'), failed) := by
    decide +kernel
  have hown : ¬ Call.closing.Refuses (first.after before) (.excess 'x') := id
  have hconfused : confused.validate = .error (.separatorIsParenthesis ',') := rfl
  obtain ⟨-, -, hnames, hlater⟩ :=
    (((first_failure d " (a)x,y".toList).2 hd).2 before .closing _ failed hbefore).2 hcall
  obtain ⟨-, -, -, hconflict⟩ := (first_failure confused "(a".toList).1 _ hconfused
  exact ⟨hd, hbefore, hcall, hown, hnames hown, hlater [.closing] .opening, hconfused,
    hconflict [.closing] .opening⟩

/-- **The error of an element's type may name what has been used**: a list that is an element lacks
its opening parenthesis, and the reader is at the separator after it. -/
theorem refused_names_used :
    let d : Delimiters := ⟨',', some ('(', ')')⟩
    let opened := (start d "(1,2)".toList).value.after [.opening]
    let failed : CompositeReader := ⟨d, ",2)".toList, 1, false⟩
    d.validate = .ok () ∧ opened.valid = true ∧ opened.ahead = "1,2)".toList ∧
      (Call.element (List UInt32) false).on opened =
        (.error (.missingOpening '(' (some '1')), failed) ∧
      ¬ ReadError.NamesAhead opened failed (.missingOpening '(' (some '1')) := by
  intro d opened failed
  have hcall : (Call.element (List UInt32) false).on opened =
      (.error (.missingOpening '(' (some '1')), failed) := by
    decide +kernel
  exact ⟨rfl, by decide +kernel, by decide +kernel, hcall, nofun⟩

end CompositeReader
end WeightedTransducer
