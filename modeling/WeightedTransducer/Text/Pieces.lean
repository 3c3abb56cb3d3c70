/-!
# Pieces between separators

`pieces isSeparator xs` cuts a list at every separator.  There is always one piece more than there
are separators, and joining the pieces with what was cut gives the list back
(`length_pieces`, `pieces_append_separator`).
-/

namespace WeightedTransducer

/-- Puts an element in front of the first of some pieces. -/
def consFirst {α : Type} (x : α) : List (List α) → List (List α)
  | [] => [[x]]
  | first :: rest => (x :: first) :: rest

/-- The pieces of a list between its separators. -/
def pieces {α : Type} (isSeparator : α → Bool) : List α → List (List α)
  | [] => [[]]
  | x :: rest =>
    if isSeparator x then [] :: pieces isSeparator rest
    else consFirst x (pieces isSeparator rest)

variable {α : Type} (isSeparator : α → Bool)

theorem length_consFirst {x : α} {ps : List (List α)} (h : 0 < ps.length) :
    (consFirst x ps).length = ps.length := by
  cases ps with
  | nil => cases h
  | cons p ps => rfl

/-- There is one piece more than there are separators. -/
theorem length_pieces (xs : List α) :
    (pieces isSeparator xs).length = xs.countP isSeparator + 1 := by
  induction xs with
  | nil => rfl
  | cons x xs ih =>
    unfold pieces
    split
    · simp [*]
    · rw [length_consFirst (by omega), ih, List.countP_cons]
      simp [*]

/-- A front without separators is the start of the first piece. -/
theorem pieces_append_separator {front : List α} (h : ∀ x ∈ front, isSeparator x = false)
    {s : α} (hs : isSeparator s = true) (rest : List α) :
    pieces isSeparator (front ++ s :: rest) = front :: pieces isSeparator rest := by
  induction front with
  | nil => simp [pieces, hs]
  | cons x front ih =>
    rw [List.cons_append, pieces, if_neg (by simp [h x]), ih (fun y hy => h y (by simp [hy]))]
    rfl

/-- A list without separators is its own only piece. -/
theorem pieces_eq_singleton {xs : List α} (h : ∀ x ∈ xs, isSeparator x = false) :
    pieces isSeparator xs = [xs] := by
  induction xs with
  | nil => rfl
  | cons x xs ih =>
    rw [pieces, if_neg (by simp [h x]), ih (fun y hy => h y (by simp [hy]))]
    rfl

end WeightedTransducer
