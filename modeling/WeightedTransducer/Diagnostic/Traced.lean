import WeightedTransducer.Diagnostic.Event

/-!
# Results with the events on the way to them

`Traced α` is a value and the events reported while it was computed, in order.  Taking the value
commutes with `pure` and `>>=` (`Traced.value_pure`, `Traced.value_bind`), so a statement about
values need not mention events.
-/

namespace WeightedTransducer

/-- A value and the events reported on the way to it, in order. -/
structure Traced (α : Type) where
  /-- The value. -/
  value : α
  /-- The events, the first one first. -/
  events : List Event := []

namespace Traced
variable {α β : Type}

instance : Monad Traced where
  pure a := { value := a }
  bind x next :=
    let y := next x.value
    { value := y.value, events := x.events ++ y.events }

@[simp] theorem value_pure (a : α) : (pure a : Traced α).value = a := rfl

@[simp] theorem events_pure (a : α) : (pure a : Traced α).events = [] := rfl

@[simp] theorem value_bind (x : Traced α) (next : α → Traced β) :
    (x >>= next).value = (next x.value).value := rfl

@[simp] theorem events_bind (x : Traced α) (next : α → Traced β) :
    (x >>= next).events = x.events ++ (next x.value).events := rfl

@[simp] theorem value_map (g : α → β) (x : Traced α) : (g <$> x).value = g x.value := rfl

@[simp] theorem events_map (g : α → β) (x : Traced α) : (g <$> x).events = x.events := by
  show x.events ++ [] = x.events
  simp

instance : LawfulMonad Traced := LawfulMonad.mk' Traced
  (fun x => by cases x; simp [Functor.map])
  (fun x f => by simp [Bind.bind, Pure.pure])
  (fun x f g => by simp [Bind.bind, List.append_assoc])

/-- What follows a result depends on its value only. -/
theorem bind_congr {x : Traced α} {f g : α → Traced β} (h : f x.value = g x.value) :
    x >>= f = x >>= g := by
  show (⟨(f x.value).value, x.events ++ (f x.value).events⟩ : Traced β) =
    ⟨(g x.value).value, x.events ++ (g x.value).events⟩
  rw [h]

/-- Reports an event. -/
def report (event : Event) : Traced Unit :=
  { value := (), events := [event] }

@[simp] theorem value_report (event : Event) : (report event).value = () := rfl

@[simp] theorem events_report (event : Event) : (report event).events = [event] := rfl

end Traced
end WeightedTransducer
