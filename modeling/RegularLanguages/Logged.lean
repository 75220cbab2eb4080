import RegularLanguages.Event

/-!
# Computations that log and may fault

A `Logged α` is the outcome of a computation together with the events on the way to it, in order.
The events before a fault are kept.
-/

namespace RegularLanguages

structure Logged (α : Type) where
  events : List Event
  outcome : Except Fault α

namespace Logged

protected def pure {α : Type} (a : α) : Logged α := ⟨[], .ok a⟩

protected def bind {α β : Type} (x : Logged α) (f : α → Logged β) : Logged β :=
  match x.outcome with
  | .error fault => ⟨x.events, .error fault⟩
  | .ok a => ⟨x.events ++ (f a).events, (f a).outcome⟩

instance : Monad Logged where
  pure := Logged.pure
  bind := Logged.bind

/-- A computation that logs nothing. -/
def ofExcept {α : Type} (x : Except Fault α) : Logged α := ⟨[], x⟩

instance : MonadLift (Except Fault) Logged := ⟨ofExcept⟩

def log (e : Event) : Logged Unit := ⟨[e], .ok ()⟩

@[simp] theorem outcome_pure {α : Type} (a : α) : (pure a : Logged α).outcome = .ok a := rfl

@[simp] theorem events_pure {α : Type} (a : α) : (pure a : Logged α).events = [] := rfl

@[simp] theorem outcome_liftM {α : Type} (x : Except Fault α) :
    (liftM x : Logged α).outcome = x := rfl

@[simp] theorem outcome_ofExcept {α : Type} (x : Except Fault α) : (ofExcept x).outcome = x := rfl

@[simp] theorem outcome_log (e : Event) : (log e).outcome = .ok () := rfl

@[simp] theorem ok_bind {α β : Type} (a : α) (f : α → Except Fault β) :
    (Except.ok a >>= f) = f a := rfl

@[simp] theorem error_bind {α β : Type} (fault : Fault) (f : α → Except Fault β) :
    (Except.error fault >>= f) = .error fault := rfl

@[simp] theorem pure_eq_ok {α : Type} (a : α) : (pure a : Except Fault α) = .ok a := rfl

/-- A computation in two parts succeeds if both do. -/
theorem bind_eq_ok_iff {α β : Type} {x : Except Fault α} {f : α → Except Fault β} {b : β} :
    (x >>= f) = .ok b ↔ ∃ a, x = .ok a ∧ f a = .ok b := by
  cases x <;> simp

@[simp] theorem outcome_bind {α β : Type} (x : Logged α) (f : α → Logged β) :
    (x >>= f).outcome = x.outcome >>= fun a => (f a).outcome := by
  show (Logged.bind x f).outcome = _
  unfold Logged.bind
  cases x.outcome <;> rfl

end Logged

end RegularLanguages
