import UtilityCss.Error
import UtilityCss.Event

/-!
Computations that may fail and that report events. What was reported before a failure is kept.
-/
namespace UtilityCss

structure Traced (α : Type) where
  events : List Event
  result : Except Error α

namespace Traced

def ofExcept {α : Type} (result : Except Error α) : Traced α :=
  ⟨[], result⟩

def report (events : List Event) : Traced Unit :=
  ⟨events, .ok ()⟩

def fail {α : Type} (e : Error) : Traced α :=
  ⟨[], .error e⟩

protected def bind {α β : Type} (x : Traced α) (f : α → Traced β) : Traced β :=
  match x.result with
  | .ok a => ⟨x.events ++ (f a).events, (f a).result⟩
  | .error e => ⟨x.events, .error e⟩

instance : Monad Traced where
  pure a := ⟨[], .ok a⟩
  bind := Traced.bind

@[simp] theorem result_pure {α : Type} (a : α) : (pure a : Traced α).result = .ok a := rfl

@[simp] theorem events_pure {α : Type} (a : α) : (pure a : Traced α).events = [] := rfl

@[simp] theorem result_bind {α β : Type} (x : Traced α) (f : α → Traced β) :
    (x >>= f).result = x.result.bind fun a => (f a).result := by
  show (Traced.bind x f).result = _
  unfold Traced.bind
  cases x.result <;> rfl

end Traced

end UtilityCss
