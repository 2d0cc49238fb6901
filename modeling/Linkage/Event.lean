import Linkage.Json.Shape

/-!
# Invocation events

An event says that a method of one class invokes a method of another class. Classes are told apart
by their names alone.

Embeds the type `InvocationEvent` with `is_self_invocation` and its derived JSON form.
-/

namespace Linkage

structure Event where
  caller : String
  callee : String
deriving DecidableEq, Repr

namespace Event

/-- A class that invokes itself says nothing about coupling. -/
def isSelf (e : Event) : Bool := e.caller == e.callee

def format : Json.Format Event :=
  .ofShape (.record "InvocationEvent" (.field "caller" .text (.field "callee" .text .done)))
    (fun (caller, callee, _) => ⟨caller, callee⟩)
    (fun e => (e.caller, e.callee, ()))

end Event

end Linkage
