import EffectFibers.Fault
import EffectFibers.Value

/-!
# Single-shot callbacks

A `Callback` is the slot that a fiber waits on after it has handed out the means of completing
it.  Clones of the callback share the slot: the first completion through any of them delivers
its result, every later one is a fault of whoever makes it.  When the last clone is gone and no
completion was made, the waiting fiber can only fault.

## Main statements

* `Callback.complete_pending`, `Callback.complete_spent`: only the first completion delivers.
* `Callback.poll`: a delivered result comes first, then the loss of every clone.
-/

namespace EffectFibers

/-- What a completion delivers: a success or a failure. -/
abbrev Result := Except Value Value

structure Callback where
  /-- How many clones are held. -/
  handles : Nat := 1
  /-- No completion has been made yet. -/
  pending : Bool := true
  delivered : Option Result := none

namespace Callback

def clone (c : Callback) : Callback := { c with handles := c.handles + 1 }

/-- One clone is dropped. -/
def drop (c : Callback) : Callback := { c with handles := c.handles - 1 }

/-- A completion through any clone. -/
def complete (c : Callback) (result : Result) : Except Fault Callback :=
  if c.pending then .ok { c with pending := false, delivered := some result }
  else .error .callbackRepeated

/-- What the waiting fiber finds. -/
inductive State where
  | delivered (result : Result)
  | dropped
  | waiting

def poll (c : Callback) : State :=
  match c.delivered with
  | some result => .delivered result
  | none => if c.handles = 0 then .dropped else .waiting

/-- The text that shows the callback. -/
def describe (c : Callback) : String :=
  "Callback \x7b pending: " ++ toString c.pending ++ " \x7d"

/-! ## Lemmas -/

theorem complete_pending {c : Callback} (h : c.pending = true) (result : Result) :
    c.complete result = .ok { c with pending := false, delivered := some result } := by
  simp [complete, h]

theorem complete_spent {c : Callback} (h : c.pending = false) (result : Result) :
    c.complete result = .error .callbackRepeated := by
  simp [complete, h]

theorem pending_of_complete {c d : Callback} {result : Result} (h : c.complete result = .ok d) :
    c.pending = true ∧ d.pending = false ∧ d.delivered = some result := by
  unfold complete at h
  split at h
  · next hp => cases h; exact ⟨hp, rfl, rfl⟩
  · cases h

end Callback

end EffectFibers
