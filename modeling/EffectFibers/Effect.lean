import EffectFibers.Callback
import EffectFibers.Context
import EffectFibers.Memory

/-!
# Effects

An `Effect` describes a computation that may succeed with a value, fail with a value, suspend,
or be cancelled.  It is data: nothing happens until a fiber evaluates it.

Closures of the program occur in two forms.  `perform` runs a step on the memory.  Every other
closure computes the next effect, or the next value, from a value alone.  A closure that gives
up while it computes an effect yields `fault`.

The combinators that programs are written with are in `EffectFibers.Effect.Combinators`.
-/

namespace EffectFibers

/-- What a step on the memory hands to the rest of the effect. -/
inductive Reply where
  | value (v : Value)
  | cell (c : CellId)
  | access (v : Value) (s : SetterId)
deriving Inhabited

/-- The value of a reply that is one. -/
def Reply.toValue : Reply → Value
  | .value v => v
  | .cell _ => .null
  | .access v _ => v

/-- One completion of a callback: the result it delivers, or the fault of computing it. -/
abbrev Completion := Except Fault Result

/-- What a registration does with the callback it is given. -/
structure Registration where
  /-- Completions made while the registration runs, in order. -/
  immediate : List Completion := []
  /-- Completions made by a task of its own, each at a time since the task began. -/
  later : List (Nat × Completion) := []
  /-- A clone is kept for ever. -/
  held : Bool := false
  /-- The lane in which the callback is shown before and after the immediate completions. -/
  shown : Option Lane := none
deriving Inhabited

/-- Something that a fiber can wait for. -/
inductive Future where
  | never
  | timer (delay : Nat) (result : Result)
  | cancellation (token : TokenId)
deriving Inhabited

inductive Effect where
  | pure (value : Value)
  | fail (error : Value)
  | fault (fault : Fault)
  | perform (act : Site → Memory → Except Fault Reply × Memory) (next : Reply → Effect)
  | cancel (token : TokenId)
  | isCancelled (token : TokenId)
  | map (source : Effect) (f : Value → Except Fault Value)
  | flatMap (source : Effect) (f : Value → Effect)
  | handleErrorWith (source : Effect) (handler : Value → Effect)
  /-- Runs `body` on the current value for as long as `again` asks for it. -/
  | loop (again : Value → Except Fault Bool) (body : Value → Effect) (value : Value)
  | async (registration : Registration)
  | await (future : Future)
  | shift (context : Context)
  | bracket (acquire : Effect) (use : Value → Effect) (release : Value → ExitCase Value → Effect)
  | race (left right : Effect)
  | parallel (count : Nat) (operands : Fin count → Effect)
deriving Inhabited

namespace Effect

/-- The effect that does nothing. -/
def unit : Effect := .pure .null

/-- The effect that was built, or the fault of building it. -/
def ofExcept : Except Fault Effect → Effect
  | .ok effect => effect
  | .error f => .fault f

/-- The fault of building an effect, if there was one. -/
def fault? : Effect → Option Fault
  | .fault f => some f
  | _ => none

end Effect

end EffectFibers
