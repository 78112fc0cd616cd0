import EffectFibers.Value

/-!
# How a computation ends

`Outcome ε α` is what the caller of a run sees: a success, a typed failure, or cancellation.
`ExitCase ε` is what a finalizer sees: the same without the value of a success.  `RunError ε`
names the two ways of not succeeding.
-/

namespace EffectFibers

inductive Outcome (ε α : Type) where
  | succeeded (value : α)
  | errored (error : ε)
  | canceled
deriving DecidableEq, Inhabited

inductive ExitCase (ε : Type) where
  | completed
  | error (error : ε)
  | canceled
deriving DecidableEq, Inhabited

inductive RunError (ε : Type) where
  | failed (error : ε)
  | canceled
deriving DecidableEq, Inhabited

namespace ExitCase

variable {ε ε' : Type}

def isCompleted : ExitCase ε → Bool
  | .completed => true
  | _ => false

def isError : ExitCase ε → Bool
  | .error _ => true
  | _ => false

def isCanceled : ExitCase ε → Bool
  | .canceled => true
  | _ => false

def mapError (f : ε → ε') : ExitCase ε → ExitCase ε'
  | .completed => .completed
  | .error e => .error (f e)
  | .canceled => .canceled

/-- The case as a value. -/
def toValue : ExitCase Value → Value
  | .completed => .text "completed"
  | .error e => .tagged "error" e
  | .canceled => .text "canceled"

end ExitCase

namespace RunError

variable {ε : Type}

def failure? : RunError ε → Option ε
  | .failed e => some e
  | .canceled => none

/-- The sentence that reports the error, from the text of the failure. -/
def message : RunError String → String
  | .failed e => "effect failed: " ++ e
  | .canceled => "effect was canceled"

end RunError

namespace Outcome

variable {ε α β : Type}

def isSucceeded : Outcome ε α → Bool
  | .succeeded _ => true
  | _ => false

def isErrored : Outcome ε α → Bool
  | .errored _ => true
  | _ => false

def isCanceled : Outcome ε α → Bool
  | .canceled => true
  | _ => false

def toExcept : Outcome ε α → Except (RunError ε) α
  | .succeeded v => .ok v
  | .errored e => .error (.failed e)
  | .canceled => .error .canceled

def map (f : α → β) : Outcome ε α → Outcome ε β
  | .succeeded v => .succeeded (f v)
  | .errored e => .errored e
  | .canceled => .canceled

def exitCase : Outcome ε α → ExitCase ε
  | .succeeded _ => .completed
  | .errored e => .error e
  | .canceled => .canceled

/-- The word that names the case in reports. -/
def label : Outcome ε α → String
  | .succeeded _ => "completed"
  | .errored _ => "error"
  | .canceled => "canceled"

def ofExcept : Except ε α → Outcome ε α
  | .ok v => .succeeded v
  | .error e => .errored e

@[simp] theorem exitCase_map (f : α → β) (x : Outcome ε α) : (x.map f).exitCase = x.exitCase := by
  cases x <;> rfl

theorem isCanceled_iff (x : Outcome ε α) : x.isCanceled = true ↔ x = .canceled := by
  cases x <;> simp [isCanceled]

/-- The outcome as a value: tagged by its case, a cancellation as a word. -/
def toValue : Outcome Value Value → Value
  | .succeeded v => .tagged "succeeded" v
  | .errored e => .tagged "errored" e
  | .canceled => .text "canceled"

end Outcome

/-- How a run loop over values ends. -/
abbrev Exit := Outcome Value Value

end EffectFibers
