import EffectFibers.Text.Escaped

/-!
# Faults

A `Fault` is what stops a fiber from outside its own error channel: a closure that gives up, a
completion protocol that is not kept, an arithmetic overflow, or a program that does not say
what it should (`Malformed`).  No handler and no finalizer of the fiber runs on a fault; whoever
waits for the fiber receives it.  `Fault.message` is the text that reports each cause.
-/

namespace EffectFibers

/-- What is wrong with a program that cannot be carried out as written. -/
inductive Malformed where
  | unknown (kind name : String)
  | missing (field : String)
  | noValue (name : String)
  | noSnapshot
  | arity (n : Nat)
  | needsMonoid (operation : String)
  | notA (type text : String)
  | notCombinable
deriving DecidableEq, Inhabited

/-- Why a blocking run is refused. -/
inductive BlockingError where
  | currentThreadRuntime
  | unsupportedRuntimeFlavor
deriving DecidableEq, Inhabited

inductive Fault where
  /-- A closure of the program gives up with a text of its own. -/
  | raised (text : String)
  | callbackRepeated
  | callbackDropped
  | polledAfterCompletion
  | resumedAfterFault
  | addOverflow
  | mulOverflow
  /-- More seconds than a machine word counts. -/
  | durationOverflow
  | timersDisabled
  | blocking (error : BlockingError)
  | malformed (cause : Malformed)
deriving DecidableEq, Inhabited

def Malformed.message : Malformed → String
  | .unknown kind name => "unknown " ++ kind ++ " " ++ name
  | .missing field => "missing " ++ field
  | .noValue name => "no value " ++ quote name
  | .noSnapshot => "no snapshot"
  | .arity n => "arity " ++ toString n
  | .needsMonoid operation => operation ++ " needs a monoid"
  | .notA type text => "not a " ++ type ++ ": " ++ text
  | .notCombinable => "values cannot be combined"

namespace BlockingError

/-- The name of the case. -/
def name : BlockingError → String
  | .currentThreadRuntime => "CurrentThreadRuntime"
  | .unsupportedRuntimeFlavor => "UnsupportedRuntimeFlavor"

def message : BlockingError → String
  | .currentThreadRuntime =>
    "cannot execute blocking operation in current-thread runtime: "
      ++ "block_in_place is only supported in multi-thread runtimes"
  | .unsupportedRuntimeFlavor =>
    "cannot execute blocking operation: "
      ++ "the runtime flavor is not supported for blocking execution"

end BlockingError

namespace Fault

def message : Fault → String
  | .raised text => text
  | .callbackRepeated => "effio: async callback invoked more than once"
  | .callbackDropped => "effio: async callback dropped without being invoked"
  | .polledAfterCompletion => "effio internal error: run polled after completion"
  | .resumedAfterFault => "`async fn` resumed after panicking"
  | .addOverflow => "attempt to add with overflow"
  | .mulOverflow => "attempt to multiply with overflow"
  | .durationOverflow => "overflow in Duration::new"
  | .timersDisabled =>
    "A Tokio 1.x context was found, but timers are disabled. "
      ++ "Call `enable_time` on the runtime builder to enable timers."
  | .blocking error => "run_blocking failed: " ++ error.message
  | .malformed cause => "bad input: " ++ cause.message

/-- Whether the fault lies in the program text rather than in its execution. -/
def isMalformed : Fault → Bool
  | .malformed _ => true
  | _ => false

end Fault

end EffectFibers
