import EffectFibers.Outcome
import EffectFibers.Cancellation

/-!
# Events

What happens in a run is recorded as a list of `Event`s.  Some of them are reported to an
observer as lines of text (`Event.report?`); the others only mark where a bracket begins and
ends, where a fiber comes to a suspension point, and which token was derived from which.  A
fiber is named by its token.
-/

namespace EffectFibers

/-- A bracket whose acquisition succeeded is numbered. -/
abbrev BracketId := Nat

inductive Side where
  | left
  | right
deriving DecidableEq, Inhabited

namespace Side

def other : Side → Side
  | .left => .right
  | .right => .left

def name : Side → String
  | .left => "Left"
  | .right => "Right"

/-- Marks a success as the success of one side; anything else is left as it is. -/
def tag : Side → Exit → Exit
  | .left, .succeeded v => .succeeded (.left v)
  | .right, .succeeded v => .succeeded (.right v)
  | _, exit => exit

@[simp] theorem other_other (s : Side) : s.other.other = s := by cases s <;> rfl

end Side

/-- The suspension points at which a fiber begins something new. -/
inductive Point where
  | acquisition
  | registration
  | future
  | shift
deriving DecidableEq, Inhabited

inductive Event where
  | fiberStarted (context : Option String)
  | fiberFinished (exit : Exit)
  | runDropped (context : Option String)
  | detachedFinished (exit : Exit)
  | shifting (context : Option String)
  | callbackAbandoned
  | futureAbandoned
  | raceSettled (winner : Side) (exit : Exit)
  | operandFailed (index : Nat)
  | swapRetried (attempt : Nat)
  | swapLost (attempt bound : Nat)
  | entered (token : TokenId) (point : Point)
  | derived (parent child : TokenId)
  | acquired (fiber : TokenId) (bracket : BracketId) (value : Value)
  /-- An acquisition has ended without a value. -/
  | notAcquired (fiber : TokenId) (exit : Exit)
  | useStarted (fiber : TokenId) (bracket : BracketId)
  /-- A release is given the exit of what it follows. -/
  | releaseStarted (fiber : TokenId) (bracket : BracketId) (exit : Exit)
  | releaseFailed (bracket : BracketId) (exit : Exit)
  /-- The release itself has ended with an exit. -/
  | releaseFinished (fiber : TokenId) (bracket : BracketId) (exit : Exit)
  /-- A run loop has ended. -/
  | left (fiber : TokenId) (exit : Exit)

namespace Event

def contextField (context : Option String) : String :=
  match context with
  | none => "context=None"
  | some name => "context=Some(\"" ++ name ++ "\")"

def labelField (field : String) (exit : Exit) : String :=
  field ++ "=\"" ++ exit.label ++ "\""

/-- The line that reports the event, for the events that are reported. -/
def report? : Event → Option String
  | .fiberStarted c => some ("TRACE fiber started " ++ contextField c)
  | .fiberFinished x => some ("TRACE fiber finished " ++ labelField "outcome" x)
  | .runDropped c =>
    some ("DEBUG run dropped before completion; unwinding in the background " ++ contextField c)
  | .detachedFinished x => some ("TRACE detached fiber finished " ++ labelField "outcome" x)
  | .shifting c => some ("TRACE shifting to execution context " ++ contextField c)
  | .callbackAbandoned =>
    some "DEBUG cancellation observed while waiting for an async callback"
  | .futureAbandoned => some "DEBUG cancellation observed while awaiting a future"
  | .raceSettled s x =>
    some ("DEBUG race settled; loser canceled winner=" ++ s.name ++ " " ++ labelField "outcome" x)
  | .operandFailed i =>
    some ("DEBUG parallel operand failed; canceling the group operand=" ++ toString i)
  | .swapRetried n =>
    some ("TRACE compare-and-swap lost a race; retrying attempt=" ++ toString n)
  | .swapLost n m =>
    some ("TRACE compare-and-swap lost a race attempt=" ++ toString n ++ " max_attempts="
      ++ toString m)
  | .releaseStarted _ _ x => some ("TRACE running bracket release " ++ labelField "exit_case" x)
  | .releaseFailed _ x =>
    some ("WARN bracket release failed; keeping the original outcome "
      ++ labelField "exit_case" x)
  | .entered .. | .derived .. | .acquired .. | .notAcquired .. | .useStarted ..
  | .releaseFinished .. | .left .. => none

end Event

end EffectFibers
