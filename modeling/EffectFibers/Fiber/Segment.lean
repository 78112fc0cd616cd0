import EffectFibers.Effect

/-!
# Segments

A run loop evaluates one effect against a list of pending frames.  It has an environment: the
token that cancels it, the context in which it starts further tasks, and the tokens that the
closures of its effect hold.  A bracket's acquisition
and release and each operand of a race are run loops of their own, nested in the loop that waits
for them; so are parallel operands and the part of a loop behind a shift, as tasks of their own.

`Segment` is a run loop that is not being polled, together with the loops nested in it.
`Caller` is the other side of the nesting: a run loop that waits for the one in control.
-/

namespace EffectFibers

abbrev TaskId := Nat

structure Env where
  token : TokenId
  context : Context
  kept : List TokenId := []
deriving Inhabited

namespace Env

def withToken (env : Env) (token : TokenId) : Env := { env with token }

def withContext (env : Env) (context : Context) : Env := { env with context }

/-- The tokens that a loop with this environment holds. -/
def tokens (env : Env) : List TokenId := env.token :: env.kept

end Env

/-- What a run loop does with the exit of what it evaluates. -/
inductive Frame where
  | map (f : Value → Except Fault Value)
  | bind (f : Value → Effect)
  | handle (handler : Value → Effect)
  | again (again : Value → Except Fault Bool) (body : Value → Effect)
  | release (bracket : BracketId) (finalizer : ExitCase Value → Effect)
deriving Inhabited

/-- Whether the frame has to see every exit. -/
def Frame.isRelease : Frame → Bool
  | .release .. => true
  | _ => false

/-- A run loop between two steps. -/
structure Loop where
  env : Env
  frames : List Frame := []
deriving Inhabited

namespace Loop

def push (loop : Loop) (frame : Frame) : Loop := { loop with frames := frame :: loop.frames }

end Loop

/-- What a started future still waits for. -/
inductive Wait where
  | never
  | deadline (time : Nat) (result : Result)
  | cancellation (token : TokenId)
deriving Inhabited

/-- The tokens of the two operands of a race. -/
structure RaceTokens where
  left : TokenId
  right : TokenId
deriving Inhabited

def RaceTokens.of (tokens : RaceTokens) : Side → TokenId
  | .left => tokens.left
  | .right => tokens.right

/-- A parallel group: its operands' tasks by index, and what the ended ones have given. -/
structure Group where
  token : TokenId
  pending : List (Nat × TaskId)
  values : List (Nat × Value) := []
  failure : Option (Nat × Value) := none
  canceled : Bool := false
deriving Inhabited

inductive Segment where
  | start (loop : Loop) (effect : Effect)
  | callback (loop : Loop) (slot : Nat)
  | future (loop : Loop) (wait : Wait)
  /-- The rest of the loop runs as a task. -/
  | shifted (env : Env) (remainder : TaskId)
  | acquiring (loop : Loop) (use : Value → Effect)
      (release : Value → ExitCase Value → Effect) (inner : Segment)
  | releasing (loop : Loop) (bracket : BracketId) (outcome : Exit) (inner : Segment)
  | racing (loop : Loop) (tokens : RaceTokens) (left right : Segment)
  /-- The race is decided and the loser is being unwound. -/
  | settling (loop : Loop) (winner : Side) (exit : Exit) (loser : Segment)
  /-- One operand was cancelled by itself, which leaves the race to the other. -/
  | remaining (loop : Loop) (side : Side) (operand : Segment)
  | gathering (loop : Loop) (group : Group)
deriving Inhabited

inductive Caller where
  | acquiring (loop : Loop) (use : Value → Effect) (release : Value → ExitCase Value → Effect)
  | releasing (loop : Loop) (bracket : BracketId) (outcome : Exit)
  | racingLeft (loop : Loop) (tokens : RaceTokens) (right : Segment)
  | racingRight (loop : Loop) (tokens : RaceTokens) (left : Segment)
  | settling (loop : Loop) (winner : Side) (exit : Exit)
  | remaining (loop : Loop) (side : Side)
deriving Inhabited

namespace Group

/-- Takes the exit of an operand into account. -/
def absorb (group : Group) (index : Nat) : Exit → Group
  | .succeeded v => { group with values := (index, v) :: group.values }
  | .errored e =>
    match group.failure with
    | none => { group with failure := some (index, e) }
    | some (reported, _) =>
      if index < reported then { group with failure := some (index, e) } else group
  | .canceled => { group with canceled := true }

/-- The exit of a group whose operands have all ended: the failure of the lowest index, else a
cancellation, else the values by index. -/
def exit (group : Group) : Exit :=
  match group.failure with
  | some (_, e) => .errored e
  | none =>
    if group.canceled then .canceled
    else .succeeded (.list ((group.values.mergeSort fun a b => a.1 ≤ b.1).map (·.2)))

/-- The group without one pending operand. -/
def drop (group : Group) (index : Nat) : Group :=
  { group with pending := group.pending.filter (·.1 != index) }

end Group

/-! ## The tokens that a segment holds -/

namespace Segment

def tokens : Segment → List TokenId
  | .start loop _ | .callback loop _ => loop.env.tokens
  | .future loop (.cancellation t) => t :: loop.env.tokens
  | .future loop _ => loop.env.tokens
  | .shifted env _ => env.tokens
  | .acquiring loop _ _ inner => loop.env.tokens ++ inner.tokens
  | .releasing loop _ _ inner => loop.env.tokens ++ inner.tokens
  | .racing loop tokens left right =>
    tokens.left :: tokens.right :: (loop.env.tokens ++ left.tokens ++ right.tokens)
  | .settling loop _ _ loser => loop.env.tokens ++ loser.tokens
  | .remaining loop _ operand => loop.env.tokens ++ operand.tokens
  | .gathering loop group => group.token :: loop.env.tokens

end Segment

end EffectFibers
