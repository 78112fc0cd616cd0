import EffectFibers.Fiber.Segment

/-!
# Runs and tasks

A `Run` drives one effect for its caller.  It guards its token: the token is cancelled when the
run is given up before it is complete.  A `Job` is the work of a task, and `Joined` is what
whoever waits for the task receives when it ends.
-/

namespace EffectFibers

inductive Run.State where
  | live (segment : Segment)
  | complete
  /-- A poll met a fault; nothing is left to run. -/
  | broken
deriving Inhabited

structure Run where
  token : TokenId
  context : Context
  state : Run.State
  started : Bool := false
deriving Inhabited

namespace Run

def isFinished (r : Run) : Bool :=
  match r.state with
  | .complete => true
  | .live _ | .broken => false

/-- The tokens that the run holds. -/
def tokens (r : Run) : List TokenId :=
  match r.state with
  | .live s => r.token :: s.tokens
  | .complete => []
  | .broken => [r.token]

/-- The text that shows the run. -/
def describe (r : Run) : String :=
  "Run \x7b started: " ++ toString r.started ++ ", finished: " ++ toString r.isFinished
    ++ ", .. \x7d"

end Run

/-- How a task ends for whoever joins it. -/
inductive Joined where
  | ended (exit : Exit)
  | faulted (fault : Fault)
  /-- The task was never carried out. -/
  | aborted
deriving Inhabited

/-- The exit of a task that was joined; a fault is passed on. -/
def Joined.exit : Joined → Except Fault Exit
  | .ended exit => .ok exit
  | .faulted f => .error f
  | .aborted => .ok .canceled

inductive Job where
  /-- A parallel operand or the rest of a loop behind a shift. -/
  | segment (s : Segment)
  /-- A fiber of its own. -/
  | fiber (run : Run)
  /-- A fiber whose outcome is handed to an observer, which may give up. -/
  | observed (run : Run) (gives : Option Fault)
  /-- What is left of a run that was given up. -/
  | detached (s : Segment)
  /-- The completions that a registration has put off, since the task began. -/
  | completer (slot : Nat) (since : Option Nat) (rest : List (Nat × Completion))
  /-- A cancellation at a later time. -/
  | canceller (token : TokenId) (delay : Nat) (deadline : Option Nat)
deriving Inhabited

/-- The tokens that the work of a task holds. -/
def Job.tokens : Job → List TokenId
  | .segment s => s.tokens
  | .fiber run => run.tokens
  | .observed run _ => run.tokens
  | .detached s => s.tokens
  | .completer .. => []
  | .canceller t _ _ => [t]

end EffectFibers
