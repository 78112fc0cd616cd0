import EffectFibers.Text.Quoted

/-!
# Execution contexts

A `Context` is a place where tasks run.  It says which thread its tasks see, which name reports
give it, whether its tasks share one thread, and whether it still accepts tasks: a closed
context drops whatever is handed to it.
-/

namespace EffectFibers

/-- Whether the tasks of a context share one thread. -/
inductive Flavor where
  | currentThread
  | multiThread
deriving DecidableEq, Inhabited

def Flavor.describe : Flavor → String
  | .currentThread => "CurrentThread"
  | .multiThread => "MultiThread"

structure Context where
  name : Option String := none
  thread : String
  flavor : Flavor := .multiThread
  isOpen : Bool := true
deriving DecidableEq, Inhabited

namespace Context

/-- The context that the calling program runs in. -/
def home : Context := { thread := "main", flavor := .currentThread }

/-- The context shared by every run outside a context of its own. -/
def shared : Context := { thread := "effio-worker" }

/-- The same place under a name for the reports. -/
def named (c : Context) (name : String) : Context := { c with name := some name }

/-- The text that shows a context. -/
def describe (c : Context) : String :=
  let name := match c.name with
    | some name => "Some(" ++ Text.quoted name ++ ")"
    | none => "None"
  "ExecutionContext \x7b name: " ++ name ++ ", flavor: " ++ c.flavor.describe ++ " \x7d"

@[simp] theorem thread_named (c : Context) (name : String) : (c.named name).thread = c.thread := rfl

end Context

end EffectFibers
