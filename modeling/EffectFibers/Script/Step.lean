import EffectFibers.Script.Term

/-!
# Steps

A script is a list of steps of the main program, with the cells and tokens they start from.
-/

namespace EffectFibers.Script

inductive Step where
  | run (effect : Term) (token context : Option String)
  | runFor (effect : Term) (ms : Nat)
  | makeRun (name : String) (effect : Term)
  | poll (name : String)
  | start (name : String) (effect : Term) (context : Option String)
  /-- A fiber whose outcome is observed; the observer may give up once it has it. -/
  | runAsync (name : String) (effect : Term) (givesUp : Bool)
  | join (name : String)
  | cancel (name : String)
  | cancelAndJoin (name : String)
  | finished (name : String)
  | fiberToken (name token : String)
  /-- Shows the handle with a name; if there is none, an effect. -/
  | describe (name : Option String) (effect : Option Term)
  | drop (name : String)
  | guard (name token : String)
  | disarm (name : String)
  | sleep (ms : Nat)
  | cancelLater (token : String) (ms : Nat)
  | token (as : String)
  | child (token as : String)
  | clone (token as : String)
  | forget (token : String)
  | cancelToken (token : String)
  | isCancelled (token : String)
  | describeToken (token : String)
  | awaitToken (token : String)
  | malformed (cause : Malformed)

instance : Inhabited Step := ⟨.sleep 0⟩

/-- A step, which may have a name. -/
structure Line where
  name : Option String := none
  step : Step
deriving Inhabited

/-- The lane of the main program. -/
def mainLane : Lane := "main"

/-- The lane of the journal entries of a step. -/
def Line.lane (line : Line) : Lane :=
  match line.name with
  | some name => mainLane ++ "/" ++ name
  | none => mainLane

structure CellDecl where
  name : String
  initial : Value
  policy : ContentionPolicy
deriving Inhabited

end EffectFibers.Script

namespace EffectFibers

open Script in
structure Script where
  cells : List CellDecl := []
  tokens : List String := []
  lines : List Line := []
  /-- Whether the main program's context has timers. -/
  timed : Bool := true
deriving Inhabited

end EffectFibers
