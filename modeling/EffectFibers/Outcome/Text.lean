import EffectFibers.Outcome

/-!
# The text of an outcome

Each case is shown by its name, and its content behind the name in parentheses.  How the content
is shown is up to the caller.
-/

namespace EffectFibers

/-- A case and its content. -/
def caseText (name content : String) : String := name ++ "(" ++ content ++ ")"

variable {ε α : Type}

def ExitCase.describe (error : ε → String) : ExitCase ε → String
  | .completed => "Completed"
  | .error e => caseText "Error" (error e)
  | .canceled => "Canceled"

def RunError.describe (error : ε → String) : RunError ε → String
  | .failed e => caseText "Failed" (error e)
  | .canceled => "Canceled"

def Outcome.describe (error : ε → String) (value : α → String) : Outcome ε α → String
  | .succeeded v => caseText "Succeeded" (value v)
  | .errored e => caseText "Errored" (error e)
  | .canceled => "Canceled"

end EffectFibers
