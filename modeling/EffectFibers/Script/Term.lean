import EffectFibers.Script.Expr

/-!
# Terms

A `Term` is an effect as a script writes it, a `ResourceTerm` a resource.  A part of the script
that cannot be read is kept as `malformed`, so that it is reported when it is built.
-/

namespace EffectFibers.Script

/-- A result as it is written: a success or a failure. -/
inductive ResultTerm where
  | ok (e : Expr)
  | err (e : Expr)
  | malformed (cause : Malformed)
deriving Inhabited

/-- Who completes a callback: the registration itself, a task of its own after a time, or a
thread of its own. -/
inductive Completer where
  | registration
  | task (ms : Nat)
  | thread
deriving DecidableEq, Inhabited

/-- What an asynchronous registration does. -/
structure AsyncTerm where
  completions : List (Completer × ResultTerm)
  /-- A clone of the callback is kept for ever. -/
  held : Bool := false
  /-- The callback is shown in the journal. -/
  shown : Bool := false
deriving Inhabited

namespace AsyncTerm

def immediate (spec : AsyncTerm) : List ResultTerm :=
  spec.completions.filterMap fun (completer, r) =>
    if completer = .registration then some r else none

/-- The completions that are put off, with their times.  If one of them is made by a thread, all
are, at once. -/
def later (spec : AsyncTerm) : List (Nat × ResultTerm) :=
  let threaded := spec.completions.any (·.1 = .thread)
  spec.completions.filterMap fun
    | (.registration, _) => none
    | (.task ms, r) => some (if threaded then 0 else ms, r)
    | (.thread, r) => some (0, r)

end AsyncTerm

/-- A function of the value of a cell, and what happens while it runs. -/
structure CellFunction where
  bind : Option String
  value : Expr
  /-- The output besides the new value. -/
  output : Option Expr
  /-- Every call is noted in the journal. -/
  traced : Bool
  /-- Values that another writer stores during the calls, one each. -/
  interfere : List Expr
deriving Inhabited

inductive UpdateStyle where
  | update
  | getAndUpdate
  | updateAndGet
  | modify
  | tryUpdate
  | tryModify
  | updateBounded (max : Nat)
deriving Inhabited

inductive CellAction where
  | get
  | set (e : Expr)
  | getAndSet (e : Expr)
  | setAndGet (e : Expr)
  | update (style : UpdateStyle) (f : CellFunction)
deriving Inhabited

/-- A combinator that `chain` applies again and again. -/
inductive Link where
  | map
  | flatMap
  | andThen
  | handleError
  | refail
  | mapError
  | attempt
  | suspend
  | continueOn
  | guarantee
  | bracket
  | raceLeft
  | raceRight
  | parLeft
  | parRight
deriving Inhabited

mutual

inductive Term where
  | succeed (value : Expr)
  | fail (error : Expr)
  | unit
  | fromResult (result : ResultTerm)
  | delay (value : Expr)
  | tryDelay (result : ResultTerm)
  | suspend (body : Term)
  | never
  | sleep (ms : Nat)
  | log (text : Expr)
  | future (ms : Nat) (result : ResultTerm)
  | currentThread
  | async (spec : AsyncTerm)
  | map (source : Term) (bind : Option String) (value : Expr)
  | flatMap (source : Term) (bind : Option String) (body : Term)
  | andThen (source next : Term)
  | map2 (left right : Term) (bind bind2 : Option String) (value : Expr)
  | product (left right : Term)
  | asUnit (source : Term)
  | continueOn (source : Term) (context : String)
  | shift (context : String)
  | bindValue (bind : Option String) (value : Expr) (body : Term)
  | mapError (source : Term) (bind : Option String) (error : Expr)
  | handleErrorWith (source : Term) (bind : Option String) (body : Term)
  | handleError (source : Term) (bind : Option String) (value : Expr)
  | attempt (source : Term)
  | bracket (acquire : Term) (bind case : Option String) (use release : Term)
  | guarantee (source finalizer : Term)
  | onCancel (source finalizer : Term)
  | guaranteeCase (source : Term) (case : Option String) (finalizer : Term)
  | race (left right : Term)
  | raceFirst (left right : Term)
  | timeoutWith (source : Term) (ms : Nat) (error : Expr)
  | timeout (source : Term) (ms : Nat)
  | parZip (left right : Term)
  | parMap (left right : Term) (bind bind2 : Option String) (value : Expr)
  | parSequence (items : List Term)
  | parTraverse (items : List Expr) (bind : Option String) (body : Term)
  | parTupled (items : List Term)
  | cell (name : String) (action : CellAction)
  | newCell (value : Expr) (bind : Option String) (body : Term)
  | access (cell : String) (bind setter : Option String) (body : Term)
  | set (setter : String) (value : Expr)
  | describe (name : String)
  | cancel (token : String)
  | isCancelled (token : String)
  | cancelled (token : String)
  | use (resource : ResourceTerm) (bind : Option String) (body : Term)
  | bindResource (resource : ResourceTerm) (bind : Option String) (body : Term)
  | chain (n : Nat) (link : Link) (source : Term)
  | loop (bind : Option String) (init again : Expr) (body : Term)
  | dropUnrun (source : Term)
  | malformed (cause : Malformed)

inductive ResourceTerm where
  | make (acquire : Term) (bind case : Option String) (release : Term)
  | eval (acquire : Term)
  | pure (value : Expr)
  | map (source : ResourceTerm) (bind : Option String) (value : Expr)
  | flatMap (source : ResourceTerm) (bind : Option String) (body : ResourceTerm)
  | combine (left right : ResourceTerm)
  | empty
  | combineAll (items : List ResourceTerm)
  | reduceAll (items : List ResourceTerm)
  | named (name : String)
  | malformed (cause : Malformed)

end

instance : Inhabited Term := ⟨.unit⟩
instance : Inhabited ResourceTerm := ⟨.empty⟩

end EffectFibers.Script
