import EffectFibers.Effect

/-!
# Combinators

The vocabulary of programs, derived from the constructors of `Effect`.  What the constructors
leave open is decided here: `attempt` tags its two cases `ok` and `err`, a race its winner
`left` or `right`, and a timeout is a race against a deadline on the right.
-/

namespace EffectFibers.Effect

/-! ## Construction -/

def succeed (v : Value) : Effect := .pure v

def ofResult : Result → Effect
  | .ok v => .pure v
  | .error e => .fail e

/-- A step on the memory that yields a value. -/
def delay (act : Site → Memory → Except Fault Value × Memory) : Effect :=
  .perform (fun site m => match act site m with
    | (.ok v, m) => (.ok (.value v), m)
    | (.error f, m) => (.error f, m)) fun r => .pure r.toValue

/-- A value computed when the effect runs. -/
def eval (v : Except Fault Value) : Effect := .delay fun _ m => (v, m)

/-- A result computed when the effect runs. -/
def tryEval (r : Except Fault Result) : Effect :=
  match r with
  | .ok r => .perform (fun _ m => (.ok (.value .null), m)) fun _ => ofResult r
  | .error f => .delay fun _ m => (.error f, m)

/-- An effect built when it runs. -/
def suspend (effect : Effect) : Effect :=
  .perform (fun _ m => (.ok (.value .null), m)) fun _ => effect

def never : Effect := .await .never

def sleep (delay : Nat) : Effect := .await (.timer delay (.ok .null))

def cancelled (token : TokenId) : Effect := .await (.cancellation token)

/-- Writes a line to the journal. -/
def log (lane : Lane) (text : Except Fault String) : Effect :=
  .delay fun site m => match text with
    | .ok text => (.ok .null, m.write ⟨lane, site.time, text⟩)
    | .error f => (.error f, m)

/-- The name of the thread that runs the effect. -/
def currentThread : Effect := .delay fun site m => (.ok (.text site.thread), m)

/-! ## Sequencing -/

/-- A function on values as the function of `map`. -/
def mapValue (source : Effect) (f : Value → Value) : Effect := source.map fun v => .ok (f v)

def andThen (source next : Effect) : Effect := source.flatMap fun _ => next

def map2 (left right : Effect) (f : Value → Value → Except Fault Value) : Effect :=
  left.flatMap fun a => right.map fun b => f a b

def product (left right : Effect) : Effect := map2 left right fun a b => .ok (.list [a, b])

def asUnit (source : Effect) : Effect := source.mapValue fun _ => .null

def continueOn (source : Effect) (context : Context) : Effect :=
  source.flatMap fun v => (Effect.shift context).mapValue fun _ => v

/-! ## Errors -/

def mapError (source : Effect) (f : Value → Except Fault Value) : Effect :=
  source.handleErrorWith fun e => match f e with
    | .ok e => .fail e
    | .error x => .fault x

def handleError (source : Effect) (f : Value → Except Fault Value) : Effect :=
  source.handleErrorWith fun e => match f e with
    | .ok v => .pure v
    | .error x => .fault x

def attempt (source : Effect) : Effect :=
  (source.mapValue .ok).handleErrorWith fun e => .pure (.err e)

/-! ## Finalizers -/

def guaranteeCase (source : Effect) (finalizer : ExitCase Value → Effect) : Effect :=
  .bracket unit (fun _ => source) fun _ => finalizer

def guarantee (source finalizer : Effect) : Effect := source.guaranteeCase fun _ => finalizer

def onCancel (source finalizer : Effect) : Effect :=
  source.guaranteeCase fun
    | .canceled => finalizer
    | .completed | .error _ => unit

/-! ## Racing -/

/-- The race without the mark of the side that won. -/
def raceFirst (left right : Effect) : Effect := (Effect.race left right).mapValue .untag

def timeoutWith (source : Effect) (delay : Nat) (error : Value) : Effect :=
  source.raceFirst ((sleep delay).flatMap fun _ => .fail error)

/-! ## Parallel composition -/

def parSequence (operands : List Effect) : Effect :=
  .parallel operands.length operands.get

def parZip (left right : Effect) : Effect := parSequence [left, right]

def parMap (left right : Effect) (f : Value → Value → Except Fault Value) : Effect :=
  (parZip left right).map fun v => f (v.nth (.int 0)) (v.nth (.int 1))

end EffectFibers.Effect
