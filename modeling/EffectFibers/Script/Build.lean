import EffectFibers.Script.CellAction
import EffectFibers.Text.Duration
import EffectFibers.Value.Combine

/-!
# Building effects from terms

`Term.build` gives the effect that a term stands for, in a scope and for a lane of the journal.
Parts that an effect takes as they are are built with it; parts that it takes as a closure are
built when the closure is called, and a fault of building them is a fault of the closure.

The operands of a parallel effect write to lanes of their own below the lane of the effect.
-/

namespace EffectFibers.Script

/-- The contexts that a script can name. -/
def findContext (name : String) : Except Fault Context :=
  match name with
  | "home" => .ok .home
  | "global" => .ok (Context.shared.named "global")
  | "pool-a" => .ok (Context.named { thread := "pool-a" } "pool-a")
  | "pool-b" => .ok { thread := "pool-b" }
  | "dead" => .ok (Context.named { thread := "dead", isOpen := false } "dead")
  | _ => .error (.malformed (.unknown "context" name))

def ResultTerm.eval (scope : Scope) : ResultTerm → Except Fault Result
  | .ok e => (e.eval scope).map .ok
  | .err e => (e.eval scope).map .error
  | .malformed cause => .error (.malformed cause)

def AsyncTerm.registration (scope : Scope) (lane : Lane) (spec : AsyncTerm) : Registration where
  immediate := spec.immediate.map (·.eval scope)
  later := spec.later.map fun (time, r) => (time, r.eval scope)
  held := spec.held
  shown := if spec.shown then some lane else none

/-- The lane of one operand. -/
def operandLane (lane : Lane) (i : Nat) : Lane := lane ++ "/" ++ toString i

/-- The effect as it is, unless building it gave up. -/
def built (effect : Effect) : Except Fault Effect :=
  match effect.fault? with
  | some f => .error f
  | none => .ok effect

/-! ## Chains -/

def increment (v : Value) : Value := ArithOp.add.apply v (.int 1)

/-- Applies a combinator once. -/
def Link.apply (lane : Lane) (link : Link) (i : Nat) (effect : Effect) : Effect :=
  let index := Value.int (Int64.ofNat i)
  match link with
  | .map => effect.mapValue increment
  | .flatMap => effect.flatMap fun v => .succeed (increment v)
  | .andThen => effect.andThen (.succeed index)
  | .handleError => effect.handleError fun _ => .ok index
  | .refail => effect.handleErrorWith fun e => .fail (increment e)
  | .mapError => effect.mapError fun e => .ok (increment e)
  | .attempt => effect.attempt
  | .suspend => .suspend effect
  | .continueOn => effect.continueOn .home
  | .guarantee => effect.guarantee (.log lane (.ok ("g" ++ toString i)))
  | .bracket => .bracket (.succeed index) (fun _ => effect) fun _ case =>
      .log lane (.ok ("r" ++ toString i ++ " " ++ case.toValue.compact))
  | .raceLeft => effect.raceFirst .never
  | .raceRight => .raceFirst .never effect
  | .parLeft => effect.parMap (.succeed (.int 1)) fun a b => .ok (ArithOp.add.apply a b)
  | .parRight => .parMap (.succeed (.int 1)) effect fun a b => .ok (ArithOp.sub.apply a b)

def Link.chain (lane : Lane) (link : Link) (n : Nat) (effect : Effect) : Effect :=
  (List.range n).foldl (fun effect i => link.apply lane i effect) effect

/-! ## Small effects -/

/-- The text that shows a token. -/
def describeToken (cancelled : Bool) : String :=
  "CancelToken \x7b cancelled: " ++ toString cancelled ++ " \x7d"

/-- The effect that shows a variable. -/
def describe (scope : Scope) (name : String) : Except Fault Effect :=
  match scope.lookup name with
  | some (.cell c) => .ok (.delay fun _ m => (.ok (.text (m.describeCell Value.compact c)), m))
  | some (.setter s) => .ok (.delay fun _ m => (.ok (.text (m.setter s).2.describe), m))
  | some (.token t) =>
    .ok ((Effect.isCancelled t).mapValue fun v => .text (describeToken (v = .bool true)))
  | some (.resource _) => .ok (.delay fun _ m => (.ok (.text "Resource(<deferred>)"), m))
  | _ => Scope.noValue name

/-- The function of two values that an expression stands for. -/
def binary (scope : Scope) (bind bind2 : Option String) (e : Expr) (a b : Value) :
    Except Fault Value :=
  e.eval ((scope.bindValue bind a).bindValue bind2 b)

/-! ## Terms -/

mutual

def Term.build (scope : Scope) (lane : Lane) : Term → Except Fault Effect
  | .succeed value => do return .succeed (← value.eval scope)
  | .fail error => do return .fail (← error.eval scope)
  | .unit => .ok .unit
  | .fromResult result => do return .ofResult (← result.eval scope)
  | .delay value => .ok (.eval (value.eval scope))
  | .tryDelay (.malformed cause) => .error (.malformed cause)
  | .tryDelay result => .ok (.tryEval (result.eval scope))
  | .suspend body => .ok (.perform (fun _ m => (.ok (.value .null), m)) fun _ =>
      .ofExcept (body.build scope lane))
  | .never => .ok .never
  | .sleep ms => .ok (.sleep ms)
  | .log text => .ok (.log lane ((text.eval scope).map Value.display))
  | .future ms result => do return .await (.timer ms (← result.eval scope))
  | .currentThread => .ok .currentThread
  | .async spec => .ok (.async (spec.registration scope lane))
  | .map source bind value => do
    return (← source.build scope lane).map fun v => value.eval (scope.bindValue bind v)
  | .flatMap source bind body => do
    return (← source.build scope lane).flatMap fun v =>
      .ofExcept (body.build (scope.bindValue bind v) lane)
  | .andThen source next => do
    let source ← source.build scope lane
    let next ← next.build scope lane
    return source.andThen next
  | .map2 left right bind bind2 value => do
    let left ← left.build scope lane
    let right ← right.build scope lane
    return .map2 left right (binary scope bind bind2 value)
  | .product left right => do
    let left ← left.build scope lane
    let right ← right.build scope lane
    return .product left right
  | .asUnit source => do return (← source.build scope lane).asUnit
  | .continueOn source context => do
    let source ← source.build scope lane
    return source.continueOn (← findContext context)
  | .shift context => do return .shift (← findContext context)
  | .bindValue bind value body => do
    let v ← value.eval scope
    body.build (scope.bindValue bind v) lane
  | .mapError source bind error => do
    return (← source.build scope lane).mapError fun e => error.eval (scope.bindValue bind e)
  | .handleErrorWith source bind body => do
    return (← source.build scope lane).handleErrorWith fun e =>
      .ofExcept (body.build (scope.bindValue bind e) lane)
  | .handleError source bind value => do
    return (← source.build scope lane).handleError fun e => value.eval (scope.bindValue bind e)
  | .attempt source => do return (← source.build scope lane).attempt
  | .bracket acquire bind case use release => do
    let acquire ← acquire.build scope lane
    return .bracket acquire
      (fun v => .ofExcept (use.build (scope.bindValue bind v) lane))
      fun v c => .ofExcept <| (release.build
        ((scope.bindValue bind v).bindValue case c.toValue) lane).map Effect.asUnit
  | .guarantee source finalizer => do
    let source ← source.build scope lane
    let finalizer ← finalizer.build scope lane
    return source.guarantee finalizer.asUnit
  | .onCancel source finalizer => do
    let source ← source.build scope lane
    let finalizer ← finalizer.build scope lane
    return source.onCancel finalizer.asUnit
  | .guaranteeCase source case finalizer => do
    let source ← source.build scope lane
    return source.guaranteeCase fun c =>
      .ofExcept ((finalizer.build (scope.bindValue case c.toValue) lane).map Effect.asUnit)
  | .race left right => do
    let left ← left.build scope lane
    let right ← right.build scope lane
    return .race left right
  | .raceFirst left right => do
    let left ← left.build scope lane
    let right ← right.build scope lane
    return left.raceFirst right
  | .timeoutWith source ms error => do
    let source ← source.build scope lane
    return source.timeoutWith ms (← error.eval scope)
  | .timeout source ms => do
    let source ← source.build scope lane
    return source.timeoutWith ms (.text (Duration.ofMillis ms).timeoutMessage)
  | .parZip left right => do
    let left ← left.build scope (operandLane lane 0)
    let right ← right.build scope (operandLane lane 1)
    return left.parZip right
  | .parMap left right bind bind2 value => do
    let left ← left.build scope (operandLane lane 0)
    let right ← right.build scope (operandLane lane 1)
    return left.parMap right (binary scope bind bind2 value)
  | .parSequence items => do return .parSequence (← buildAll scope lane 0 items)
  | .parTraverse items bind body => do
    let vs ← Expr.evalAll scope items
    let operands ← vs.zipIdx.mapM fun (v, i) =>
      body.build (scope.bindValue bind v) (operandLane lane i)
    return .parSequence operands
  | .parTupled items => do
    let operands ← buildAll scope lane 0 items
    if 2 ≤ operands.length ∧ operands.length ≤ 9 then return .parSequence operands
    else .error (.malformed (.arity operands.length))
  | .cell name action => do
    let c ← scope.cell name
    action.build scope lane c
  | .newCell value bind body => do
    let v ← value.eval scope
    return .perform
      (fun _ m => let (c, m) := m.newCell v .spin; (.ok (.cell c), m))
      fun
        | .cell c => .ofExcept (body.build (scope.bind bind (.cell c)) lane)
        | _ => .unit
  | .access name bind setter body => do
    let c ← scope.cell name
    return .perform
      (fun _ m => let (v, s, m) := m.access c; (.ok (.access v s), m))
      fun
        | .access v s =>
          .ofExcept (body.build ((scope.bindValue bind v).bind setter (.setter s)) lane)
        | _ => .unit
  | .set setter value => do
    let s ← scope.setter setter
    let v ← value.eval scope
    return .delay fun _ m => let (wrote, m) := m.useSetter s v; (.ok (.bool wrote), m)
  | .describe name => describe scope name
  | .cancel token => do return .cancel (← scope.token token)
  | .isCancelled token => do return .isCancelled (← scope.token token)
  | .cancelled token => do return .cancelled (← scope.token token)
  | .use resource bind body => do
    let r ← resource.build scope lane
    built (r.use fun v => .ofExcept (body.build (scope.bindValue bind v) lane))
  | .bindResource resource bind body => do
    let r ← resource.build scope lane
    body.build (scope.bind bind (.resource r)) lane
  | .chain n link source => do return link.chain lane n (← source.build scope lane)
  | .loop bind init again body => do
    let v ← init.eval scope
    return .loop (fun v => (again.eval (scope.bindValue bind v)).map (· = .bool true))
      (fun v => .ofExcept (body.build (scope.bindValue bind v) lane)) v
  | .dropUnrun source => do
    let _ ← source.build scope lane
    return .succeed .null
  | .malformed cause => .error (.malformed cause)
termination_by structural t => t

/-- The operands of a parallel effect, each for its lane. -/
def buildAll (scope : Scope) (lane : Lane) (i : Nat) : List Term → Except Fault (List Effect)
  | [] => .ok []
  | t :: ts => do
    let operand ← t.build scope (operandLane lane i)
    let rest ← buildAll scope lane (i + 1) ts
    return operand :: rest
termination_by structural ts => ts

def ResourceTerm.build (scope : Scope) (lane : Lane) : ResourceTerm → Except Fault Resource
  | .make acquire bind case release => .ok <| .make (.ofExcept (acquire.build scope lane))
      fun v c => .ofExcept <| (release.build
        ((scope.bindValue bind v).bindValue case c.toValue) lane).map Effect.asUnit
  | .eval acquire => .ok (.eval (.ofExcept (acquire.build scope lane)))
  | .pure value => do return .pure (← value.eval scope)
  | .map source bind value => do
    return (← source.build scope lane).map fun v => value.eval (scope.bindValue bind v)
  | .flatMap source bind body => do
    return (← source.build scope lane).flatMap fun v =>
      .ofExcept (body.build (scope.bindValue bind v) lane)
  | .combine left right => do
    let left ← left.build scope lane
    let right ← right.build scope lane
    return .combine Value.combine left right
  | .empty => .ok (.pure .null)
  | .combineAll items => do
    return .combineAll Value.combine .null (← buildResources scope lane items)
  | .reduceAll items => do
    return (Resource.reduceAll? Value.combine (← buildResources scope lane items)).getD
      (.pure (.text "none"))
  | .named name => scope.resource name
  | .malformed cause => .error (.malformed cause)
termination_by structural r => r

def buildResources (scope : Scope) (lane : Lane) :
    List ResourceTerm → Except Fault (List Resource)
  | [] => .ok []
  | r :: rs => do
    let head ← r.build scope lane
    let rest ← buildResources scope lane rs
    return head :: rest
termination_by structural rs => rs

end

end EffectFibers.Script
