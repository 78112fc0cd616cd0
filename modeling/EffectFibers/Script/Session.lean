import EffectFibers.Fiber.Scheduler
import EffectFibers.Script.Build
import EffectFibers.Script.Holding
import EffectFibers.Script.Step

/-!
# Sessions

A `Session` carries out a script.  It holds the world, the variables, and the handles that the
script has on fibers, runs and guards.  Each step has an answer; a step that waits for ever ends
the session.
-/

namespace EffectFibers.Script

/-- What the script holds under a name. -/
inductive Handle where
  | fiber (token : TokenId) (task : TaskId)
  /-- A fiber whose outcome is observed. -/
  | observed (token : TokenId) (task : TaskId)
  | run (run : Run)
  /-- Cancels its token when it is dropped. -/
  | guard (token : TokenId)
deriving Inhabited

def Handle.tokens : Handle → List TokenId
  | .fiber t _ | .observed t _ | .guard t => [t]
  | .run r => r.tokens

inductive Answer where
  | value (v : Value)
  | fault (f : Fault)
  | pending
deriving Inhabited

structure Session where
  world : World := {}
  scope : Scope := []
  /-- The cells of the script, in the order of their declarations. -/
  declared : List (String × CellId) := []
  handles : List (String × Handle) := []
  /-- The end of the last step that ended. -/
  elapsed : Nat := 0
deriving Inhabited

namespace Session

/-! ## Names -/

def setStore (x : Session) (s : Store) : Session := { x with world := x.world.withStore s }

def store (x : Session) : Store := x.world.store

def handle (x : Session) (name : String) : Except Fault Handle :=
  match x.handles.lookup name with
  | some h => .ok h
  | none => Scope.noValue name

/-- The fiber with a name. -/
def fiber (x : Session) (name : String) : Except Fault (TokenId × TaskId) := do
  match ← x.handle name with
  | .fiber token task | .observed token task => return (token, task)
  | .run _ | .guard _ => Scope.noValue name

def setHandle (x : Session) (name : String) (h : Handle) : Session :=
  { x with handles := (name, h) :: x.handles.filter (·.1 != name) }

def dropHandle (x : Session) (name : String) : Session :=
  { x with handles := x.handles.filter (·.1 != name) }

def setToken (x : Session) (name : String) (t : TokenId) : Session :=
  { x with scope := (name, .token t) :: x.scope.filter (·.1 != name) }

/-- The tokens that the script holds. -/
def held (x : Session) : List TokenId :=
  x.scope.tokens ++ x.handles.flatMap fun (_, h) => h.tokens

/-- Tells the world what the script holds. -/
def pin (x : Session) : Session := { x with world := { x.world with pinned := x.held } }

/-- Cuts loose the tokens that nobody holds any more. -/
def sweep (x : Session) : Session :=
  let x := x.pin
  { x with world := x.world.sweep }

/-! ## Waiting -/

/-- The session after a wait, and what was waited for; nothing if it never comes. -/
def wait (x : Session) (a : Await) : Option Settled × Session :=
  let x := x.pin
  match Scheduler.wait {} a x.world with
  | (.settled result, world) => (some result, { x with world })
  | (.pending, world) => (none, { x with world })

/-- The answer to a wait for an outcome. -/
def settledAnswer : Option Settled → Answer
  | none => .pending
  | some (.exit exit) => .value exit.toValue
  | some (.fault f) => .fault f
  | some .expired => .value (.text "dropped")
  | some .done => .value .null

def answer (x : Session) (a : Await) : Answer × Session :=
  let (result, x) := x.wait a
  (settledAnswer result, x)

/-! ## Steps -/

/-- An effect as a term stands for it, with the tokens that it holds. -/
structure Program where
  effect : Effect
  kept : List TokenId

def program (x : Session) (lane : Lane) (term : Term) : Except Fault Program := do
  return ⟨← term.build x.scope lane, term.held x.scope⟩

/-- A run of a program under a token of its own, or below one that the caller has. -/
def newRun (x : Session) (p : Program) (parent : Option TokenId) (context : Context) :
    Run × Session :=
  let (token, s) := match parent with
    | some t => x.store.childToken t
    | none => x.store.freshToken
  let (run, s) := Run.new p.effect p.kept token context s
  (run, x.setStore s)

def contextOf (context : Option String) : Except Fault Context :=
  match context with
  | some name => findContext name
  | none => .ok .home

/-- Starts a run as a task.  A closed context drops it at once. -/
def startRun (x : Session) (run : Run) (job : Run → Job) : TaskId × Session :=
  let (task, s) := x.store.spawn run.context (job run)
  let s := if run.context.isOpen then s else run.giveUp s
  (task, x.setStore s)

/-- Lets go of a handle: a fiber goes on without it, a run is given up, a guard cancels. -/
def release (x : Session) : Handle → Session
  | .fiber .. | .observed .. => x
  | .run run => x.setStore (run.giveUp x.store)
  | .guard t => x.setStore (x.store.cancel t)

/-- Gives a name to a handle; the handle that had the name is let go. -/
def bindHandle (x : Session) (name : String) (h : Handle) : Session :=
  let y := x.setHandle name h
  match x.handles.lookup name with
  | some old => y.release old
  | none => y

/-- Waits for a fiber or a run; its handle is used up. -/
def join (x : Session) (name : String) : Except Fault (Answer × Session) := do
  let h ← x.handle name
  let x := x.dropHandle name
  match h with
  | .fiber _ task => return x.answer (.task task)
  | .observed _ task =>
    match x.wait (.task task) with
    | (some (.exit exit), x) =>
      let outcome := match x.world.observed.lookup task with
        | some exit => exit.toValue
        | none => .null
      let word := if exit.isCanceled then "canceled" else "succeeded"
      return (.value (.list [.text word, outcome]), x)
    | (result, x) => return (settledAnswer result, x)
  | .run run => return x.answer (.run run)
  | .guard _ => Scope.noValue name

/-- The text that shows a handle. -/
def describeHandle (x : Session) : Handle → String
  | .fiber t task | .observed t task =>
    "Fiber \x7b token: " ++ describeToken (x.store.isCancelled t) ++ ", finished: "
      ++ toString (x.store.joined? task).isSome ++ " \x7d"
  | .run run => run.describe
  | .guard t =>
    "DropGuard \x7b token: Some(" ++ describeToken (x.store.isCancelled t) ++ ") \x7d"

/-- Polls a run once. -/
def pollHandle (x : Session) (name : String) (run : Run) : Answer × Session :=
  let x := x.pin
  match Await.pollRun ({} : Scheduler.Limits).steps run x.world with
  | (.ready exit, run, world) =>
    (.value exit.toValue, { x with world }.setHandle name (.run run))
  | (.notReady, run, world) =>
    (.value (.text "not ready"), { x with world }.setHandle name (.run run))
  | (.faulted f, run, world) => (.fault f, { x with world }.setHandle name (.run run))
  | (.unfinished, _, world) => (.pending, { x with world })

/-- What an observer gives up with. -/
def observerFault : Fault := .raised "callback panicked"

def perform (x : Session) (lane : Lane) : Step → Except Fault (Answer × Session)
  | .run effect token context => do
    let p ← x.program lane effect
    let parent ← match token with
      | some name => (x.scope.token name).map some
      | none => .ok none
    let (run, x) := x.newRun p parent (← contextOf context)
    return x.answer (.run run)
  | .runFor effect ms => do
    let (run, x) := x.newRun (← x.program lane effect) none .home
    return x.answer (.runUntil run (x.store.now + ms))
  | .makeRun name effect => do
    let (run, x) := x.newRun (← x.program lane effect) none .home
    return (.value .null, x.bindHandle name (.run run))
  | .poll name => do
    match ← x.handle name with
    | .run run => return x.pollHandle name run
    | _ => Scope.noValue name
  | .start name effect context => do
    let p ← x.program lane effect
    let (run, x) := x.newRun p none (← contextOf context)
    let (task, x) := x.startRun run .fiber
    return (.value .null, x.bindHandle name (.fiber run.token task))
  | .runAsync name effect givesUp => do
    let (run, x) := x.newRun (← x.program lane effect) none .home
    let (task, x) := x.startRun run (.observed · (if givesUp then some observerFault else none))
    return (.value .null, x.bindHandle name (.observed run.token task))
  | .join name => x.join name
  | .cancel name => do
    let (t, _) ← x.fiber name
    return (.value .null, x.setStore (x.store.cancel t))
  | .cancelAndJoin name => do
    let (t, _) ← x.fiber name
    (x.setStore (x.store.cancel t)).join name
  | .finished name => do
    let (_, task) ← x.fiber name
    return (.value (.bool (x.store.joined? task).isSome), x)
  | .fiberToken name token => do
    let (t, _) ← x.fiber name
    return (.value .null, x.setToken token t)
  | .describe name effect => do
    match (name.bind fun n => x.handles.lookup n), effect with
    | some h, _ => return (.value (.text (x.describeHandle h)), x)
    | none, some effect =>
      let _ ← effect.build x.scope lane
      return (.value (.text "Effect(<deferred>)"), x)
    | none, none => Scope.noValue (name.getD "")
  | .drop name => do
    let h ← x.handle name
    return (.value .null, (x.dropHandle name).release h)
  | .guard name token => do
    let t ← x.scope.token token
    return (.value .null, x.bindHandle name (.guard t))
  | .disarm name => do
    match ← x.handle name with
    | .guard _ => return (.value .null, x.dropHandle name)
    | _ => Scope.noValue name
  | .sleep ms => .ok (x.answer (.time (x.store.now + ms)))
  | .cancelLater token ms => do
    let t ← x.scope.token token
    return (.value .null, x.setStore (x.store.spawn .home (.canceller t ms none)).2)
  | .token as =>
    let (t, s) := x.store.freshToken
    .ok (.value .null, (x.setStore s).setToken as t)
  | .child token as => do
    let parent ← x.scope.token token
    let (t, s) := x.store.childToken parent
    return (.value .null, (x.setStore s).setToken as t)
  | .clone token as => do
    let t ← x.scope.token token
    return (.value .null, x.setToken as t)
  | .forget token => do
    let _ ← x.scope.token token
    return (.value .null, { x with scope := x.scope.filter (·.1 != token) })
  | .cancelToken token => do
    let t ← x.scope.token token
    return (.value .null, x.setStore (x.store.cancel t))
  | .isCancelled token => do
    let t ← x.scope.token token
    return (.value (.bool (x.store.isCancelled t)), x)
  | .describeToken token => do
    let t ← x.scope.token token
    return (.value (.text (describeToken (x.store.isCancelled t))), x)
  | .awaitToken token => do
    let t ← x.scope.token token
    return x.answer (.token t)
  | .malformed cause => .error (.malformed cause)

/-- One step and its answer; a fault is the answer of its step.  What nobody holds when the step
begins is cut loose. -/
def step (x : Session) (line : Line) : Answer × Session :=
  let x := x.sweep
  match x.perform line.lane line.step with
  | .ok (answer, x) => (answer, x)
  | .error f => (.fault f, x)

/-- Carries out steps up to one that waits for ever. -/
def runAll (x : Session) : List Line → List Answer × Session
  | [] => ([], x)
  | line :: rest =>
    match x.step line with
    | (.pending, x) => ([.pending], x)
    | (answer, x) =>
      let (answers, y) := { x with elapsed := x.store.time }.runAll rest
      (answer :: answers, y)

/-! ## Scripts -/

def declareCell (x : Session) (d : CellDecl) : Session :=
  let (c, memory) := x.store.memory.newCell d.initial d.policy
  { x.setStore { x.store with memory } with
    scope := (d.name, .cell c) :: x.scope
    declared := x.declared ++ [(d.name, c)] }

def declareToken (x : Session) (name : String) : Session :=
  let (t, s) := x.store.freshToken
  (x.setStore s).setToken name t

/-- The session in which a script begins. -/
def ofScript (script : Script) : Session :=
  let x : Session := { world := { store := { timed := script.timed } } }
  script.tokens.foldl declareToken (script.cells.foldl declareCell x)

/-- The values of the declared cells, also of those whose names stand for something else now. -/
def cells (x : Session) : List (String × Value) :=
  x.declared.map fun (name, c) => (name, (x.store.memory.cell c).value)

end Session

/-- What is left when a script has been carried out. -/
structure Report where
  answers : List Answer
  journal : List Entry
  elapsed : Nat
  cells : List (String × Value)
  events : List String

/-- The lines that were reported, in the order of their bytes. -/
def reportedLines (s : Store) : List String :=
  ((s.trace ++ s.memory.reports).filterMap Event.report?).mergeSort fun a b =>
    a.toUTF8.toList ≤ b.toUTF8.toList

def run (script : Script) : Report :=
  let (answers, x) := (Session.ofScript script).runAll script.lines
  { answers
    journal := x.store.memory.lanes
    elapsed := x.elapsed
    cells := x.cells
    events := reportedLines x.store }

end EffectFibers.Script
