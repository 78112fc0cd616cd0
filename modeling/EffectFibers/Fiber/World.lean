import EffectFibers.Fiber.Machine

/-!
# The world

A `World` is the store together with the tasks.  `World.pollTask` polls one task: the task goes
on, ends, or faults, and the tasks it has started join the others.

A fault drops the run loops of the task that met it.  The tokens that only they held are cut
loose, and a run among them cancels the token it guards.
-/

namespace EffectFibers

structure Task where
  context : Context
  job : Job
deriving Inhabited

structure World where
  store : Store := {}
  tasks : Array (Option Task) := #[]
  /-- The tokens that the main program holds. -/
  pinned : List TokenId := []
  /-- The run that the main program waits for. -/
  awaited : Option Run := none
  /-- What the observers of runs were handed. -/
  observed : List (TaskId × Exit) := []
deriving Inhabited

/-! ## Runs -/

namespace Run

/-- A run of an effect that has not begun. -/
def new (effect : Effect) (kept : List TokenId) (token : TokenId) (context : Context)
    (s : Store) : Run × Store :=
  ({ token, context, state := .live (.start ⟨⟨token, context, kept⟩, []⟩ effect) },
    s.emit (.fiberStarted context.name))

inductive Polled where
  | ready (exit : Exit)
  | notReady
  | faulted (fault : Fault)
  | unfinished

/-- Polls a run. -/
def poll (worker : Worker) (bound : Nat) (r : Run) (s : Store) : Polled × Run × Store :=
  match r.state with
  | .complete => (.faulted .polledAfterCompletion, r, s)
  | .broken => (.faulted .resumedAfterFault, r, s)
  | .live segment =>
    let r := { r with started := true }
    match segment.poll worker bound s with
    | (.ended exit, s) => (.ready exit, { r with state := .complete }, s.emit (.fiberFinished exit))
    | (.parked segment, s) => (.notReady, { r with state := .live segment }, s)
    | (.faulted f, s) => (.faulted f, { r with state := .broken }, s)
    | (.unfinished, s) => (.unfinished, r, s)

/-- Gives a run up.  One that is not complete cancels its token; if it was started, what is left
of it is unwound by a task of its own. -/
def giveUp (r : Run) (s : Store) : Store :=
  match r.state with
  | .complete => s
  | .broken => (s.cancel r.token).emit (.runDropped r.context.name)
  | .live segment =>
    let s := s.cancel r.token
    if r.started then
      ((s.emit (.runDropped r.context.name)).spawn r.context (.detached segment)).2
    else s

end Run

/-! ## Jobs -/

namespace Job

inductive Polled where
  | parked (job : Job)
  | ended (exit : Exit) (observed : Option Exit)
  /-- The run that guards the token of the fault, if there is one, is still to be given up. -/
  | faulted (fault : Fault) (guard : Option Run)
  | unfinished
deriving Inhabited

def ofRun (rewrap : Run → Job) (finish : Exit → Polled) :
    Run.Polled × Run × Store → Polled × Store
  | (.ready exit, _, s) => (finish exit, s)
  | (.notReady, run, s) => (.parked (rewrap run), s)
  | (.faulted f, run, s) => (.faulted f (some run), s)
  | (.unfinished, _, s) => (.unfinished, s)

def ofSegment (rewrap : Segment → Job) (finish : Exit → Store → Store) :
    Config.Result × Store → Polled × Store
  | (.ended exit, s) => (.ended exit none, finish exit s)
  | (.parked rest, s) => (.parked (rewrap rest), s)
  | (.faulted f, s) => (.faulted f none, s)
  | (.unfinished, s) => (.unfinished, s)

/-- Makes the completions that are due; the last one drops the callback. -/
def complete (worker : Worker) (slot since : Nat) :
    List (Nat × Completion) → Store → Polled × Store
  | [], s => (.ended (.succeeded .null) none, s.dropCallback slot)
  | (delay, completion) :: rest, s =>
    if since + delay ≤ s.now then
      match completion with
      | .error f => (.faulted f none, s.dropCallback slot)
      | .ok result =>
        match s.completeCallback slot result with
        | .ok s => complete worker slot since rest s
        | .error f => (.faulted f none, s.dropCallback slot)
    else
      (.parked (.completer slot (some since) ((delay, completion) :: rest)),
        s.watchTime (since + delay) worker.task)

/-- Polls a job. -/
def poll (worker : Worker) (bound : Nat) (s : Store) : Job → Polled × Store
  | .segment rest => ofSegment .segment (fun _ s => s) (rest.poll worker bound s)
  | .detached rest =>
    ofSegment .detached (fun exit s => s.emit (.detachedFinished exit))
      (rest.poll worker bound s)
  | .fiber run => ofRun .fiber (fun exit => .ended exit none) (run.poll worker bound s)
  | .observed run gives =>
    ofRun (.observed · gives)
      (fun exit => match gives with
        | none => .ended (.succeeded .null) (some exit)
        | some f => .faulted f none)
      (run.poll worker bound s)
  | .completer slot since rest => complete worker slot (since.getD s.now) rest s
  | .canceller token delay deadline =>
    let time := deadline.getD (s.now + delay)
    if time ≤ s.now then (.ended (.succeeded .null) none, s.cancel token)
    else (.parked (.canceller token delay (some time)), s.watchTime time worker.task)

end Job

namespace World

/-! ## Tasks -/

def task? (w : World) (t : TaskId) : Option Task := (w.tasks[t]?).join

/-- Puts a task into its place, or takes it away. -/
def setTask (w : World) (t : TaskId) (task : Option Task) : World :=
  let tasks :=
    if t < w.tasks.size then w.tasks
    else w.tasks ++ Array.replicate (t + 1 - w.tasks.size) none
  { w with tasks := tasks.setIfInBounds t task }

/-- The tasks that were started join the others. -/
def adopt (w : World) : World :=
  let spawned := w.store.spawned.reverse
  let w := { w with store := { w.store with spawned := [] } }
  spawned.foldl (fun w spawn => w.setTask spawn.task (some ⟨spawn.context, spawn.job⟩)) w

def withStore (w : World) (store : Store) : World := { w with store }.adopt

/-! ## Tokens that are held -/

/-- The tokens that tasks or the main program hold. -/
def held (w : World) : List TokenId :=
  w.tasks.toList.flatMap (fun task => match task with
    | some task => task.job.tokens
    | none => []) ++ w.pinned ++ (match w.awaited with
    | some run => run.tokens
    | none => [])

/-- Cuts loose the tokens that nobody holds. -/
def sweep (w : World) : World :=
  let marks := w.held.foldl (fun marks t => marks.setIfInBounds t true)
    (Array.replicate w.store.tokens.nodes.size false)
  let tokens := w.store.tokens.prune fun t => (marks[t]?).getD false
  { w with store := { w.store with tokens } }

/-! ## Polling -/

/-- A run that met a fault is dropped: its loops are gone, then it is given up. -/
def dropFaulted (w : World) (guard : Option Run) : World :=
  let w := w.sweep
  match guard with
  | some run => w.withStore (run.giveUp w.store)
  | none => w

/-- Polls a task that is not ended; nothing if a bound on the steps was met. -/
def pollTask (w : World) (bound : Nat) (t : TaskId) : Option World :=
  match w.task? t with
  | none => some w
  | some task =>
    match task.job.poll ⟨t, task.context.thread⟩ bound w.store with
    | (.parked job, s) => some ((w.setTask t (some { task with job })).withStore s)
    | (.ended exit observed, s) =>
      let w := (w.setTask t none).withStore (s.finish t (.ended exit))
      match observed with
      | some exit => some { w with observed := (t, exit) :: w.observed }
      | none => some w
    | (.faulted f guard, s) =>
      let w := ((w.setTask t none).withStore s).dropFaulted guard
      some (w.withStore (w.store.finish t (.faulted f)))
    | (.unfinished, _) => none

end World

end EffectFibers
